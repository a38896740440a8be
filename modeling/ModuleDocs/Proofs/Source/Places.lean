import Mathlib
import ModuleDocs.Proofs.Lists
import ModuleDocs.Proofs.Result
import ModuleDocs.Proofs.Source.Layout
import ModuleDocs.Proofs.Source.Parse
import ModuleDocs.Source.Form

/-!
# Where forms are

`IsAt t p c` says which character a text has at a line and a column, in terms of the text alone: by
the line feeds before the character, and by the code points between it and the last of these.  The
scanner counts along while it reads, and what it counts is that place (`isAt_after`).  So the tokens
that a text splits into stand where they say (`Splits.isCut`), one behind the other
(`Splits.ascending`).

A form has the place of its first token.  That is its minus sign, and the forms of a text come in
the order of their places (`Form.arePlaced_of_ofText`).
-/

namespace ModuleDocs.Source

/-! ## Places in a text -/

namespace Position

/-- The first position is on an earlier line, or before the other one on its line. -/
def Before (p q : Position) : Prop := p.line < q.line ∨ p.line = q.line ∧ p.column < q.column

variable {p q r : Position}

theorem Before.trans (hpq : p.Before q) (hqr : q.Before r) : p.Before r := by
  unfold Before at *
  omega

theorem not_before_self (p : Position) : ¬ p.Before p := by
  unfold Before
  omega

theorem before_next (p : Position) (c : CodePoint) : p.Before (p.next c) := by
  unfold Before next
  split
  · exact Or.inl (Nat.lt_succ_self _)
  · exact Or.inr ⟨rfl, Nat.lt_succ_self _⟩

/-- The position behind a text that is not empty comes later. -/
theorem before_after {t : Text} (h : t ≠ []) (p : Position) : p.Before (p.after t) := by
  induction t generalizing p with
  | nil => exact absurd rfl h
  | cons c t ih =>
    change p.Before ((p.next c).after t)
    by_cases hrest : t = []
    · subst hrest
      exact p.before_next c
    · exact (p.before_next c).trans (ih hrest _)

/-- Where the position does not change there is no text. -/
theorem eq_nil_of_after_eq {t : Text} (h : p.after t = p) : t = [] := by
  by_contra hne
  exact p.not_before_self (by simpa only [h] using p.before_after hne)

end Position

/-- The code points behind the last line feed. -/
def lastLine (t : Text) : Text := t.rtakeWhile (· ≠ CodePoint.ofChar '\n')

theorem lastLine_append_singleton (t : Text) (c : CodePoint) :
    lastLine (t ++ [c]) = if c = CodePoint.ofChar '\n' then [] else lastLine t ++ [c] := by
  rw [lastLine, List.rtakeWhile_concat]
  by_cases hc : c = CodePoint.ofChar '\n' <;> simp [hc, lastLine]

/-- The text has the character at the position: behind so many line feeds, and so many code points
behind the last of them. -/
def IsAt (t : Text) (p : Position) (c : CodePoint) : Prop :=
  ∃ before rest, t = before ++ c :: rest ∧ p.line = before.count (CodePoint.ofChar '\n') + 1 ∧
    p.column = (lastLine before).length + 1

/-- What is counted on the way through a text are its line feeds, and the code points behind the
last of them. -/
theorem first_after (t : Text) : Position.first.after t =
    ⟨t.count (CodePoint.ofChar '\n') + 1, (lastLine t).length + 1⟩ := by
  induction t using List.reverseRecOn with
  | nil => rfl
  | append_singleton t c ih =>
    rw [Position.after_append, ih, lastLine_append_singleton, List.count_append]
    change Position.next _ c = _
    unfold Position.next
    by_cases hc : c = CodePoint.ofChar '\n' <;> simp [hc]

variable {t before rest : Text} {p : Position} {c d : CodePoint}

theorem isAt_after : IsAt (before ++ c :: rest) (Position.first.after before) c := by
  rw [first_after]
  exact ⟨before, rest, rfl, rfl, rfl⟩

/-- A text has one character at a position. -/
theorem IsAt.unique (hc : IsAt t p c) (hd : IsAt t p d) : c = d := by
  obtain ⟨before, rest, hbefore, hline, hcolumn⟩ := hc
  obtain ⟨before', rest', hbefore', hline', hcolumn'⟩ := hd
  have hplace : Position.first.after before = Position.first.after before' := by
    rw [first_after, first_after, ← hline, ← hcolumn, ← hline', ← hcolumn']
  -- One of the two ways to the position goes on where the other one ends, and so not at all.
  rcases List.append_eq_append_iff.1 (hbefore.symm.trans hbefore') with
    ⟨w, hw, hrest⟩ | ⟨w, hw, hrest⟩
  · rw [hw, Position.after_append] at hplace
    rw [Position.eq_nil_of_after_eq hplace.symm] at hrest
    exact (List.cons.inj hrest).1
  · rw [hw, Position.after_append] at hplace
    rw [Position.eq_nil_of_after_eq hplace] at hrest
    exact (List.cons.inj hrest).1.symm

theorem isAt_iff (h : IsAt t p c) (d : CodePoint) : IsAt t p d ↔ d = c :=
  ⟨fun hd => hd.unique h, fun hd => hd ▸ h⟩

/-! ## Tokens -/

/-- The token is cut out of the text where it says, and its text is one of its kind. -/
structure Token.IsCut (at_ : Position) (t : Text) (token : Token) : Prop where
  mem : token.text ∈ token.kind.words
  place : ∃ before rest, t = before ++ (token.text ++ rest) ∧ token.position = at_.after before

variable {at_ : Position} {tokens : List Token}

theorem Splits.isCut (h : Splits at_ t tokens) : ∀ token ∈ tokens, token.IsCut at_ t := by
  induction h with
  | nil at_ => exact List.forall_mem_nil _
  | @cons at_ terminal lexeme rest tokens htaken _ ih =>
    refine List.forall_mem_append.2 ⟨?_, fun token htoken => ?_⟩
    · cases terminal with
      | token kind =>
        exact List.forall_mem_singleton.2 ⟨htaken.mem, [], rest, rfl, rfl⟩
      | _ => exact List.forall_mem_nil _
    · obtain ⟨hmem, before, behind, hrest, hposition⟩ := ih token htoken
      refine ⟨hmem, lexeme ++ before, behind, ?_, ?_⟩
      · rw [hrest, List.append_assoc]
      · rw [hposition, Position.after_append]

/-- The tokens of a text come in the order of their places. -/
theorem Splits.ascending (h : Splits at_ t tokens) :
    tokens.Pairwise fun a b => a.position.Before b.position := by
  induction h with
  | nil at_ => exact List.Pairwise.nil
  | @cons at_ terminal lexeme rest tokens htaken hrest ih =>
    refine List.pairwise_append.2 ⟨?_, ih, ?_⟩
    · cases terminal with
      | token kind => exact List.pairwise_singleton _ _
      | _ => exact List.Pairwise.nil
    · intro token htoken later hlater
      obtain ⟨_, before, behind, _, hposition⟩ := hrest.isCut later hlater
      have hne : lexeme ≠ [] := by
        obtain ⟨c, w, rfl⟩ := exists_cons_of_mem_words htaken.mem
        exact List.cons_ne_nil c w
      cases terminal with
      | token kind =>
        rw [List.mem_singleton.1 htoken, hposition, ← Position.after_append]
        exact at_.before_after (by simp [hne])
      | _ => cases htoken

/-! ## Forms -/

theorem mem_yields {token : Token} {tree : SyntaxTree} {children : List SyntaxTree}
    (htoken : token ∈ tree.yield) (htree : tree ∈ children) :
    token ∈ SyntaxTree.yields children := by
  induction children with
  | nil => cases htree
  | cons first rest ih =>
    rw [SyntaxTree.yields, List.mem_append]
    rcases List.mem_cons.1 htree with hfirst | hrest
    · exact Or.inl (hfirst ▸ htoken)
    · exact Or.inr (ih hrest)

/-- A text that is read as forms has a derivation, tree by tree of the forms. -/
theorem Forms.exists_trees_of_ofText {nodes : List FormNode} (h : Forms.ofText t = .ok nodes) :
    ∃ children, Splits .first t (SyntaxTree.yields children) ∧
      SyntaxTree.IsParse (.node .start children) (SyntaxTree.yields children) ∧
      List.Forall₂ FormNode.HasTree nodes children := by
  obtain ⟨hstop, hrun⟩ := Forms.ofTokens_eq_ok_iff.1 h
  obtain ⟨tree, hparse⟩ := Forms.run_eq_some_iff_isParse.1 hrun
  obtain ⟨children, rfl, hyields, htrees⟩ := isParse_iff.1 hparse
  refine ⟨children, ?_, hyields ▸ hparse.1, htrees⟩
  rw [hyields, ← Tokens.ofText_eq_iff, ← hstop]
  rfl

namespace Form

/-- The tree starts with the minus sign of the form, where the form says, and with its name. -/
def Starts (form : Form) (tree : SyntaxTree) : Prop :=
  ∃ name more, name.kind = .name ∧ name.text = form.name ∧
    tree.yield = ⟨.minus, "-", form.at_⟩ :: name :: more

/-- The forms stand in the text where they say: their derivations start there, with a minus sign,
and they come in the order of their places. -/
structure ArePlaced (t : Text) (forms : List Form) : Prop where
  starts : ∃ children, Splits .first t (SyntaxTree.yields children) ∧
    SyntaxTree.IsParse (.node .start children) (SyntaxTree.yields children) ∧
    List.Forall₂ Starts forms children
  signs : ∀ form ∈ forms, ∀ c, IsAt t form.at_ c ↔ c = '-'
  ascending : forms.Pairwise fun a b => a.at_.Before b.at_

variable {forms : List Form} {file? : Option Text}

/-- Forms have the names and the places of the nodes that they are read from. -/
theorem forall₂_of_ofNodes {nodes : List FormNode} (h : ofNodes file? nodes = .ok forms) :
    List.Forall₂ (fun form node => node.name.text = form.name ∧ node.at_ = form.at_) forms
      nodes := by
  induction nodes generalizing forms with
  | nil =>
    cases h
    exact .nil
  | cons node rest ih =>
    obtain ⟨value, _, h⟩ := Result.bind_eq_ok_iff.1 h
    obtain ⟨others, hothers, rfl⟩ := Result.bind_pure_eq_ok_iff.1 h
    exact .cons ⟨rfl, rfl⟩ (ih hothers)

/-- A derivation of the node of a form starts as the form says. -/
theorem starts_of_hasTree {form : Form} {node : FormNode} {tree : SyntaxTree} {at_ : Position}
    (hname : node.name.text = form.name) (hplace : node.at_ = form.at_) (h : node.HasTree tree)
    (hcut : ∀ token ∈ tree.yield, token.IsCut at_ t) : form.Starts tree := by
  obtain ⟨sign, dot, valueTree, children, hsign, hat, hkind, hvalue, henclosed, hdot, rfl⟩ := h
  have htext : sign.text = "-" := by
    have hmem := (hcut sign List.mem_cons_self).mem
    rw [hsign] at hmem
    exact hmem
  have hyield : sign = ⟨.minus, "-", form.at_⟩ := by
    rw [← hsign, ← htext, ← hplace, ← hat]
  rw [Starts, ← hyield]
  exact ⟨node.name, _, hkind, hname, rfl⟩

theorem forall₂_starts {nodes : List FormNode} {children : List SyntaxTree} {at_ : Position}
    (hread : List.Forall₂ (fun form node => node.name.text = form.name ∧ node.at_ = form.at_) forms
      nodes)
    (htrees : List.Forall₂ FormNode.HasTree nodes children)
    (hcut : ∀ tree ∈ children, ∀ token ∈ tree.yield, token.IsCut at_ t) :
    List.Forall₂ Starts forms children := by
  induction hread generalizing children with
  | nil =>
    cases htrees
    exact .nil
  | cons hform _ ih =>
    cases htrees with
    | cons htree hrest =>
      obtain ⟨hfirst, hcut⟩ := List.forall_mem_cons.1 hcut
      exact .cons (starts_of_hasTree hform.1 hform.2 htree hfirst) (ih hrest hcut)

/-- The places of forms are those of some of the tokens, in their order. -/
theorem sublist_positions {children : List SyntaxTree} (h : List.Forall₂ Starts forms children) :
    (forms.map (·.at_)).Sublist ((SyntaxTree.yields children).map (·.position)) := by
  induction h with
  | nil => exact List.Sublist.slnil
  | cons hform _ ih =>
    obtain ⟨name, more, _, _, hyield⟩ := hform
    rw [SyntaxTree.yields, hyield, List.map_append]
    exact (ih.trans (List.sublist_append_right _ _)).cons_cons _

theorem isAt_of_starts {form : Form} {tree : SyntaxTree} {children : List SyntaxTree}
    (hsplits : Splits .first t (SyntaxTree.yields children)) (htree : tree ∈ children)
    (h : form.Starts tree) : IsAt t form.at_ '-' := by
  obtain ⟨name, more, _, _, hyield⟩ := h
  obtain ⟨_, before, rest, htext, hposition⟩ := hsplits.isCut _
    (mem_yields (hyield ▸ List.mem_cons_self) htree)
  rw [htext, show form.at_ = _ from hposition]
  exact isAt_after

/-- The forms that are read from a text stand in it where they say, in this order. -/
theorem arePlaced_of_ofText (h : ofText t file? = .ok forms) : ArePlaced t forms := by
  unfold ofText at h
  split at h
  · cases h
  rename_i nodes hnodes
  obtain ⟨children, hsplits, hparse, htrees⟩ := Forms.exists_trees_of_ofText hnodes
  have hread := forall₂_of_ofNodes (Result.mapError_eq_ok_iff.1 h)
  have hstarts : List.Forall₂ Starts forms children :=
    forall₂_starts hread htrees fun tree htree token htoken =>
      hsplits.isCut token (mem_yields htoken htree)
  refine ⟨⟨children, hsplits, hparse, hstarts⟩, fun form hform => ?_, ?_⟩
  · obtain ⟨tree, htree, hform⟩ := Lists.exists_right hstarts form hform
    exact isAt_iff (isAt_of_starts hsplits htree hform)
  · rw [← List.pairwise_map (R := Position.Before)]
    exact (List.pairwise_map.2 hsplits.ascending).sublist (sublist_positions hstarts)

end Form

end ModuleDocs.Source
