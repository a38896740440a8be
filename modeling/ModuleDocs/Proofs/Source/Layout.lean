import Mathlib
import ModuleDocs.Proofs.Source.Terminal
import ModuleDocs.Proofs.Text.Split

/-!
# Lexemes with gaps between them

A gap is white space and comments, each comment with the end of its line.  Lexemes that
stand one after the other with gaps between them (`IsLaidOut`) are cut into just these
lexemes again, whatever the gaps are (`Tokens.exists_of_isLaidOut`): a gap starts with no
character that a name or a number could go on with, and is left out as a whole.
-/

namespace ModuleDocs.Source

open Computability

/-- White space, and comments with the line feeds behind them. -/
def gap : Language CodePoint :=
  (oneOf isSpace + Terminal.comment.words * {[CodePoint.ofChar '\n']})∗

/-- Lexemes with a gap between two of them, and perhaps one at the end. -/
inductive IsSpaced : List Text → Text → Prop
  | nil : IsSpaced [] []
  | last {lexeme after : Text} (hafter : after ∈ gap) : IsSpaced [lexeme] (lexeme ++ after)
  | cons {lexeme next space t : Text} {rest : List Text} (hspace : space ∈ gap)
      (hne : space ≠ []) (hrest : IsSpaced (next :: rest) t) :
      IsSpaced (lexeme :: next :: rest) (lexeme ++ (space ++ t))

/-- Lexemes with a gap between two of them, and perhaps one at either end. -/
def IsLaidOut (lexemes : List Text) (t : Text) : Prop :=
  ∃ before ∈ gap, ∃ body, IsSpaced lexemes body ∧ t = before ++ body

/-- The token has this text, which is one of its kind. -/
structure Token.Spells (token : Token) (lexeme : Text) : Prop where
  text_eq : token.text = lexeme
  mem : lexeme ∈ token.kind.words

/-! ## Gaps -/

section Gaps

variable {c : CodePoint} {g w rest t : Text}

theorem nil_mem_gap : [] ∈ gap := Language.nil_mem_kstar _

theorem cons_mem_gap (hc : isSpace c = true) (h : g ∈ gap) : c :: g ∈ gap :=
  append_mem_kstar (w := [c]) (Or.inl ⟨c, hc, rfl⟩) h

theorem comment_mem_gap (hw : w ∈ Terminal.comment.words) (h : g ∈ gap) :
    w ++ CodePoint.ofChar '\n' :: g ∈ gap := by
  have hpart : w ++ [CodePoint.ofChar '\n'] ∈ Terminal.comment.words * {[CodePoint.ofChar '\n']} :=
    Language.append_mem_mul hw rfl
  rw [← List.singleton_append, ← List.append_assoc]
  exact append_mem_kstar (Or.inr hpart) h

/-- A gap is nothing, a character of white space before a gap, or a comment with its line feed
before one. -/
@[elab_as_elim]
theorem gap_induction {P : (g : Text) → g ∈ gap → Prop} (nil : P [] nil_mem_gap)
    (space : ∀ (c : CodePoint) (g : Text) (hc : isSpace c = true) (h : g ∈ gap),
      P g h → P (c :: g) (cons_mem_gap hc h))
    (comment : ∀ (w g : Text) (hw : w ∈ Terminal.comment.words) (h : g ∈ gap),
      P g h → P (w ++ CodePoint.ofChar '\n' :: g) (comment_mem_gap hw h))
    (h : g ∈ gap) : P g h := by
  suffices hP : ∃ h : g ∈ gap, P g h from hP.2
  obtain ⟨parts, rfl, hparts⟩ := Language.mem_kstar.1 h
  clear h
  induction parts with
  | nil => exact ⟨_, nil⟩
  | cons part parts ih =>
    obtain ⟨hpart, hrest⟩ := List.forall_mem_cons.1 hparts
    obtain ⟨hgap, hP⟩ := ih hrest
    rw [List.flatten_cons]
    rcases (Language.mem_add _ _ _).1 hpart with ⟨c, hc, rfl⟩ | hcomment
    · exact ⟨_, space c _ hc hgap hP⟩
    · obtain ⟨w, hw, _, rfl, rfl⟩ := Language.mem_mul.1 hcomment
      rw [List.append_assoc]
      exact ⟨_, comment w _ hw hgap hP⟩

/-- Nothing that a name or a number could go on with is at the start. -/
def IsApart (t : Text) : Prop := ∀ c ∈ t.head?, c.val < 0x30

theorem isApart_nil : IsApart [] := by simp [IsApart]

theorem isApart_append (hgap : g ∈ gap) (hne : g ≠ []) : IsApart (g ++ rest) := by
  induction hgap using gap_induction with
  | nil => exact absurd rfl hne
  | space c v hc _ =>
    rintro _ ⟨⟩
    have hval := val_le_of_isSpace hc
    omega
  | comment w v hw _ =>
    obtain ⟨c, body, hc, _, rfl⟩ := mem_oneOf_mul.1 hw
    rintro _ ⟨⟩
    rw [of_decide_eq_true hc]
    decide

theorem takeWhile_of_isApart {q : CodePoint → Bool} (hq : ∀ c, q c = true → 0x30 ≤ c.val)
    (hw : ∀ c ∈ w, q c = true) (hrest : IsApart rest) : (w ++ rest).takeWhile q = w := by
  refine Text.takeWhile_word_append hw fun c hc => ?_
  have hval := hrest c hc
  exact Bool.eq_false_iff.2 fun h => absurd (hq c h) (by omega)

theorem val_le_of_isDigit (h : c.isDigit = true) : 0x30 ≤ c.val := by
  simp only [CodePoint.isDigit, Bool.and_eq_true, decide_eq_true_eq] at h
  exact h.1

theorem val_le_of_isNamePart (h : isNamePart c = true) : 0x30 ≤ c.val := by
  simp only [isNamePart, CodePoint.isLower, CodePoint.isUpper, CodePoint.isDigit, Bool.or_eq_true,
    Bool.and_eq_true, decide_eq_true_eq] at h
  rcases h with (((h | h) | h) | rfl) | rfl
  · omega
  · omega
  · omega
  · decide
  · decide

/-- A token ends where such a text starts. -/
theorem isLongest_of_isApart {kind : TokenKind} (h : w ∈ kind.words) (hrest : IsApart rest) :
    IsLongest kind.words w rest := by
  match kind with
  | .name =>
    obtain ⟨c, v, hc, hv, rfl⟩ := mem_oneOf_mul.1 h
    exact isLongest_run_iff.2 ⟨hc, takeWhile_of_isApart (fun _ => val_le_of_isNamePart)
      (mem_oneOf_kstar.1 hv) hrest⟩
  | .integer =>
    obtain ⟨c, v, hc, hv, rfl⟩ := mem_oneOf_mul.1 h
    exact isLongest_run_iff.2 ⟨hc, takeWhile_of_isApart (fun _ => val_le_of_isDigit)
      (mem_oneOf_kstar.1 hv) hrest⟩
  | .quotedAtom | .string => exact (isLongest_literal_iff (by decide)).2 h
  | .leftParen | .rightParen | .minus | .dot | .slash | .comma | .leftBracket | .rightBracket
  | .leftBrace | .rightBrace | .openBinary | .closeBinary | .openMap | .arrow =>
    exact isLongest_singleton_iff.2 h

/-- A comment ends with its line. -/
theorem isLongest_comment (h : w ∈ Terminal.comment.words) :
    IsLongest Terminal.comment.words w (CodePoint.ofChar '\n' :: rest) := by
  obtain ⟨c, v, hc, hv, rfl⟩ := mem_oneOf_mul.1 h
  refine isLongest_run_iff.2 ⟨hc, ?_⟩
  rw [List.takeWhile_append_of_pos (mem_oneOf_kstar.1 hv), List.takeWhile_cons_of_neg (by simp),
    List.append_nil]

end Gaps

/-! ## Reading past gaps -/

theorem Position.after_append (at_ : Position) (s t : Text) :
    at_.after (s ++ t) = (at_.after s).after t :=
  List.foldl_append

namespace Tokens

variable {c : CodePoint} {g rest t : Text} {done : List Token} {at_ : Position}

/-- A character of white space is left out. -/
theorem ofTextFrom_cons_of_isSpace (h : isSpace c = true) :
    ofTextFrom done at_ (c :: t) = ofTextFrom done (at_.next c) t := by
  -- White space is cut off as a whole, so the whole run behind the character is looked at.
  have hrun {d : CodePoint} {w rest : Text} (hd : isSpace d = true)
      (hw : (w ++ rest).takeWhile isSpace = w) (at_ : Position) :
      ofTextFrom done at_ (d :: (w ++ rest)) = ofTextFrom done (at_.after (d :: w)) rest := by
    have htaken : IsLongest Terminal.space.words (d :: w) rest := isLongest_run_iff.2 ⟨hd, hw⟩
    exact ofTextFrom_append htaken
  obtain ⟨w, rest, rfl, hw, hall⟩ : ∃ w rest, t = w ++ rest
      ∧ (w ++ rest).takeWhile isSpace = w ∧ ∀ d ∈ w, isSpace d = true := by
    refine ⟨t.takeWhile isSpace, t.dropWhile isSpace, List.takeWhile_append_dropWhile.symm, ?_,
      fun _ => List.mem_takeWhile_imp⟩
    rw [List.takeWhile_append_dropWhile]
  rw [hrun h hw]
  cases w with
  | nil => rfl
  | cons d w =>
    obtain ⟨hd, _⟩ := List.forall_mem_cons.1 hall
    rw [List.cons_append, List.takeWhile_cons_of_pos hd] at hw
    exact (hrun hd (List.cons_eq_cons.1 hw).2 (at_.next c)).symm

/-- A gap is left out. -/
theorem ofTextFrom_gap (h : g ∈ gap) :
    ofTextFrom done at_ (g ++ rest) = ofTextFrom done (at_.after g) rest := by
  induction h using gap_induction generalizing at_ with
  | nil => rfl
  | space c v hc _ ih => exact (ofTextFrom_cons_of_isSpace hc).trans ih
  | comment w v hw _ ih =>
    have hline : isSpace (CodePoint.ofChar '\n') = true := by decide
    rw [List.append_assoc, List.cons_append, ofTextFrom_append (isLongest_comment hw),
      ofTextFrom_cons_of_isSpace hline, Position.after_append]
    exact ih

/-- A token is cut off before a gap, and the gap left out. -/
theorem ofTextFrom_lexeme {kind : TokenKind} {lexeme : Text} (hlexeme : lexeme ∈ kind.words)
    (hgap : g ∈ gap) (hapart : IsApart (g ++ rest)) :
    ofTextFrom done at_ (lexeme ++ (g ++ rest))
      = ofTextFrom (⟨kind, lexeme, at_⟩ :: done) ((at_.after lexeme).after g) rest := by
  have htaken : IsLongest (Terminal.token kind).words lexeme (g ++ rest) :=
    isLongest_of_isApart hlexeme hapart
  rw [ofTextFrom_append htaken, ofTextFrom_gap hgap]
  rfl

variable {lexemes : List Text}

theorem exists_of_isSpaced (h : IsSpaced lexemes t)
    (hlexemes : ∀ lexeme ∈ lexemes, ∃ kind : TokenKind, lexeme ∈ kind.words) :
    ∃ tokens, ofTextFrom done at_ t = ⟨done.reverse ++ tokens, none⟩
      ∧ List.Forall₂ Token.Spells tokens lexemes := by
  induction h generalizing done at_ with
  | nil => exact ⟨[], by rw [ofTextFrom, List.append_nil], .nil⟩
  | @last lexeme after hafter =>
    obtain ⟨kind, hkind⟩ := hlexemes lexeme List.mem_cons_self
    have hapart : IsApart (after ++ []) := by
      by_cases hne : after = []
      · rw [hne]
        exact isApart_nil
      · exact isApart_append hafter hne
    refine ⟨[⟨kind, lexeme, at_⟩], ?_, .cons ⟨rfl, hkind⟩ .nil⟩
    rw [← List.append_nil after, ofTextFrom_lexeme hkind hafter hapart, ofTextFrom,
      List.reverse_cons]
  | @cons lexeme next space t rest hspace hne _ ih =>
    obtain ⟨⟨kind, hkind⟩, hrest⟩ := List.forall_mem_cons.1 hlexemes
    obtain ⟨tokens, htokens, hspells⟩ :=
      @ih (⟨kind, lexeme, at_⟩ :: done) ((at_.after lexeme).after space) hrest
    refine ⟨⟨kind, lexeme, at_⟩ :: tokens, ?_, .cons ⟨rfl, hkind⟩ hspells⟩
    rw [ofTextFrom_lexeme hkind hspace (isApart_append hspace hne), htokens, List.reverse_cons,
      List.append_assoc]
    rfl

/-- Lexemes are read back from a text that lays them out. -/
theorem exists_of_isLaidOut (h : IsLaidOut lexemes t)
    (hlexemes : ∀ lexeme ∈ lexemes, ∃ kind : TokenKind, lexeme ∈ kind.words) :
    ∃ tokens, ofText t = ⟨tokens, none⟩ ∧ List.Forall₂ Token.Spells tokens lexemes := by
  obtain ⟨before, hbefore, body, hbody, rfl⟩ := h
  rw [ofText, ofTextFrom_gap hbefore]
  exact exists_of_isSpaced hbody hlexemes

end Tokens

/-! ## Lexemes can be laid out -/

theorem isSpaced_join (lexemes : List Text) : IsSpaced lexemes (Text.join " " lexemes) := by
  induction lexemes with
  | nil => exact .nil
  | cons lexeme rest ih =>
    cases rest with
    | nil =>
      rw [Text.join, List.intercalate_singleton]
      have hlast : IsSpaced [lexeme] (lexeme ++ []) := .last nil_mem_gap
      rwa [List.append_nil] at hlast
    | cons next rest =>
      rw [Text.join, List.intercalate_cons_cons, List.append_assoc]
      exact .cons (cons_mem_gap (by decide) nil_mem_gap) (by decide) ih

theorem isLaidOut_join (lexemes : List Text) : IsLaidOut lexemes (Text.join " " lexemes) :=
  ⟨[], nil_mem_gap, _, isSpaced_join lexemes, rfl⟩

end ModuleDocs.Source
