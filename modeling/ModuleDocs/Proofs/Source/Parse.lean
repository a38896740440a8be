import Mathlib
import ModuleDocs.Proofs.Result
import ModuleDocs.Proofs.Source.Inversion
import ModuleDocs.Proofs.Source.Progress
import ModuleDocs.Proofs.Source.Terminal
import ModuleDocs.Proofs.Source.Unambiguous

/-!
# A text is read as the grammar says

A text is a sequence of forms if and only if it splits into what terminals take one after
the other and the tokens among it have a derivation.  No text splits in two ways, no tokens
have two derivations, and the forms are those that the derivation writes
(`Forms.ofText_iff_isParse`).

From left to right the derivation comes from the run (`exists_of_run`), and from right to left
the run from the derivation (`run_of_forms`).
-/

namespace ModuleDocs.Source

variable {tokens : List Token} {nodes : List FormNode}

namespace Forms

theorem ofTokens_eq_ok_iff {stop? : Option (CodePoint × Position)} :
    ofTokens ⟨tokens, stop?⟩ = .ok nodes ↔
      stop? = none ∧ run .between tokens = some (.between, nodes) := by
  rw [ofTokens, ofTokensFrom_eq_ok_iff]
  simp

/-- Tokens are forms if they have a derivation that writes them. -/
theorem run_eq_some_iff_isParse : run .between tokens = some (.between, nodes) ↔
    ∃ tree : SyntaxTree, tree.IsParse tokens ∧ tree.forms = nodes := by
  constructor
  · intro h
    obtain ⟨children, htrees, hyields⟩ := exists_of_run (s := .between) rfl h
    exact ⟨.node .start children, isParse_iff.2 ⟨children, rfl, hyields, htrees⟩⟩
  · intro h
    obtain ⟨tree, htree⟩ := h
    obtain ⟨children, _, rfl, htrees⟩ := isParse_iff.1 htree
    exact run_of_forms htrees

end Forms

/-- Tokens have one derivation at most. -/
theorem SyntaxTree.IsParse.unique {first second : SyntaxTree} (h : first.IsParse tokens)
    (h' : second.IsParse tokens) : first = second := by
  have hrun := Forms.run_eq_some_iff_isParse.2 ⟨first, h, rfl⟩
  rw [Forms.run_eq_some_iff_isParse.2 ⟨second, h', rfl⟩] at hrun
  have hforms : second.forms = first.forms := congrArg Prod.snd (Option.some.inj hrun)
  obtain ⟨children, rfl, rfl, htrees⟩ := isParse_iff.1 ⟨h, rfl⟩
  obtain ⟨children', rfl, hyields, htrees'⟩ := isParse_iff.1 ⟨h', hforms⟩
  rw [forms_unique htrees htrees' hyields.symm]

namespace Forms

/-- A text is read as forms exactly if the grammar derives it, and then as the forms that its
derivation writes: what a terminal takes at a place, the tokens and the derivation are unique. -/
theorem ofText_iff_isParse :
    (∀ (t : Text) (nodes : List FormNode), ofText t = .ok nodes ↔
      ∃ tokens, Splits .first t tokens
        ∧ ∃ tree : SyntaxTree, tree.IsParse tokens ∧ tree.forms = nodes)
    ∧ (∀ t : Text, {taken : Terminal × Text | ∃ rest, t = taken.2 ++ rest
        ∧ IsLongest taken.1.words taken.2 rest}.Subsingleton)
    ∧ (∀ t : Text, {tokens | Splits .first t tokens}.Subsingleton)
    ∧ ∀ tokens : List Token, {tree : SyntaxTree | tree.IsParse tokens}.Subsingleton := by
  refine ⟨fun t nodes => ?_, fun t => ?_, fun t => ?_, fun tokens => ?_⟩
  · constructor
    · intro h
      obtain ⟨hstop, hrun⟩ := ofTokens_eq_ok_iff.1 h
      refine ⟨(Tokens.ofText t).tokens, ?_, run_eq_some_iff_isParse.1 hrun⟩
      rw [← Tokens.ofText_eq_iff, ← hstop]
      rfl
    · intro h
      obtain ⟨tokens, hsplits, htree⟩ := h
      rw [ofText, Tokens.ofText_eq_iff.2 hsplits, ofTokens_eq_ok_iff]
      exact ⟨rfl, run_eq_some_iff_isParse.2 htree⟩
  · intro first h second h'
    obtain ⟨rest, rfl, htaken⟩ := h
    obtain ⟨rest', heq, htaken'⟩ := h'
    obtain ⟨hterminal, hlexeme⟩ := isLongest_unique htaken htaken' heq
    exact Prod.ext hterminal hlexeme
  · exact fun first h second h' => h.unique h'
  · exact fun first h second h' => h.unique h'

/-- The lines of a small source. -/
def exportSource : Text := "% what others see\n-export([area/1, volume/1])."

/-- The form behind the comment is derived. -/
theorem ofText_iff_isParse_exportSource : ∃ tokens, Splits .first exportSource tokens
    ∧ ∃ tree : SyntaxTree, tree.IsParse tokens ∧ tree.forms.length = 1 := by
  have hcount : (ofText exportSource).map List.length = .ok 1 := by cbv
  obtain ⟨nodes, hnodes, hlength⟩ := Result.map_eq_ok_iff.1 hcount
  obtain ⟨tokens, hsplits, tree, hparse, hforms⟩ :=
    (ofText_iff_isParse.1 exportSource nodes).1 hnodes
  exact ⟨tokens, hsplits, tree, hparse, by rw [hforms, hlength]⟩

end Forms

end ModuleDocs.Source
