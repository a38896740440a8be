import Mathlib
import ModuleDocs.Text.Basic

/-!
# Where a text is split

A text is split at the first occurrence of a code point, or where the code points of one kind end.
-/

namespace ModuleDocs.Text

variable {c : CodePoint} {t before after : Text}

/-! ## The first occurrence -/

theorem splitFirst?_eq_none_iff : splitFirst? c t = none ↔ c ∉ t := by
  induction t with
  | nil => simp [splitFirst?]
  | cons d rest ih =>
    rw [splitFirst?, List.mem_cons, not_or]
    by_cases hd : d = c
    · simp [hd]
    · rw [if_neg hd, Option.map_eq_none_iff, ih]
      exact (and_iff_right (Ne.symm hd)).symm

/-- The parts stand around an occurrence before which there is no other. -/
theorem splitFirst?_eq_some (h : splitFirst? c t = some (before, after)) :
    t = before ++ c :: after ∧ c ∉ before := by
  induction t generalizing before with
  | nil => cases h
  | cons d rest ih =>
    rw [splitFirst?] at h
    by_cases hd : d = c
    · rw [if_pos hd] at h
      cases h
      exact ⟨by rw [hd, List.nil_append], List.not_mem_nil⟩
    · rw [if_neg hd] at h
      obtain ⟨⟨front, back⟩, hrest, hparts⟩ := Option.map_eq_some_iff.1 h
      cases hparts
      obtain ⟨hrest, hnot⟩ := ih hrest
      exact ⟨by rw [hrest, List.cons_append], List.not_mem_cons_of_ne_of_not_mem (Ne.symm hd) hnot⟩

/-- What stands before an occurrence without another is the part before the first one. -/
theorem splitFirst?_append_cons (h : c ∉ before) :
    splitFirst? c (before ++ c :: after) = some (before, after) := by
  induction before with
  | nil => rw [List.nil_append, splitFirst?, if_pos rfl]
  | cons d rest ih =>
    obtain ⟨hd, hrest⟩ := not_or.1 (List.mem_cons.not.1 h)
    rw [List.cons_append, splitFirst?, if_neg (Ne.symm hd), ih hrest]
    rfl

/-! ## The end of a word -/

variable {word : CodePoint → Bool} {s u v : Text}

theorem takeWhile_word_append (ht : ∀ c ∈ t, word c = true) (hu : ∀ c ∈ u.head?, word c = false) :
    (t ++ u).takeWhile word = t := by
  rw [List.takeWhile_append_of_pos ht]
  cases u with
  | nil => rw [List.takeWhile_nil, List.append_nil]
  | cons c rest =>
    have hc : ¬ word c = true := by
      rw [hu c rfl]
      decide
    rw [List.takeWhile_cons_of_neg hc, List.append_nil]

/-- A word ends where something else begins. -/
theorem append_inj_of_words (h : s ++ u = t ++ v) (hs : ∀ c ∈ s, word c = true)
    (ht : ∀ c ∈ t, word c = true) (hu : ∀ c ∈ u.head?, word c = false)
    (hv : ∀ c ∈ v.head?, word c = false) : s = t ∧ u = v := by
  have hword := congrArg (List.takeWhile word) h
  rw [takeWhile_word_append hs hu, takeWhile_word_append ht hv] at hword
  subst hword
  exact ⟨rfl, List.append_cancel_left h⟩

end ModuleDocs.Text
