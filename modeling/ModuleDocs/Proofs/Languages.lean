import Mathlib

/-!
# Languages

Membership in the languages that are built from classes of letters, and the longest word of a
language at the start of a list (`IsLongest`).
-/

namespace ModuleDocs

open Computability

variable {α : Type} {L : Language α} {p q : α → Bool} {a : α} {w rest : List α}

/-- The words of one letter out of a class. -/
def oneOf (p : α → Bool) : Language α := {w | ∃ a, p a = true ∧ w = [a]}

/-- The word in front is in the language, and nothing longer is. -/
structure IsLongest (L : Language α) (w rest : List α) : Prop where
  mem : w ∈ L
  longest : ∀ other ∈ L, other <+: w ++ rest → other.length ≤ w.length

theorem mem_oneOf : w ∈ oneOf p ↔ ∃ a, p a = true ∧ w = [a] := Iff.rfl

/-- A list is made of words of one letter each. -/
theorem mem_kstar_of_forall_singleton (h : ∀ a ∈ w, [a] ∈ L) : w ∈ L∗ := by
  refine Language.mem_kstar.2 ⟨w.map fun a => [a], ?_, fun part hpart => ?_⟩
  · exact (List.flatMap_singleton' w).symm.trans List.flatMap_def
  · obtain ⟨a, ha, rfl⟩ := List.mem_map.1 hpart
    exact h a ha

theorem mem_oneOf_kstar : w ∈ (oneOf p)∗ ↔ ∀ a ∈ w, p a = true := by
  constructor
  · intro h
    obtain ⟨parts, rfl, hparts⟩ := Language.mem_kstar.1 h
    intro a ha
    obtain ⟨part, hpart, ha⟩ := List.mem_flatten.1 ha
    obtain ⟨b, hb, rfl⟩ := hparts part hpart
    exact List.mem_singleton.1 ha ▸ hb
  · exact fun h => mem_kstar_of_forall_singleton fun a ha => ⟨a, h a ha, rfl⟩

theorem mem_oneOf_mul : w ∈ oneOf p * L ↔ ∃ a v, p a = true ∧ v ∈ L ∧ w = a :: v := by
  constructor
  · intro h
    obtain ⟨_, ⟨a, ha, rfl⟩, v, hv, rfl⟩ := Language.mem_mul.1 h
    exact ⟨a, v, ha, hv, rfl⟩
  · intro h
    obtain ⟨a, v, ha, hv, rfl⟩ := h
    exact Language.append_mem_mul (a := [a]) ⟨a, ha, rfl⟩ hv

theorem mem_singleton_mul {s : List α} : w ∈ {s} * L ↔ ∃ v ∈ L, w = s ++ v := by
  constructor
  · intro h
    obtain ⟨_, rfl, v, hv, rfl⟩ := Language.mem_mul.1 h
    exact ⟨v, hv, rfl⟩
  · intro h
    obtain ⟨v, hv, rfl⟩ := h
    exact Language.append_mem_mul rfl hv

theorem append_mem_kstar {v : List α} (hw : w ∈ L) (hv : v ∈ L∗) : w ++ v ∈ L∗ :=
  mul_kstar_le_kstar (a := L) (Language.append_mem_mul hw hv)

private theorem takeWhile_prefix_length (h : ∀ b ∈ w, q b = true) {t : List α} (hw : w <+: t) :
    w.length ≤ (t.takeWhile q).length := by
  obtain ⟨rest, rfl⟩ := hw
  rw [List.takeWhile_append_of_pos h, List.length_append]
  exact Nat.le_add_right _ _

/-- A letter of one class and then letters of another take all letters of the latter. -/
theorem isLongest_run_iff : IsLongest (oneOf p * (oneOf q)∗) (a :: w) rest ↔
    p a = true ∧ (w ++ rest).takeWhile q = w := by
  constructor
  · intro h
    obtain ⟨_, _, ha, hw, heq⟩ := mem_oneOf_mul.1 h.mem
    cases heq
    rw [mem_oneOf_kstar] at hw
    refine ⟨ha, ?_⟩
    have hfront : w <+: (w ++ rest).takeWhile q := by
      rw [List.takeWhile_append_of_pos hw]
      exact List.prefix_append _ _
    have hlength := h.longest (a :: (w ++ rest).takeWhile q)
      (mem_oneOf_mul.2 ⟨a, _, ha, mem_oneOf_kstar.2 fun _ hb => List.mem_takeWhile_imp hb, rfl⟩)
      (List.cons_prefix_cons.2 ⟨rfl, List.takeWhile_prefix q⟩)
    exact (hfront.eq_of_length_le (by simpa using hlength)).symm
  · intro h
    obtain ⟨ha, hw⟩ := h
    constructor
    · refine mem_oneOf_mul.2 ⟨a, w, ha, mem_oneOf_kstar.2 fun b hb => ?_, rfl⟩
      exact List.mem_takeWhile_imp (hw ▸ hb)
    · intro other hother hfront
      obtain ⟨b, v, _, hv, rfl⟩ := mem_oneOf_mul.1 hother
      have hfront : v <+: w ++ rest := (List.cons_prefix_cons.1 hfront).2
      have hlength := takeWhile_prefix_length (mem_oneOf_kstar.1 hv) hfront
      rw [hw] at hlength
      simpa using hlength

theorem isLongest_singleton_iff {s : List α} : IsLongest {s} w rest ↔ w = s := by
  constructor
  · exact fun h => h.mem
  · intro h
    subst h
    exact ⟨rfl, fun other hother _ => (congrArg List.length hother).le⟩

end ModuleDocs
