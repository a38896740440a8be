import Mathlib

/-!
# Lists side by side

What `List.Forall₂` says of single members, and what it carries over from one list to
the other.  `eraseDups_concat` says what a list without repetition becomes with one member
more.
-/

namespace ModuleDocs.Lists

variable {α β : Type} {R : α → β → Prop} {as : List α} {bs : List β}

/-- Each member of the first list has a partner in the second. -/
theorem exists_right (h : List.Forall₂ R as bs) : ∀ a ∈ as, ∃ b ∈ bs, R a b := by
  induction h with
  | nil => simp
  | cons hab _ ih =>
    intro a ha
    rcases List.mem_cons.1 ha with rfl | ha
    · exact ⟨_, List.mem_cons_self, hab⟩
    · obtain ⟨b, hb, hR⟩ := ih a ha
      exact ⟨b, List.mem_cons_of_mem _ hb, hR⟩

/-- Each member of the second list has a partner in the first. -/
theorem exists_left (h : List.Forall₂ R as bs) : ∀ b ∈ bs, ∃ a ∈ as, R a b :=
  exists_right h.flip

/-- What holds between members of one list holds between their partners, if the
relation of partners allows it. -/
theorem pairwise_right {P : α → α → Prop} {Q : β → β → Prop} (h : List.Forall₂ R as bs)
    (hP : as.Pairwise P) (hPQ : ∀ a a' b b', R a b → R a' b' → P a a' → Q b b') :
    bs.Pairwise Q := by
  induction h with
  | nil => exact List.Pairwise.nil
  | cons hab hrest ih =>
    refine List.pairwise_cons.2 ⟨?_, ih hP.of_cons⟩
    intro b' hb'
    obtain ⟨a', ha', hab'⟩ := exists_left hrest b' hb'
    exact hPQ _ a' _ b' hab hab' (List.rel_of_pairwise_cons hP ha')

/-- Neighbours in a list are related when all are. -/
theorem forall_zip_drop {P : α → α → Prop} (h : as.Pairwise P) :
    ∀ p ∈ as.zip (as.drop 1), P p.1 p.2 := by
  induction as with
  | nil => simp
  | cons a as ih =>
    cases as with
    | nil => simp
    | cons b as =>
      intro p hp
      rcases List.mem_cons.1 hp with rfl | hp
      · exact List.rel_of_pairwise_cons h List.mem_cons_self
      · exact ih h.of_cons p hp

/-- A list has partners if each of its members has one. -/
theorem exists_forall₂ (h : ∀ a ∈ as, ∃ b, R a b) : ∃ bs, List.Forall₂ R as bs := by
  induction as with
  | nil => exact ⟨[], .nil⟩
  | cons a as ih =>
    obtain ⟨⟨b, hb⟩, hrest⟩ := List.forall_mem_cons.1 h
    obtain ⟨bs, hbs⟩ := ih hrest
    exact ⟨b :: bs, .cons hb hbs⟩

/-- The partners of two lists one after the other. -/
theorem exists_append_right {front back : List β} (h : List.Forall₂ R as (front ++ back)) :
    ∃ first second, as = first ++ second ∧ List.Forall₂ R first front
      ∧ List.Forall₂ R second back :=
  ⟨_, _, (List.take_append_drop front.length as).symm, List.forall₂_take_append _ _ _ h,
    List.forall₂_drop_append _ _ _ h⟩

/-- Each member of a list was made from its partner. -/
theorem forall₂_of_mapM {f : α → Option β} (h : as.mapM f = some bs) :
    List.Forall₂ (fun a b => f a = some b) as bs := by
  induction as generalizing bs with
  | nil =>
    cases h
    exact .nil
  | cons a as ih =>
    simp only [List.mapM_cons, Option.bind_eq_bind, Option.bind_eq_some_iff, Option.pure_def,
      Option.some.injEq] at h
    obtain ⟨b, hb, rest, hrest, rfl⟩ := h
    exact .cons hb (ih hrest)

/-! ## Repetition -/

/-- A member at the end is left out where it is not new. -/
theorem eraseDups_concat [DecidableEq α] (as : List α) (a : α) :
    (as ++ [a]).eraseDups = if a ∈ as then as.eraseDups else as.eraseDups ++ [a] := by
  have hsingle : [a].eraseDups = [a] := rfl
  rw [List.eraseDups_append]
  by_cases h : a ∈ as
  · simp [List.removeAll, h]
  · simp [List.removeAll, h, hsingle]

end ModuleDocs.Lists
