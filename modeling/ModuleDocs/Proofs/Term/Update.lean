import Mathlib
import ModuleDocs.Proofs.Term.RoundTrip

/-!
# Updating maps

A map keeps its items in the order in which their keys first came.  To write an item is one
assignment to its key (`Items.get?_set`), and it leaves the order of the others as it is.  A map is
updated by writing the items of another one:

* a key has its value in the other map if it has one there, and else the one that it had
  (`Items.get?_update`);
* the keys are those of both, and of equal ones the first is kept (`Items.map_fst_update`);
* updates can be put together in any way (`Items.update_assoc`).

Equal keys need not look alike, and what is not a number is equal to no key.
-/

namespace ModuleDocs

namespace Term

variable {a b : Term}

/-- Keys that are equal have a form, and it is the same. -/
theorem keyEq_iff : a.keyEq b = true ↔ ∃ form, a.keyForm? = some form ∧ b.keyForm? = some form := by
  unfold keyEq
  cases a.keyForm? <;> cases b.keyForm? <;> simp [eq_comm]

/-- Equal keys are equal to the same keys. -/
theorem keyEq_congr (h : a.keyEq b = true) (key : Term) : a.keyEq key = b.keyEq key := by
  obtain ⟨form, ha, hb⟩ := keyEq_iff.1 h
  unfold keyEq
  rw [ha, hb]

theorem keyEq_congr_right (h : a.keyEq b = true) (key : Term) : key.keyEq a = key.keyEq b := by
  rw [keyEq_comm key a, keyEq_comm key b, keyEq_congr h]

end Term

namespace Items

variable {items mid more rest : Items} {key k k' v v' : Term}

/-! ## Writing one item -/

theorem set_cons (first : Term × Term) (rest : Items) : set k v (first :: rest) =
    if first.1.keyEq k then (first.1, v) :: rest else first :: set k v rest := rfl

theorem get?_cons (first : Term × Term) (rest : Items) : get? key (first :: rest) =
    if first.1.keyEq key then some first.2 else get? key rest := by
  unfold get?
  rw [List.find?_cons]
  split <;> simp_all

/-- A key that is written has its new value, and all others have the one that they had. -/
theorem get?_set (key k v : Term) (items : Items) :
    get? key (set k v items) = if k.keyEq key then some v else get? key items := by
  induction items with
  | nil => exact get?_cons (k, v) []
  | cons first rest ih =>
    rw [set_cons]
    by_cases hfirst : first.1.keyEq k = true
    · rw [if_pos hfirst, get?_cons, get?_cons, Term.keyEq_congr hfirst]
      split <;> rfl
    · rw [if_neg hfirst, get?_cons, get?_cons, ih]
      by_cases hkey : first.1.keyEq key = true
      · -- The key of the first item is not equal to the one that is written.
        have hother : ¬ k.keyEq key = true := fun h =>
          hfirst (by rwa [Term.keyEq_congr_right h])
        rw [if_pos hkey, if_pos hkey, if_neg hother]
      · rw [if_neg hkey, if_neg hkey]

/-- Of two items with equal keys that are written the last one counts, in the place of the
first. -/
theorem set_set (h : k.keyEq k' = true) : set k' v' (set k v items) = set k v' items := by
  induction items with
  | nil =>
    rw [set, set_cons, if_pos h]
    rfl
  | cons first rest ih =>
    have hsame : first.1.keyEq k = first.1.keyEq k' := Term.keyEq_congr_right h _
    rw [set_cons, set_cons]
    by_cases hfirst : first.1.keyEq k = true
    · rw [if_pos hfirst, if_pos hfirst, set_cons, if_pos (hsame ▸ hfirst)]
    · rw [if_neg hfirst, if_neg hfirst, set_cons, if_neg (hsame ▸ hfirst), ih]

/-- An item for a key that is there can be written before or after one for another key. -/
theorem set_comm (hmem : (get? k items).isSome = true) (hdiffer : k.keyEq k' = false) :
    set k v (set k' v' items) = set k' v' (set k v items) := by
  induction items with
  | nil => cases hmem
  | cons first rest ih =>
    rw [set_cons first, set_cons first]
    by_cases hfirst : first.1.keyEq k = true
    · have hother : ¬ first.1.keyEq k' = true := by
        rw [Term.keyEq_congr hfirst, hdiffer]
        exact Bool.false_ne_true
      rw [if_pos hfirst, if_neg hother, set_cons, if_pos hfirst, set_cons, if_neg hother]
    · rw [get?_cons, if_neg hfirst] at hmem
      rw [if_neg hfirst]
      by_cases hother : first.1.keyEq k' = true
      · rw [if_pos hother, set_cons, if_neg hfirst, set_cons, if_pos hother]
      · rw [if_neg hother, set_cons, if_neg hfirst, set_cons, if_neg hother, ih hmem]

/-- A key that is there is still there when an item is written. -/
theorem isSome_get?_set (hmem : (get? k items).isSome = true) (k' v' : Term) :
    (get? k (set k' v' items)).isSome = true := by
  rw [get?_set]
  split
  · rfl
  · exact hmem

theorem isSome_get?_set_self (h : k.keyEq k' = true) (v : Term) (items : Items) :
    (get? k' (set k v items)).isSome = true := by
  rw [get?_set, if_pos h]
  rfl

/-! ## Writing the items of a map -/

theorem keysDiffer_cons {first : Term × Term} : KeysDiffer ((first :: rest).map (·.1)) ↔
    (∀ item ∈ rest, first.1.keyEq item.1 = false) ∧ KeysDiffer (rest.map (·.1)) := by
  rw [KeysDiffer, List.map_cons, List.pairwise_cons, List.forall_mem_map]
  rfl

/-- A key has its value in the other map if it has one there, and else the one that it had. -/
theorem get?_update (hmore : KeysDiffer (more.map (·.1))) (key : Term) (items : Items) :
    get? key (update items more) = (get? key more).or (get? key items) := by
  induction more generalizing items with
  | nil => rfl
  | cons first rest ih =>
    obtain ⟨hother, hrest⟩ := keysDiffer_cons.1 hmore
    rw [update_cons, ih hrest, get?_set, get?_cons]
    by_cases hkey : first.1.keyEq key = true
    · have hnone : get? key rest = none := by
        rw [get?, Option.map_eq_none_iff, List.find?_eq_none]
        intro item hitem h
        have := hother item hitem
        rw [Term.keyEq_congr_right h, hkey] at this
        cases this
      rw [if_pos hkey, if_pos hkey, hnone]
      rfl
    · rw [if_neg hkey, if_neg hkey]

/-- An item is written in the place of an equal key, or else behind all others. -/
theorem map_fst_set_eq (k v : Term) (items : Items) : (set k v items).map (·.1) =
    if (items.map (·.1)).any k.keyEq then items.map (·.1) else items.map (·.1) ++ [k] := by
  induction items with
  | nil => rfl
  | cons first rest ih =>
    rw [set_cons, List.map_cons, List.any_cons, Term.keyEq_comm k]
    by_cases hfirst : first.1.keyEq k = true
    · simp [hfirst]
    · rw [if_neg hfirst, List.map_cons, ih, Bool.eq_false_iff.2 hfirst, Bool.false_or]
      split <;> rfl

/-- The keys that are written come behind those of the map, except where an equal one came
before. -/
theorem map_fst_update (items more : Items) : (update items more).map (·.1) =
    List.eraseDupsBy.loop Term.keyEq (more.map (·.1)) (items.map (·.1)).reverse := by
  induction more generalizing items with
  | nil => exact (List.reverse_reverse _).symm
  | cons first rest ih =>
    rw [update_cons, ih, map_fst_set_eq, List.map_cons, List.eraseDupsBy.loop, List.any_reverse]
    cases (items.map (·.1)).any first.1.keyEq
    · rw [if_neg Bool.false_ne_true, List.reverse_append]
      rfl
    · rfl

/-- The keys of a map that is made by writing items are the keys of these, of equal ones the
first. -/
theorem map_fst_update_nil (more : Items) :
    (update [] more).map (·.1) = (more.map (·.1)).eraseDupsBy Term.keyEq := map_fst_update [] more

/-! ## Updates one after the other -/

/-- An item for a key that is there can be written before the items of another map, if none of them
has an equal key, or after them. -/
theorem set_update (hmem : (get? k items).isSome = true)
    (hmore : ∀ item ∈ more, k.keyEq item.1 = false) :
    set k v (update items more) = update (set k v items) more := by
  induction more generalizing items with
  | nil => rfl
  | cons first rest ih =>
    rw [update_cons, update_cons, ih (isSome_get?_set hmem _ _) fun item hitem =>
      hmore item (List.mem_cons_of_mem _ hitem), set_comm hmem (hmore first List.mem_cons_self)]

/-- To write an item into a map and then update with the map is to update first and then write. -/
theorem update_set (hmid : KeysDiffer (mid.map (·.1))) :
    update items (set k v mid) = set k v (update items mid) := by
  induction mid generalizing items with
  | nil => rfl
  | cons first rest ih =>
    obtain ⟨hother, hrest⟩ := keysDiffer_cons.1 hmid
    rw [set_cons]
    by_cases hfirst : first.1.keyEq k = true
    · have hdiffer : ∀ item ∈ rest, k.keyEq item.1 = false := fun item hitem => by
        rw [← Term.keyEq_congr hfirst]
        exact hother item hitem
      rw [if_pos hfirst, update_cons, update_cons,
        set_update (isSome_get?_set_self hfirst _ _) hdiffer, set_set hfirst]
    · rw [if_neg hfirst]
      exact ih hrest

/-- Updates with two maps one after the other are one with the map that they make together. -/
theorem update_assoc (items : Items) (hmid : KeysDiffer (mid.map (·.1))) (more : Items) :
    update items (update mid more) = update (update items mid) more := by
  induction more generalizing mid with
  | nil => rfl
  | cons first rest ih => rw [update_cons, update_cons, ih (keysDiffer_set hmid), update_set hmid]

end Items

end ModuleDocs
