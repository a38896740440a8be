import Mathlib
import ModuleDocs.Term.Encode

/-!
# Terms up to the order of map items

`Term.Reordered a b` says that `a` and `b` are the same term but for the order
in which the items of maps stand, at any depth.  Constructors, keys and the bits
of floating point numbers are the same.  It is an equivalence relation, it is
equality on keys (`Reordered.eq_of_isHashable`), and whether a term can be
stored does not depend on order (`Reordered.isStorableAt_eq`).
-/

namespace ModuleDocs.Term

mutual

/-- The same term but for the order of map items. -/
def Reordered : Term → Term → Prop
  | .list as, .list bs => ReorderedList as bs
  | .tuple as, .tuple bs => ReorderedList as bs
  | .map as, .map bs => ∃ cs : Items, cs.Perm bs ∧ ReorderedItems as cs
  | a, b => a = b

def ReorderedList : List Term → List Term → Prop
  | [], [] => True
  | a :: as, b :: bs => Reordered a b ∧ ReorderedList as bs
  | _, _ => False

/-- Items with the same keys in the same order, and values up to order. -/
def ReorderedItems : Items → Items → Prop
  | [], [] => True
  | (k, v) :: as, (l, w) :: bs => k = l ∧ Reordered v w ∧ ReorderedItems as bs
  | _, _ => False

end

theorem reorderedList_iff {as bs : List Term} :
    ReorderedList as bs ↔ List.Forall₂ Reordered as bs := by
  induction as generalizing bs with
  | nil => cases bs <;> simp [ReorderedList]
  | cons a as ih => cases bs <;> simp [ReorderedList, ih]

/-- Two items with one key, and values up to order. -/
def SameItem (a b : Term × Term) : Prop := a.1 = b.1 ∧ Reordered a.2 b.2

theorem reorderedItems_iff {as bs : Items} :
    ReorderedItems as bs ↔ List.Forall₂ SameItem as bs := by
  induction as generalizing bs with
  | nil => cases bs <;> simp [ReorderedItems]
  | cons a as ih => cases bs <;> simp [ReorderedItems, SameItem, ih, and_assoc]

theorem reordered_map_iff {as bs : Items} :
    Reordered (.map as) (.map bs) ↔ ∃ cs : Items, cs.Perm bs ∧ List.Forall₂ SameItem as cs := by
  simp only [Reordered, reorderedItems_iff]

/-! ## An equivalence relation -/

mutual

theorem Reordered.refl : ∀ t : Term, Reordered t t
  | .list items => ReorderedList.refl items
  | .tuple items => ReorderedList.refl items
  | .map items => ⟨items, List.Perm.refl items, ReorderedItems.refl items⟩
  | .none | .bool _ | .int _ | .float _ | .bytes _ | .text _ | .atom _ | .tagged _ _
  | .funRef _ _ | .foreign _ => rfl

theorem ReorderedList.refl : ∀ items : List Term, ReorderedList items items
  | [] => trivial
  | t :: rest => ⟨Reordered.refl t, ReorderedList.refl rest⟩

theorem ReorderedItems.refl : ∀ items : Items, ReorderedItems items items
  | [] => trivial
  | (_, value) :: rest => ⟨rfl, Reordered.refl value, ReorderedItems.refl rest⟩

end

/-- Maps are the same when their items are, in any order on either side. -/
theorem reordered_map_of_perm {as bs cs ds : Items} (h : List.Forall₂ SameItem as bs)
    (has : cs.Perm as) (hbs : bs.Perm ds) : Reordered (.map cs) (.map ds) := by
  obtain ⟨es, hes, hperm⟩ := List.perm_comp_forall₂ has h
  exact reordered_map_iff.2 ⟨es, hperm.trans hbs, hes⟩

mutual

theorem Reordered.symm : ∀ a b : Term, Reordered a b → Reordered b a
  | .list as, b, h => by
    cases b <;> simp only [Reordered, reduceCtorEq] at h ⊢
    exact ReorderedList.symm as _ h
  | .tuple as, b, h => by
    cases b <;> simp only [Reordered, reduceCtorEq] at h ⊢
    exact ReorderedList.symm as _ h
  | .map as, b, h => by
    cases b <;> simp only [Reordered, reduceCtorEq] at h
    obtain ⟨cs, hperm, hcs⟩ := h
    exact reordered_map_of_perm (reorderedItems_iff.1 (ReorderedItems.symm as cs hcs)) hperm.symm
      (List.Perm.refl as)
  | .none, b, h | .bool _, b, h | .int _, b, h | .float _, b, h | .bytes _, b, h | .text _, b, h
  | .atom _, b, h | .tagged _ _, b, h | .funRef _ _, b, h | .foreign _, b, h => by
    cases b <;> simp_all [Reordered]

theorem ReorderedList.symm : ∀ as bs : List Term, ReorderedList as bs → ReorderedList bs as
  | [], [], _ => trivial
  | [], _ :: _, h => h.elim
  | _ :: _, [], h => h.elim
  | a :: as, b :: bs, h => ⟨Reordered.symm a b h.1, ReorderedList.symm as bs h.2⟩

theorem ReorderedItems.symm : ∀ as bs : Items, ReorderedItems as bs → ReorderedItems bs as
  | [], [], _ => trivial
  | [], _ :: _, h => h.elim
  | _ :: _, [], h => h.elim
  | (_, v) :: as, (_, w) :: bs, h =>
    ⟨h.1.symm, Reordered.symm v w h.2.1, ReorderedItems.symm as bs h.2.2⟩

end

/-! ## Keys -/

mutual

/-- Keys hold no maps, so that there is nothing to reorder. -/
theorem Reordered.eq_of_isHashable : ∀ a b : Term, Reordered a b → a.isHashable = true → a = b
  | .list as, b, h, hkey => by simp [isHashable] at hkey
  | .tuple as, b, h, hkey => by
    cases b <;> simp only [Reordered, reduceCtorEq] at h
    rw [ReorderedList.eq_of_allHashable as _ h hkey]
  | .map as, b, h, hkey => by simp [isHashable] at hkey
  | .none, b, h, _ | .bool _, b, h, _ | .int _, b, h, _ | .float _, b, h, _ | .bytes _, b, h, _
  | .text _, b, h, _ | .atom _, b, h, _ | .tagged _ _, b, h, _ | .funRef _ _, b, h, _
  | .foreign _, b, h, _ => by
    simpa only [Reordered] using h

theorem ReorderedList.eq_of_allHashable :
    ∀ as bs : List Term, ReorderedList as bs → allHashable as = true → as = bs
  | [], [], _, _ => rfl
  | [], _ :: _, h, _ => h.elim
  | _ :: _, [], h, _ => h.elim
  | a :: as, b :: bs, h, hkey => by
    rw [allHashable, Bool.and_eq_true] at hkey
    rw [Reordered.eq_of_isHashable a b h.1 hkey.1,
      ReorderedList.eq_of_allHashable as bs h.2 hkey.2]

end

/-! ## Storability -/

theorem allStorableAt_iff {depth : Nat} {items : List Term} :
    allStorableAt depth items = true ↔ ∀ t ∈ items, isStorableAt depth t = true := by
  induction items with
  | nil => simp [allStorableAt]
  | cons t rest ih => simp [allStorableAt, ih]

theorem itemsStorableAt_iff {depth : Nat} {items : Items} :
    itemsStorableAt depth items = true ↔
      ∀ item ∈ items, isStorableAt depth item.1 = true ∧ isStorableAt depth item.2 = true := by
  induction items with
  | nil => simp [itemsStorableAt]
  | cons item rest ih => simp [itemsStorableAt, ih, and_assoc]

theorem itemsStorableAt_perm {depth : Nat} {as bs : Items} (h : as.Perm bs) :
    itemsStorableAt depth as = itemsStorableAt depth bs := by
  rw [Bool.eq_iff_iff, itemsStorableAt_iff, itemsStorableAt_iff]
  simp only [h.mem_iff]

mutual

/-- The order of map items does not matter for whether a term can be stored. -/
theorem Reordered.isStorableAt_eq : ∀ (a b : Term) (depth : Nat), Reordered a b →
    isStorableAt depth a = isStorableAt depth b
  | .list as, b, depth, h => by
    cases b <;> simp only [Reordered, reduceCtorEq] at h
    simp only [isStorableAt, ReorderedList.allStorableAt_eq as _ (depth + 1) h]
  | .tuple as, b, depth, h => by
    cases b <;> simp only [Reordered, reduceCtorEq] at h
    simp only [isStorableAt, ReorderedList.allStorableAt_eq as _ (depth + 1) h]
  | .map as, b, depth, h => by
    cases b <;> simp only [Reordered, reduceCtorEq] at h
    obtain ⟨cs, hperm, hcs⟩ := h
    simp only [isStorableAt, ReorderedItems.itemsStorableAt_eq as cs (depth + 1) hcs,
      itemsStorableAt_perm hperm]
  | .none, b, depth, h | .bool _, b, depth, h | .int _, b, depth, h | .float _, b, depth, h
  | .bytes _, b, depth, h | .text _, b, depth, h | .atom _, b, depth, h
  | .tagged _ _, b, depth, h | .funRef _ _, b, depth, h | .foreign _, b, depth, h => by
    simp only [Reordered] at h
    rw [h]

theorem ReorderedList.allStorableAt_eq : ∀ (as bs : List Term) (depth : Nat),
    ReorderedList as bs → allStorableAt depth as = allStorableAt depth bs
  | [], [], _, _ => rfl
  | [], _ :: _, _, h => h.elim
  | _ :: _, [], _, h => h.elim
  | a :: as, b :: bs, depth, h => by
    rw [allStorableAt, allStorableAt, Reordered.isStorableAt_eq a b depth h.1,
      ReorderedList.allStorableAt_eq as bs depth h.2]

theorem ReorderedItems.itemsStorableAt_eq : ∀ (as bs : Items) (depth : Nat),
    ReorderedItems as bs → itemsStorableAt depth as = itemsStorableAt depth bs
  | [], [], _, _ => rfl
  | [], _ :: _, _, h => h.elim
  | _ :: _, [], _, h => h.elim
  | (k, v) :: as, (l, w) :: bs, depth, h => by
    rw [itemsStorableAt, itemsStorableAt, h.1, Reordered.isStorableAt_eq v w depth h.2.1,
      ReorderedItems.itemsStorableAt_eq as bs depth h.2.2]

end

end ModuleDocs.Term
