import Mathlib
import ModuleDocs.Term.Encode

/-!
# Parts of terms

`Term.Every P t` says that the term `t` and all terms inside it, keys included,
have the property `P`.  The values of the program are `Term.IsValue`: their maps
have keys that can be keys, and no two of them are equal.  `Term.HasNoNaNKey`
says that what is not a number occurs in no key.

`Items.set`, `Items.update` and `Items.ofPairs` are described by what they do to
keys and values, so that their bodies need not be opened again: they make
dictionaries (`isDict_ofPairs`), and leave one as it is
(`ofPairs_of_pairwise`).
-/

namespace ModuleDocs

namespace Term

mutual

/-- The term and every term inside it have the property. -/
def Every (P : Term → Prop) : Term → Prop
  | .list items => P (.list items) ∧ EveryItem P items
  | .tuple items => P (.tuple items) ∧ EveryItem P items
  | .map items => P (.map items) ∧ EveryPair P items
  | t => P t

def EveryItem (P : Term → Prop) : List Term → Prop
  | [] => True
  | t :: rest => Every P t ∧ EveryItem P rest

def EveryPair (P : Term → Prop) : Items → Prop
  | [] => True
  | (key, value) :: rest => Every P key ∧ Every P value ∧ EveryPair P rest

end

variable {P Q : Term → Prop}

theorem everyItem_iff {items : List Term} : EveryItem P items ↔ ∀ t ∈ items, Every P t := by
  induction items with
  | nil => simp [EveryItem]
  | cons t rest ih => simp [EveryItem, ih]

theorem everyPair_iff {items : Items} :
    EveryPair P items ↔ ∀ item ∈ items, Every P item.1 ∧ Every P item.2 := by
  induction items with
  | nil => simp [EveryPair]
  | cons item rest ih => simp [EveryPair, ih, and_assoc]

theorem Every.self {t : Term} (h : Every P t) : P t := by
  cases t <;> simp only [Every] at h
  case list | tuple | map => exact h.1
  all_goals exact h

mutual

theorem Every.imp (hPQ : ∀ t, P t → Q t) : ∀ t : Term, Every P t → Every Q t
  | .list items, h => ⟨hPQ _ h.1, EveryItem.imp hPQ items h.2⟩
  | .tuple items, h => ⟨hPQ _ h.1, EveryItem.imp hPQ items h.2⟩
  | .map items, h => ⟨hPQ _ h.1, EveryPair.imp hPQ items h.2⟩
  | .none, h | .bool _, h | .int _, h | .float _, h | .bytes _, h | .text _, h | .atom _, h
  | .tagged _ _, h | .funRef _ _, h | .foreign _, h => hPQ _ h

theorem EveryItem.imp (hPQ : ∀ t, P t → Q t) :
    ∀ items : List Term, EveryItem P items → EveryItem Q items
  | [], _ => trivial
  | t :: rest, h => ⟨Every.imp hPQ t h.1, EveryItem.imp hPQ rest h.2⟩

theorem EveryPair.imp (hPQ : ∀ t, P t → Q t) :
    ∀ items : Items, EveryPair P items → EveryPair Q items
  | [], _ => trivial
  | (key, value) :: rest, h =>
    ⟨Every.imp hPQ key h.1, Every.imp hPQ value h.2.1, EveryPair.imp hPQ rest h.2.2⟩

end

mutual

/-- The parts of a part are parts. -/
theorem Every.every : ∀ t : Term, Every P t → Every (Every P) t
  | .list items, h => ⟨h, EveryItem.every items h.2⟩
  | .tuple items, h => ⟨h, EveryItem.every items h.2⟩
  | .map items, h => ⟨h, EveryPair.every items h.2⟩
  | .none, h | .bool _, h | .int _, h | .float _, h | .bytes _, h | .text _, h | .atom _, h
  | .tagged _ _, h | .funRef _ _, h | .foreign _, h => h

theorem EveryItem.every : ∀ items : List Term, EveryItem P items → EveryItem (Every P) items
  | [], _ => trivial
  | t :: rest, h => ⟨Every.every t h.1, EveryItem.every rest h.2⟩

theorem EveryPair.every : ∀ items : Items, EveryPair P items → EveryPair (Every P) items
  | [], _ => trivial
  | (key, value) :: rest, h =>
    ⟨Every.every key h.1, Every.every value h.2.1, EveryPair.every rest h.2.2⟩

end

mutual

def decideEvery [DecidablePred P] : ∀ t : Term, Decidable (Every P t)
  | .list items => @instDecidableAnd _ _ inferInstance (decideEveryItem items)
  | .tuple items => @instDecidableAnd _ _ inferInstance (decideEveryItem items)
  | .map items => @instDecidableAnd _ _ inferInstance (decideEveryPair items)
  | .none => inferInstanceAs (Decidable (P _))
  | .bool _ => inferInstanceAs (Decidable (P _))
  | .int _ => inferInstanceAs (Decidable (P _))
  | .float _ => inferInstanceAs (Decidable (P _))
  | .bytes _ => inferInstanceAs (Decidable (P _))
  | .text _ => inferInstanceAs (Decidable (P _))
  | .atom _ => inferInstanceAs (Decidable (P _))
  | .tagged _ _ => inferInstanceAs (Decidable (P _))
  | .funRef _ _ => inferInstanceAs (Decidable (P _))
  | .foreign _ => inferInstanceAs (Decidable (P _))

def decideEveryItem [DecidablePred P] : ∀ items : List Term, Decidable (EveryItem P items)
  | [] => .isTrue trivial
  | t :: rest => @instDecidableAnd _ _ (decideEvery t) (decideEveryItem rest)

def decideEveryPair [DecidablePred P] : ∀ items : Items, Decidable (EveryPair P items)
  | [] => .isTrue trivial
  | (key, value) :: rest =>
    @instDecidableAnd _ _ (decideEvery key)
      (@instDecidableAnd _ _ (decideEvery value) (decideEveryPair rest))

end

instance [DecidablePred P] (t : Term) : Decidable (Every P t) := decideEvery t

/-- A property of maps, as one of terms. -/
def OnMaps (D : Items → Prop) : Term → Prop
  | .map items => D items
  | _ => True

instance (D : Items → Prop) [DecidablePred D] : DecidablePred (OnMaps D)
  | .map items => inferInstanceAs (Decidable (D items))
  | .list _ | .tuple _ | .none | .bool _ | .int _ | .float _ | .bytes _ | .text _ | .atom _
  | .tagged _ _ | .funRef _ _ | .foreign _ => .isTrue trivial

/-- What is not a number. -/
def IsNaN : Term → Prop
  | .float bits => Binary64.isNaN bits = true
  | _ => False

instance : DecidablePred IsNaN
  | .float bits => inferInstanceAs (Decidable (Binary64.isNaN bits = true))
  | .list _ | .tuple _ | .map _ | .none | .bool _ | .int _ | .bytes _ | .text _ | .atom _
  | .tagged _ _ | .funRef _ _ | .foreign _ => .isFalse id

end Term

namespace Items

/-- The items of a map: all keys can be keys, and no two of them are equal. -/
structure IsDict (items : Items) : Prop where
  hashable : ∀ item ∈ items, item.1.isHashable = true
  distinct : items.Pairwise fun a b => a.1.keyEq b.1 = false

instance (items : Items) : Decidable (IsDict items) :=
  decidable_of_iff ((∀ item ∈ items, item.1.isHashable = true) ∧
    items.Pairwise fun a b => a.1.keyEq b.1 = false)
    ⟨fun h => ⟨h.1, h.2⟩, fun h => ⟨h.hashable, h.distinct⟩⟩

/-- What is not a number is no key and no part of one. -/
def HasNoNaN (items : Items) : Prop := ∀ item ∈ items, item.1.Every fun t => ¬ t.IsNaN

instance (items : Items) : Decidable (HasNoNaN items) :=
  inferInstanceAs (Decidable (∀ item ∈ items, item.1.Every fun t => ¬ t.IsNaN))

end Items

namespace Term

/-- A value of the program: all maps in it are dictionaries. -/
def IsValue (t : Term) : Prop := t.Every (OnMaps Items.IsDict)

/-- No map in the term has a key with a part that is not a number. -/
def HasNoNaNKey (t : Term) : Prop := t.Every (OnMaps Items.HasNoNaN)

instance (t : Term) : Decidable t.IsValue :=
  inferInstanceAs (Decidable (t.Every (OnMaps Items.IsDict)))

instance (t : Term) : Decidable t.HasNoNaNKey :=
  inferInstanceAs (Decidable (t.Every (OnMaps Items.HasNoNaN)))

/-- Where nothing is NaN, no key is. -/
theorem hasNoNaNKey_of_every {t : Term} (h : t.Every fun t => ¬ t.IsNaN) : t.HasNoNaNKey := by
  refine Every.imp (fun part hpart => ?_) t (Every.every t h)
  cases part with
  | map items => exact fun item hitem => (everyPair_iff.1 hpart.2 item hitem).1
  | _ => trivial

/-! ## Keys -/

mutual

/-- A key without NaN is equal to itself. -/
theorem isSome_keyForm? : ∀ (t : Term) (depth : Nat), t.isStorableAt depth = true →
    t.Every (fun t => ¬ t.IsNaN) → t.keyForm?.isSome = true
  | .tuple items, depth, hstorable, h => by
    have hitems : allStorableAt (depth + 1) items = true := by
      rw [isStorableAt] at hstorable
      split at hstorable
      · cases hstorable
      · exact hstorable
    have := isSome_keyForms? items (depth + 1) hitems h.2
    simpa [keyForm?] using this
  | .float bits, depth, hstorable, h => by
    have hnumber : Binary64.isNaN bits = false := by
      simpa [Every, IsNaN] using h
    simp only [keyForm?, hnumber, Bool.false_eq_true, if_false]
    split <;> rfl
  | .foreign name, depth, hstorable, h => by simp [isStorableAt] at hstorable
  | .funRef name arity, depth, hstorable, h => by simp [isStorableAt] at hstorable
  | .none, _, _, _ | .bool _, _, _, _ | .int _, _, _, _ | .bytes _, _, _, _ | .text _, _, _, _
  | .atom _, _, _, _ | .tagged _ _, _, _, _ | .list _, _, _, _ | .map _, _, _, _ => rfl

theorem isSome_keyForms? : ∀ (items : List Term) (depth : Nat), allStorableAt depth items = true →
    EveryItem (fun t => ¬ t.IsNaN) items → (keyForms? items).isSome = true
  | [], _, _, _ => rfl
  | t :: rest, depth, hstorable, h => by
    rw [allStorableAt, Bool.and_eq_true] at hstorable
    obtain ⟨form, hform⟩ := Option.isSome_iff_exists.1 (isSome_keyForm? t depth hstorable.1 h.1)
    obtain ⟨forms, hforms⟩ :=
      Option.isSome_iff_exists.1 (isSome_keyForms? rest depth hstorable.2 h.2)
    simp [keyForms?, hform, hforms]

end

/-- A key that has a form is equal to itself. -/
theorem keyEq_self {t : Term} (h : t.keyForm?.isSome = true) : t.keyEq t = true := by
  obtain ⟨form, hform⟩ := Option.isSome_iff_exists.1 h
  simp [keyEq, hform]

end Term

/-! ## Writing items -/

namespace Items

variable {K V : Term → Prop} {items more : Items} {key value : Term}

/-- A property of keys and one of values are kept when an item is written. -/
theorem forall_set (hitems : ∀ item ∈ items, K item.1 ∧ V item.2) (hkey : K key) (hvalue : V value) :
    ∀ item ∈ set key value items, K item.1 ∧ V item.2 := by
  induction items with
  | nil => simpa [set] using ⟨hkey, hvalue⟩
  | cons first rest ih =>
    have hfirst := hitems first List.mem_cons_self
    have hrest := fun item hitem => hitems item (List.mem_cons_of_mem first hitem)
    rw [set]
    split
    · intro item hitem
      rcases List.mem_cons.1 hitem with rfl | hitem
      · exact ⟨hfirst.1, hvalue⟩
      · exact hrest item hitem
    · intro item hitem
      rcases List.mem_cons.1 hitem with rfl | hitem
      · exact hfirst
      · exact ih hrest item hitem

theorem forall_update (hitems : ∀ item ∈ items, K item.1 ∧ V item.2)
    (hmore : ∀ item ∈ more, K item.1 ∧ V item.2) :
    ∀ item ∈ update items more, K item.1 ∧ V item.2 := by
  induction more generalizing items with
  | nil => exact hitems
  | cons item more ih =>
    have hitem := hmore item List.mem_cons_self
    rw [update_cons]
    exact ih (forall_set hitems hitem.1 hitem.2) fun i hi => hmore i (List.mem_cons_of_mem _ hi)

theorem forall_ofPairs (hitems : ∀ item ∈ items, K item.1 ∧ V item.2) :
    ∀ item ∈ ofPairs items, K item.1 ∧ V item.2 := by
  rw [ofPairs_eq_update]
  exact forall_update (by simp) hitems

/-- Writing an item leaves the keys as they are, or puts a new one behind them. -/
theorem map_fst_set (key value : Term) (items : Items) :
    (set key value items).map (·.1) = items.map (·.1) ∨
      (set key value items).map (·.1) = items.map (·.1) ++ [key]
        ∧ ∀ item ∈ items, item.1.keyEq key = false := by
  induction items with
  | nil => exact Or.inr ⟨rfl, by simp⟩
  | cons first rest ih =>
    rw [set]
    split
    · exact Or.inl rfl
    · rename_i hne
      rcases ih with hsame | ⟨hnew, hother⟩
      · exact Or.inl (by simp [hsame])
      · refine Or.inr ⟨by simp [hnew], ?_⟩
        intro item hitem
        rcases List.mem_cons.1 hitem with rfl | hitem
        · simpa using hne
        · exact hother item hitem

/-- No two keys are equal. -/
def KeysDiffer (keys : List Term) : Prop := keys.Pairwise fun a b => a.keyEq b = false

theorem keysDiffer_map_fst : KeysDiffer (items.map (·.1)) ↔
    items.Pairwise fun a b => a.1.keyEq b.1 = false := by
  rw [KeysDiffer, List.pairwise_map]

theorem keysDiffer_set (h : KeysDiffer (items.map (·.1))) :
    KeysDiffer ((set key value items).map (·.1)) := by
  rcases map_fst_set key value items with hsame | ⟨hnew, hother⟩
  · rwa [hsame]
  · rw [hnew]
    refine List.pairwise_append.2 ⟨h, List.pairwise_singleton _ _, ?_⟩
    intro a ha b hb
    obtain ⟨item, hitem, rfl⟩ := List.mem_map.1 ha
    rw [List.mem_singleton.1 hb]
    exact hother item hitem

theorem keysDiffer_update (h : KeysDiffer (items.map (·.1))) :
    KeysDiffer ((update items more).map (·.1)) := by
  induction more generalizing items with
  | nil => exact h
  | cons item more ih =>
    rw [update_cons]
    exact ih (keysDiffer_set h)

/-- What is written item by item is a dictionary, if its keys can be keys. -/
theorem isDict_ofPairs (h : ∀ item ∈ items, item.1.isHashable = true) : IsDict (ofPairs items) where
  hashable := fun item hitem =>
    (forall_ofPairs (K := fun t => t.isHashable = true) (V := fun _ => True)
      (fun i hi => ⟨h i hi, trivial⟩) item hitem).1
  distinct := by
    rw [ofPairs_eq_update]
    exact keysDiffer_map_fst.1 (keysDiffer_update List.Pairwise.nil)

/-- A key that no item has is put behind all of them. -/
theorem set_of_forall_keyEq (h : ∀ item ∈ items, item.1.keyEq key = false) :
    set key value items = items ++ [(key, value)] := by
  induction items with
  | nil => rfl
  | cons first rest ih =>
    rw [set, h first List.mem_cons_self, if_neg (by decide),
      ih fun item hitem => h item (List.mem_cons_of_mem _ hitem)]
    rfl

theorem update_of_pairwise
    (h : (items ++ more).Pairwise fun a b => a.1.keyEq b.1 = false) :
    update items more = items ++ more := by
  induction more generalizing items with
  | nil => simp [update]
  | cons item more ih =>
    have hnew : ∀ i ∈ items, i.1.keyEq item.1 = false := fun i hi =>
      (List.pairwise_append.1 h).2.2 i hi item List.mem_cons_self
    rw [update_cons, set_of_forall_keyEq hnew, ih (by simpa using h)]
    simp

/-- A dictionary that is written again item by item is the same. -/
theorem ofPairs_of_pairwise (h : items.Pairwise fun a b => a.1.keyEq b.1 = false) :
    ofPairs items = items := by
  rw [ofPairs_eq_update, update_of_pairwise (by simpa using h)]
  rfl

end Items

end ModuleDocs
