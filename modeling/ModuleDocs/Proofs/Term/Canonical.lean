import Mathlib
import ModuleDocs.Proofs.Term.RoundTrip

/-!
# Equal maps have equal bytes

The order in which the items of a map were put in does not show in its bytes, at any depth
of a term, and does not decide whether it has any (`agree_encodeAt`).

Items are written in the order of the bytes of their keys.  That is one order, because no
two keys have the same bytes: these are read back as the key (`eq_of_encode_eq`), and keys
of one map differ.  So whichever of two orders items stand in, what is sorted is the same
list (`EncodedItem.exists_sort`), and no two values are ever compared.
-/

namespace ModuleDocs.Term

open Result

/-! ## Keys and their bytes -/

mutual

/-- A key that is written is one that can be stored: it holds no map, so that the two ways to
count depth are one. -/
theorem isStorableAt_of_encodeAt : ∀ (t : Term) (depth : Nat) (data : Bytes),
    t.isHashable = true → encodeAt depth t = .ok data → isStorableAt depth t = true
  | .tuple items, depth, data, hkey, h => by
    rw [isStorableAt, if_neg (depth_le_of_encodeAt h)]
    cases encodes_of_encodeAt h with
    | tuple _ hback => exact allStorableAt_of_encodeAll items (depth + 1) _ hkey hback
  | .list items, depth, data, hkey, h => by simp [isHashable] at hkey
  | .map items, depth, data, hkey, h => by simp [isHashable] at hkey
  | .funRef name arity, depth, data, _, h | .foreign name, depth, data, _, h => by
    cases encodes_of_encodeAt h
  | .none, depth, data, _, h | .bool _, depth, data, _, h | .int _, depth, data, _, h
  | .float _, depth, data, _, h | .bytes _, depth, data, _, h | .text _, depth, data, _, h
  | .atom _, depth, data, _, h | .tagged _ _, depth, data, _, h => by
    simp [isStorableAt, depth_le_of_encodeAt h]

theorem allStorableAt_of_encodeAll : ∀ (items : List Term) (depth : Nat) (data : Bytes),
    allHashable items = true → encodeAll depth items = .ok data → allStorableAt depth items = true
  | [], _, _, _, _ => rfl
  | t :: rest, depth, data, hkey, h => by
    obtain ⟨front, back, hfront, hback, _⟩ := encodeAll_cons_eq_ok_iff.1 h
    rw [allHashable, Bool.and_eq_true] at hkey
    rw [allStorableAt, isStorableAt_of_encodeAt t depth front hkey.1 hfront,
      allStorableAt_of_encodeAll rest depth back hkey.2 hback]
    rfl

end

mutual

/-- Keys hold no maps, so that whatever is said of maps holds of all in them. -/
theorem every_onMaps_of_isHashable (D : Items → Prop) :
    ∀ t : Term, t.isHashable = true → t.Every (OnMaps D)
  | .tuple items, h => ⟨trivial, everyItem_onMaps_of_allHashable D items h⟩
  | .list items, h => by simp [isHashable] at h
  | .map items, h => by simp [isHashable] at h
  | .none, _ | .bool _, _ | .int _, _ | .float _, _ | .bytes _, _ | .text _, _ | .atom _, _
  | .tagged _ _, _ | .funRef _ _, _ | .foreign _, _ => trivial

theorem everyItem_onMaps_of_allHashable (D : Items → Prop) :
    ∀ items : List Term, allHashable items = true → EveryItem (OnMaps D) items
  | [], _ => trivial
  | t :: rest, h => by
    rw [allHashable, Bool.and_eq_true] at h
    exact ⟨every_onMaps_of_isHashable D t h.1, everyItem_onMaps_of_allHashable D rest h.2⟩

end

/-- Keys with the same bytes are the same, since these are read back as either. -/
theorem eq_of_encode_eq {a b : Term} (ha : a.isHashable = true) (hb : b.isHashable = true)
    {data : Bytes} (hadata : encodeAt 0 a = .ok data) (hbdata : encodeAt 0 b = .ok data) :
    a = b := by
  have hread : ∀ t : Term, t.isHashable = true → encodeAt 0 t = .ok data →
      Decoder.Reads (decodeWithin (maxDepth + 1)) data t := by
    intro t ht hdata
    obtain ⟨t', hsame, hreads⟩ := exists_reads_of_encodeAt t (maxDepth + 1) 0 0 data rfl
      (isStorableAt_of_encodeAt t 0 data ht hdata) (every_onMaps_of_isHashable _ t ht)
      (every_onMaps_of_isHashable _ t ht) hdata
    rw [Reordered.eq_of_isHashable t t' hsame ht]
    exact hreads
  exact Decoder.Reads.unique (hread a ha hadata) (hread b hb hbdata)

/-! ## Items in the order of their bytes -/

namespace EncodedItem

/-- Two items with the bytes of one key, and values that have the same bytes or none. -/
structure Agrees (a b : EncodedItem) : Prop where
  key : a.key = b.key
  written : Agree a.written b.written

/-- Items with different bytes for their keys, in the order of these. -/
def Ascends (items : List EncodedItem) : Prop := items.Pairwise fun a b => a.key < b.key

/-- Sorting items with different bytes for their keys makes their order strict. -/
theorem exists_sort {items : List EncodedItem} (h : items.Pairwise fun a b => a.key ≠ b.key) :
    ∃ sorted, sort items = .ok sorted ∧ sorted.Perm items ∧ Ascends sorted := by
  have hperm := List.mergeSort_perm items fun a b => decide (a.key ≤ b.key)
  have hle : (items.mergeSort fun a b => decide (a.key ≤ b.key)).Pairwise
      fun a b => decide (a.key ≤ b.key) = true := by
    apply List.pairwise_mergeSort
    · intro a b c hab hbc
      simp only [decide_eq_true_eq] at hab hbc ⊢
      exact List.le_trans hab hbc
    · intro a b
      simp only [Bool.or_eq_true, decide_eq_true_eq]
      exact List.le_total a.key b.key
  have hne := (hperm.pairwise_iff fun {a b} (hab : a.key ≠ b.key) => hab.symm).2 h
  refine ⟨_, sort_of_pairwise h, hperm, (hle.and hne).imp ?_⟩
  intro a b hab
  exact Std.lt_of_le_of_ne (of_decide_eq_true hab.1) hab.2

/-- Items have only one such order. -/
theorem eq_of_perm_of_ascends {as bs : List EncodedItem} (h : as.Perm bs) (has : Ascends as)
    (hbs : Ascends bs) : as = bs := by
  apply h.eq_of_pairwise _ has hbs
  intro a b _ _ hab hba
  exact absurd hba (List.lt_asymm hab)

/-- The same items in two orders are the same when they are sorted. -/
theorem exists_sort_of_agrees {as bs cs : List EncodedItem}
    (hdiffer : as.Pairwise fun a b => a.key ≠ b.key) (hagrees : List.Forall₂ Agrees as cs)
    (hperm : cs.Perm bs) :
    ∃ sortedAs sortedBs, sort as = .ok sortedAs ∧ sort bs = .ok sortedBs ∧
      List.Forall₂ Agrees sortedAs sortedBs := by
  have hdiffer' : bs.Pairwise fun a b => a.key ≠ b.key := by
    apply (hperm.pairwise_iff fun {a b} (hab : a.key ≠ b.key) => hab.symm).1
    apply Lists.pairwise_right hagrees hdiffer
    intro a a' b b' hab hab' hne
    rwa [← hab.key, ← hab'.key]
  obtain ⟨sortedAs, hsortAs, hpermAs, hascends⟩ := exists_sort hdiffer
  obtain ⟨sortedBs, hsortBs, hpermBs, hascends'⟩ := exists_sort hdiffer'
  obtain ⟨partners, hpartners, hpermPartners⟩ := List.perm_comp_forall₂ hpermAs hagrees
  have hsorted : Ascends partners := by
    apply Lists.pairwise_right hpartners hascends
    intro a a' b b' hab hab' hlt
    rwa [← hab.key, ← hab'.key]
  have hsame : partners = sortedBs := by
    apply eq_of_perm_of_ascends _ hsorted hascends'
    exact hpermPartners.trans (hperm.trans hpermBs.symm)
  exact ⟨sortedAs, sortedBs, hsortAs, hsortBs, hsame ▸ hpartners⟩

theorem agree_join {as bs : List EncodedItem} (h : List.Forall₂ Agrees as bs) :
    Agree (join as) (join bs) := by
  induction h with
  | nil => exact Agree.refl _
  | cons hfirst _ ih =>
    rw [join, join, hfirst.key]
    exact hfirst.written.bind fun value => ih.bind fun back => Agree.refl _

end EncodedItem

/-- What a map item is while its map is written. -/
structure IsEncodedAs (depth : Nat) (item : Term × Term) (e : EncodedItem) : Prop where
  key : encodeAt 0 item.1 = .ok e.key
  written : e.written = encodeAt depth item.2
  value : e.value = item.2

/-- Items have bytes when all their keys do. -/
theorem encodeItems_eq_ok_iff {depth : Nat} {items : Items} {encoded : List EncodedItem} :
    encodeItems depth items = .ok encoded ↔ List.Forall₂ (IsEncodedAs depth) items encoded := by
  induction items generalizing encoded with
  | nil =>
    rw [List.forall₂_nil_left_iff, encodeItems, Except.ok.injEq]
    exact eq_comm
  | cons item rest ih =>
    rw [encodeItems_cons_eq_ok_iff, List.forall₂_cons_left_iff]
    constructor
    · intro h
      obtain ⟨front, back, hfront, hback, rfl⟩ := h
      exact ⟨_, back, ⟨hfront, rfl, rfl⟩, ih.1 hback, rfl⟩
    · intro h
      obtain ⟨e, back, hfirst, hback, rfl⟩ := h
      refine ⟨e.key, back, hfirst.key, ih.2 hback, ?_⟩
      obtain ⟨key, value, written⟩ := e
      obtain ⟨_, rfl, rfl⟩ := hfirst
      rfl

/-- Items with one key, whose values have the same bytes or none. -/
structure AgreesAt (depth : Nat) (a b : Term × Term) : Prop where
  key : a.1 = b.1
  value : Agree (encodeAt depth a.2) (encodeAt depth b.2)

/-- The keys of a map have different bytes. -/
theorem pairwise_key_of_isEncodedAs {depth : Nat} {items : Items} {encoded : List EncodedItem}
    (h : List.Forall₂ (IsEncodedAs depth) items encoded) (hdict : items.IsDict)
    (hnumbers : items.HasNoNaN) : encoded.Pairwise fun a b => a.key ≠ b.key := by
  have hboth : List.Forall₂ (fun item e => item ∈ items ∧ IsEncodedAs depth item e) items
      encoded := (List.forall₂_and_left items encoded).2 ⟨fun _ hitem => hitem, h⟩
  apply Lists.pairwise_right hboth hdict.distinct
  intro a a' e e' ha ha' hne hsame
  have hkey : encodeAt 0 a'.1 = .ok e.key := by
    rw [hsame]
    exact ha'.2.key
  have hhash := hdict.hashable a ha.1
  have heq := eq_of_encode_eq hhash (hdict.hashable a' ha'.1) ha.2.key hkey
  have hstorable := isStorableAt_of_encodeAt a.1 0 e.key hhash ha.2.key
  have hself := keyEq_self (isSome_keyForm? a.1 0 hstorable (hnumbers a ha.1))
  rw [← heq, hself] at hne
  cases hne

/-- Items that agree have bytes that agree. -/
theorem exists_isEncodedAs_of_agreesAt {depth : Nat} {as cs : Items} {encoded : List EncodedItem}
    (hagrees : List.Forall₂ (AgreesAt depth) as cs)
    (hencoded : List.Forall₂ (IsEncodedAs depth) as encoded) :
    ∃ partners, List.Forall₂ (IsEncodedAs depth) cs partners ∧
      List.Forall₂ EncodedItem.Agrees encoded partners := by
  induction hagrees generalizing encoded with
  | nil =>
    cases hencoded
    exact ⟨[], .nil, .nil⟩
  | @cons a c as cs hfirst _ ih =>
    obtain ⟨e, rest, he, hrest, rfl⟩ := List.forall₂_cons_left_iff.1 hencoded
    obtain ⟨partners, hpartners, hagree⟩ := ih hrest
    have hkey : encodeAt 0 c.1 = .ok e.key := hfirst.key ▸ he.key
    have hwritten : Agree e.written (encodeAt depth c.2) := he.written ▸ hfirst.value
    exact ⟨⟨e.key, c.2, encodeAt depth c.2⟩ :: partners, .cons ⟨hkey, rfl, rfl⟩ hpartners,
      .cons ⟨rfl, hwritten⟩ hagree⟩

/-- A map that is written has the bytes of a map with the same items in another order. -/
theorem encodeAt_map_of_agrees {depth : Nat} {as bs cs : Items} {data : Bytes}
    (hdict : as.IsDict) (hnumbers : as.HasNoNaN)
    (hagrees : List.Forall₂ (AgreesAt (depth + 1)) as cs) (hperm : cs.Perm bs)
    (h : encodeAt depth (.map as) = .ok data) : encodeAt depth (.map bs) = .ok data := by
  obtain ⟨hdepth, hmap⟩ := encodeAt_eq_ok_iff.1 h
  cases hmap with
  | map hencodedAs hsortAs hcount hback =>
    have hencoded := encodeItems_eq_ok_iff.1 hencodedAs
    obtain ⟨partners, hpartners, hagree⟩ := exists_isEncodedAs_of_agreesAt hagrees hencoded
    obtain ⟨encodedBs, hencodedBs, hpermBs⟩ := List.perm_comp_forall₂ hperm.symm hpartners
    obtain ⟨sorted, sortedBs, hsort, hsortBs, hsorted⟩ := EncodedItem.exists_sort_of_agrees
      (pairwise_key_of_isEncodedAs hencoded hdict hnumbers) hagree hpermBs.symm
    cases hsort.symm.trans hsortAs
    rw [hsorted.length_eq] at hcount
    have hjoin := (EncodedItem.agree_join hsorted _).1 hback
    exact encodeAt_eq_ok_iff.2
      ⟨hdepth, .map (encodeItems_eq_ok_iff.2 hencodedBs) hsortBs hcount hjoin⟩

/-- Items that agree have the same keys. -/
theorem map_fst_of_agreesAt {depth : Nat} {as bs : Items}
    (h : List.Forall₂ (AgreesAt depth) as bs) : as.map (·.1) = bs.map (·.1) := by
  induction h with
  | nil => rfl
  | cons hfirst _ ih => rw [List.map_cons, List.map_cons, hfirst.key, ih]

/-- What is said of the keys of a map does not depend on the order of its items. -/
theorem isDict_of_perm {as bs : Items} (h : (bs.map (·.1)).Perm (as.map (·.1)))
    (hdict : as.IsDict) : bs.IsDict where
  hashable := by
    intro item hitem
    obtain ⟨item', hitem', hkey⟩ := List.mem_map.1 (h.mem_iff.1 (List.mem_map_of_mem hitem))
    rw [← hkey]
    exact hdict.hashable item' hitem'
  distinct := by
    apply Items.keysDiffer_map_fst.1
    have hdiffer := Items.keysDiffer_map_fst.2 hdict.distinct
    exact (h.pairwise_iff fun {a b} hab => by rwa [keyEq_comm]).2 hdiffer

theorem hasNoNaN_of_perm {as bs : Items} (h : (bs.map (·.1)).Perm (as.map (·.1)))
    (hnumbers : as.HasNoNaN) : bs.HasNoNaN := by
  intro item hitem
  obtain ⟨item', hitem', hkey⟩ := List.mem_map.1 (h.mem_iff.1 (List.mem_map_of_mem hitem))
  rw [← hkey]
  exact hnumbers item' hitem'

/-- Maps with the same items in two orders have the same bytes, or none. -/
theorem agree_encodeAt_map {depth : Nat} {as bs cs : Items} (hdict : as.IsDict)
    (hnumbers : as.HasNoNaN) (hagrees : List.Forall₂ (AgreesAt (depth + 1)) as cs)
    (hperm : cs.Perm bs) : Agree (encodeAt depth (.map as)) (encodeAt depth (.map bs)) := by
  have hback : List.Forall₂ (AgreesAt (depth + 1)) cs as :=
    hagrees.flip.imp fun c a h => ⟨h.key.symm, h.value.symm⟩
  obtain ⟨ds, hds, hpermDs⟩ := List.perm_comp_forall₂ hperm.symm hback
  have hkeys : (bs.map (·.1)).Perm (as.map (·.1)) := by
    rw [map_fst_of_agreesAt hagrees]
    exact (hperm.map _).symm
  apply Agree.of_imp
  · intro data hdata
    exact encodeAt_map_of_agrees hdict hnumbers hagrees hperm hdata
  · intro data hdata
    exact encodeAt_map_of_agrees (isDict_of_perm hkeys hdict) (hasNoNaN_of_perm hkeys hnumbers)
      hds hpermDs hdata

/-! ## Terms -/

mutual

/-- Terms that differ in the order of map items have the same bytes, or none. -/
theorem agree_encodeAt : ∀ (a b : Term) (depth : Nat), Reordered a b → a.IsValue →
    a.HasNoNaNKey → Agree (encodeAt depth a) (encodeAt depth b)
  | .list as, b, depth, h, hvalue, hnumbers => by
    cases b <;> simp only [Reordered, reduceCtorEq] at h
    rename_i bs
    have hlength := (reorderedList_iff.1 h).length_eq
    have hall := agree_encodeAll as bs (depth + 1) h hvalue.2 hnumbers.2
    rw [encodeAt, encodeAt, hlength]
    split
    · exact Agree.refl _
    · exact (Agree.refl _).bind fun count => hall.bind fun back => Agree.refl _
  | .tuple as, b, depth, h, hvalue, hnumbers => by
    cases b <;> simp only [Reordered, reduceCtorEq] at h
    rename_i bs
    have hlength := (reorderedList_iff.1 h).length_eq
    have hall := agree_encodeAll as bs (depth + 1) h hvalue.2 hnumbers.2
    rw [encodeAt, encodeAt, hlength]
    split
    · exact Agree.refl _
    · exact (Agree.refl _).bind fun count => hall.bind fun back => Agree.refl _
  | .map as, b, depth, h, hvalue, hnumbers => by
    cases b <;> simp only [Reordered, reduceCtorEq] at h
    obtain ⟨cs, hperm, hcs⟩ := h
    exact agree_encodeAt_map hvalue.1 hnumbers.1
      (forall_agreesAt as cs (depth + 1) hcs hvalue.2 hnumbers.2) hperm
  | .none, b, depth, h, _, _ | .bool _, b, depth, h, _, _ | .int _, b, depth, h, _, _
  | .float _, b, depth, h, _, _ | .bytes _, b, depth, h, _, _ | .text _, b, depth, h, _, _
  | .atom _, b, depth, h, _, _ | .tagged _ _, b, depth, h, _, _
  | .funRef _ _, b, depth, h, _, _ | .foreign _, b, depth, h, _, _ => by
    simp only [Reordered] at h
    rw [h]
    exact Agree.refl _

theorem agree_encodeAll : ∀ (as bs : List Term) (depth : Nat), ReorderedList as bs →
    EveryItem (OnMaps Items.IsDict) as → EveryItem (OnMaps Items.HasNoNaN) as →
    Agree (encodeAll depth as) (encodeAll depth bs)
  | [], [], _, _, _, _ => Agree.refl _
  | [], _ :: _, _, h, _, _ => h.elim
  | _ :: _, [], _, h, _, _ => h.elim
  | a :: as, b :: bs, depth, h, hvalue, hnumbers => by
    have hfirst := agree_encodeAt a b depth h.1 hvalue.1 hnumbers.1
    have hrest := agree_encodeAll as bs depth h.2 hvalue.2 hnumbers.2
    rw [encodeAll, encodeAll]
    exact hfirst.bind fun front => hrest.bind fun back => Agree.refl _

theorem forall_agreesAt : ∀ (as bs : Items) (depth : Nat), ReorderedItems as bs →
    EveryPair (OnMaps Items.IsDict) as → EveryPair (OnMaps Items.HasNoNaN) as →
    List.Forall₂ (AgreesAt depth) as bs
  | [], [], _, _, _, _ => .nil
  | [], _ :: _, _, h, _, _ => h.elim
  | _ :: _, [], _, h, _, _ => h.elim
  | (_, v) :: as, (_, w) :: bs, depth, h, hvalue, hnumbers =>
    .cons ⟨h.1, agree_encodeAt v w depth h.2.1 hvalue.2.1 hnumbers.2.1⟩
      (forall_agreesAt as bs depth h.2.2 hvalue.2.2 hnumbers.2.2)

end

end ModuleDocs.Term
