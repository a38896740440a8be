import Mathlib
import ModuleDocs.Proofs.Collector.Errors
import ModuleDocs.Proofs.Term.Fits

/-!
# Which normal metadata is written

Normal metadata was tested value by value, and each value is written one level deeper, inside
the map that it is a value of.  So the test and the writer agree on all values but those that
nest just as deep as the test allows.  `Items.encode_normalize` says so.

`Term.tolerates_failsDeeper` is the general fact: a term that was tested at one depth can be
written at any other, or is too deep there.  Map keys are never too deep.  The writer counts
their depth anew, and the test from the outermost term.
-/

namespace ModuleDocs

open Result

namespace Term

/-! ## Storable terms -/

/-- If the error is about how a term is built, the term nests too deep, and it does so only if it
is written deeper than it was tested. -/
def FailsDeeper (deeper : Prop) (e : EncodeError) : Prop :=
  e.IsStructural → e = .nestingTooDeep ∧ deeper

/-- A value that was tested at a depth, which is not above the one at which it is written unless
it may be written deeper. -/
structure IsTested (deeper : Prop) (inner : Nat) (t : Term) : Prop where
  storable : ∃ depth, t.isStorableAt depth = true ∧ (depth < inner → deeper)
  value : t.IsValue
  numbers : t.HasNoNaNKey

variable {deeper : Prop} {inner depth : Nat} {items : Items}

theorem failsDeeper_encodeText (t : Text) : FailsWith (FailsDeeper deeper) (encodeText t) :=
  encodeText_failsWith fun _ _ => nofun

/-- The items of a map that was tested were tested one level deeper. -/
theorem isTested_of_items (hitems : itemsStorableAt depth items = true)
    (hvalue : EveryPair (OnMaps Items.IsDict) items)
    (hnumbers : EveryPair (OnMaps Items.HasNoNaN) items) (hdeeper : depth < inner → deeper) :
    ∀ item ∈ items, IsTested deeper 0 item.1 ∧ IsTested deeper inner item.2 := by
  intro item hitem
  obtain ⟨hkeyStorable, hvalueStorable⟩ := itemsStorableAt_iff.1 hitems item hitem
  obtain ⟨hkeyMaps, hvalueMaps⟩ := everyPair_iff.1 hvalue item hitem
  obtain ⟨hkeyNumbers, hvalueNumbers⟩ := everyPair_iff.1 hnumbers item hitem
  exact ⟨⟨⟨depth, hkeyStorable, fun h => absurd h (Nat.not_lt_zero _)⟩, hkeyMaps, hkeyNumbers⟩,
    ⟨depth, hvalueStorable, hdeeper⟩, hvalueMaps, hvalueNumbers⟩

/-- What was tested at one depth can be written at any other, or nests too deep there. -/
theorem tolerates_failsDeeper (deeper : Prop) :
    Tolerates (FailsDeeper deeper) (IsTested deeper) where
  stringTooLong := nofun
  blobTooLong := nofun
  countOutOfRange := nofun
  deep := by
    intro inner t ⟨⟨depth, hstorable, hdeeper⟩, _, _⟩ hinner _
    exact ⟨rfl, hdeeper ((depth_le_of_isStorableAt hstorable).trans_lt hinner)⟩
  int := fun _ _ _ _ => nofun
  text := fun _ t _ => failsDeeper_encodeText t
  atom := fun _ t _ => failsDeeper_encodeText t
  tagged := fun _ _ encoding _ => failsDeeper_encodeText encoding
  funRef := by
    intro inner name arity ⟨⟨depth, hstorable, _⟩, _, _⟩
    simp [isStorableAt] at hstorable
  foreign := by
    intro inner name ⟨⟨depth, hstorable, _⟩, _, _⟩
    simp [isStorableAt] at hstorable
  list := by
    intro inner items ⟨⟨depth, hstorable, hdeeper⟩, hvalue, hnumbers⟩ t ht
    exact ⟨⟨depth + 1, allStorableAt_iff.1 (storableAt_list hstorable) t ht,
      fun h => hdeeper (Nat.lt_of_succ_lt_succ h)⟩,
      everyItem_iff.1 hvalue.2 t ht, everyItem_iff.1 hnumbers.2 t ht⟩
  tuple := by
    intro inner items ⟨⟨depth, hstorable, hdeeper⟩, hvalue, hnumbers⟩ t ht
    exact ⟨⟨depth + 1, allStorableAt_iff.1 (storableAt_tuple hstorable) t ht,
      fun h => hdeeper (Nat.lt_of_succ_lt_succ h)⟩,
      everyItem_iff.1 hvalue.2 t ht, everyItem_iff.1 hnumbers.2 t ht⟩
  map := by
    intro inner items ⟨⟨depth, hstorable, hdeeper⟩, hvalue, hnumbers⟩
    exact isTested_of_items (storableAt_map hstorable) hvalue.2 hnumbers.2
      fun h => hdeeper (Nat.lt_of_succ_lt_succ h)
  sort := by
    intro inner items encoded ⟨_, hvalue, hnumbers⟩ hencoded
    obtain ⟨sorted, hsorted, _⟩ := exists_sort_of_encodeItems hvalue.1 hnumbers.1 hencoded
    rw [hsorted]
    exact FailsWith.ok sorted

/-- A map whose items were tested at a depth is written as the outermost term, or one of its
values nests too deep. -/
theorem encode_map_failsDeeper (hmap : (Term.map items).IsValue)
    (hnumbers : (Term.map items).HasNoNaNKey) (hitems : itemsStorableAt depth items = true)
    (hdeeper : depth < 1 → deeper) : FailsWith (FailsDeeper deeper) (encode (.map items)) := by
  have htested := isTested_of_items hitems hmap.2 hnumbers.2 hdeeper
  have hmeets := (tolerates_failsDeeper deeper).admits.encodeItems_meets items 1 htested
  rw [encode, encodeAt, if_neg (Nat.not_lt_zero _)]
  refine EncodedItem.write_failsWith hmeets.failsWith fun encoded hencoded => ⟨⟨?_, ?_⟩, ?_⟩
  · obtain ⟨sorted, hsorted, _⟩ := exists_sort_of_encodeItems hmap.1 hnumbers.1 hencoded
    rw [hsorted]
    exact FailsWith.ok sorted
  · exact fun sorted _ => encodeCount_failsWith (fun h => by cases h) sorted.length
  · exact hmeets.gives encoded hencoded

/-- A string can be stored at any depth. -/
theorem isStorableAt_of_chars? {t : Term} (h : t.chars?.isSome = true) (hdepth : depth ≤ maxDepth) :
    t.isStorableAt depth = true := by
  cases t with
  | text chars | atom chars => simp [isStorableAt, Nat.not_lt.2 hdepth]
  | _ => cases h

/-! ## Normal values -/

theorem IsShaped.isStorable {t : Term} (h : t.IsShaped) : t.isStorable = true := by
  cases h with
  | text _ => rfl
  | textList _ =>
    change allStorableAt 1 _ = true
    refine allStorableAt_iff.2 fun t ht => ?_
    obtain ⟨data, _, rfl⟩ := List.mem_map.1 ht
    rfl

theorem Normalizes.isStorable {schema : Schema} {key value normal : Term}
    (h : Normalizes schema key value normal) : normal.isStorable = true := by
  cases h with
  | shaped _ _ hnormal => exact hnormal.isStorable
  | unshaped _ hstorable => exact hstorable

/-- What stands for a text can be stored at any depth. -/
theorem isStorableAt_of_isText {t : Term} (h : t.isText = true) (hdepth : depth ≤ maxDepth) :
    t.isStorableAt depth = true := by
  cases t with
  | text _ | bytes _ | tagged _ _ => simp [isStorableAt, Nat.not_lt.2 hdepth]
  | _ => cases h

theorem allStorableAt_of_all_isText {items : List Term} (h : items.all isText = true) :
    allStorableAt 1 items = true :=
  allStorableAt_iff.2 fun t ht => isStorableAt_of_isText (List.all_eq_true.1 h t ht) (by decide)

/-- A value that cannot be stored is refused as one of the wrong kind, with the name of its key. -/
theorem normalizeValue_of_not_storable {schema : Schema} (hschema : schema.IsKnown)
    {key value : Term} {name : Text} (hkey : key.chars? = some name)
    (hvalue : value.isStorable = false) (span : Span) :
    ∃ expected, normalizeValue schema key value span =
      .error (.doc (.metadataType name expected value span)) := by
  have hunshaped : normalizeUnshaped key value span =
      .error (.doc (.metadataType name "a chunk term" value span)) := by
    simp [normalizeUnshaped, hvalue, keyError, plain, hkey]
  simp only [normalizeValue, hkey]
  split
  · rename_i shape hshape
    refine ⟨shape.describe, ?_⟩
    unfold normalizeShaped
    split
    · rw [if_neg]
      intro htext
      rw [isStorable, isStorableAt_of_isText htext (Nat.zero_le _)] at hvalue
      cases hvalue
    · split
      · rw [if_neg]
        intro htexts
        simp [isStorable, isStorableAt, allStorableAt_of_all_isText htexts] at hvalue
      · rw [if_neg]
        intro htexts
        simp [isStorable, isStorableAt, allStorableAt_of_all_isText htexts] at hvalue
      · rfl
    · exact absurd rfl (hschema.get? hshape _)
  · exact ⟨_, hunshaped⟩

end Term

/-! ## Normal metadata -/

namespace Items

variable {schema : Schema} {span : Span} {items out : Items}

/-- What holds of the values that normalizing makes and of all parts of metadata, holds of all
parts of the normal metadata. -/
theorem everyPair_normalize {P : Term → Prop} (hP : IsNormal P)
    (hitems : Term.EveryPair P items) (h : Items.normalize schema span items = .ok out) :
    Term.EveryPair P out := by
  refine Term.everyPair_iff.2 fun item' hitem' => ?_
  obtain ⟨item, hitem, hkey, hnormal⟩ := Lists.exists_left (forall₂_of_normalize h) item' hitem'
  obtain ⟨hkeyEvery, hvalueEvery⟩ := Term.everyPair_iff.1 hitems item hitem
  exact ⟨hkey ▸ hkeyEvery, Term.every_normalizeValue hP hvalueEvery hnormal⟩

theorem isNormal_onMaps (D : Items → Prop) : IsNormal (Term.OnMaps D) where
  bytes := fun _ _ _ => trivial
  tuple := fun _ => trivial

theorem isDict_normalize (hitems : items.IsDict)
    (h : Items.normalize schema span items = .ok out) : out.IsDict := by
  refine ⟨fun item' hitem' => ?_, distinct_normalize hitems.distinct h⟩
  obtain ⟨item, hitem, hkey, _⟩ := Lists.exists_left (forall₂_of_normalize h) item' hitem'
  exact hkey ▸ hitems.hashable item hitem

/-- Normal metadata is written, or for its structure it is refused only if one of its values nests
too deep for the map that it is in. -/
theorem encode_of_normalize (hkeys : ∀ item ∈ items, item.1.chars?.isSome = true)
    (hvalue : (Term.map items).IsValue) (hnumbers : (Term.map items).HasNoNaNKey)
    (h : Items.normalize schema span items = .ok out) :
    (∀ item ∈ out, item.2.isStorable = true) ∧
      FailsWith (fun e => e.IsStructural → e = .nestingTooDeep ∧
        ∃ item ∈ out, item.2.isStorableAt 1 = false) (Term.encode (.map out)) := by
  have hsame := forall₂_of_normalize h
  have hstorable : ∀ item ∈ out, item.2.isStorable = true := by
    intro item' hitem'
    obtain ⟨item, _, _, hnormal⟩ := Lists.exists_left hsame item' hitem'
    exact (Term.normalizes_of_normalizeValue hnormal).isStorable
  refine ⟨hstorable, ?_⟩
  have hvalueOut : (Term.map out).IsValue :=
    ⟨isDict_normalize hvalue.1 h, everyPair_normalize (isNormal_onMaps _) hvalue.2 h⟩
  have hnumbersOut : (Term.map out).HasNoNaNKey := by
    refine ⟨fun item' hitem' => ?_, everyPair_normalize (isNormal_onMaps _) hnumbers.2 h⟩
    obtain ⟨item, hitem, hkey, _⟩ := Lists.exists_left hsame item' hitem'
    exact hkey ▸ hnumbers.1 item hitem
  have hkeysOut : ∀ item ∈ out, item.1.chars?.isSome = true := by
    intro item' hitem'
    obtain ⟨item, hitem, hkey, _⟩ := Lists.exists_left hsame item' hitem'
    exact hkey ▸ hkeys item hitem
  by_cases hdeep : ∃ item ∈ out, item.2.isStorableAt 1 = false
  · have hitems : Term.itemsStorableAt 0 out = true := Term.itemsStorableAt_iff.2 fun item hitem =>
      ⟨Term.isStorableAt_of_chars? (hkeysOut item hitem) (Nat.zero_le _), hstorable item hitem⟩
    exact Term.encode_map_failsDeeper hvalueOut hnumbersOut hitems fun _ => hdeep
  · have hitems : Term.itemsStorableAt 1 out = true := by
      refine Term.itemsStorableAt_iff.2 fun item hitem =>
        ⟨Term.isStorableAt_of_chars? (hkeysOut item hitem) (by decide), ?_⟩
      by_contra hvalue
      exact hdeep ⟨item, hitem, by simpa using hvalue⟩
    exact Term.encode_map_failsDeeper hvalueOut hnumbersOut hitems fun h =>
      absurd h (lt_irrefl 1)

/-- Metadata whose keys are strings and no part of whose nested keys is NaN: a value that cannot be
stored is refused with the name of its key.  What is normal has no such value.  It is written, or
for its structure it is refused only if a value nests too deep for the map that it is in. -/
theorem encode_normalize (hkeys : ∀ item ∈ items, item.1.chars?.isSome = true)
    (hvalue : (Term.map items).IsValue) (hnumbers : (Term.map items).HasNoNaNKey) :
    (schema.IsKnown → ∀ item ∈ items, item.2.isStorable = false →
      ∃ name expected, item.1.chars? = some name ∧ Term.normalizeValue schema item.1 item.2 span =
        .error (.doc (.metadataType name expected item.2 span))) ∧
    ∀ out, Items.normalize schema span items = .ok out →
      (∀ item ∈ out, item.2.isStorable = true) ∧
      FailsWith (fun e => e.IsStructural → e = .nestingTooDeep ∧
        ∃ item ∈ out, item.2.isStorableAt 1 = false) (Term.encode (.map out)) := by
  refine ⟨fun hschema item hitem hstorable => ?_,
    fun out h => encode_of_normalize hkeys hvalue hnumbers h⟩
  obtain ⟨name, hname⟩ := Option.isSome_iff_exists.1 (hkeys item hitem)
  obtain ⟨expected, hexpected⟩ :=
    Term.normalizeValue_of_not_storable hschema hname hstorable span
  exact ⟨name, expected, hname, hexpected⟩

/-- One atom inside so many tuples. -/
def nestedTuple : Nat → Term
  | 0 => .atom "a"
  | n + 1 => .tuple [nestedTuple n]

def nestedItems (n : Nat) : Items := [(.text "k", nestedTuple n)]

/-- A value in as many tuples as the test allows is normal.  Inside its map it is one too deep,
and is refused.  In one tuple more it is not normal. -/
theorem encode_normalize_nestedItems :
    Items.normalize Schema.default Span.unknown (nestedItems 64) = .ok (nestedItems 64) ∧
      Term.encode (.map (nestedItems 64)) = .error .nestingTooDeep ∧
      (∃ item ∈ nestedItems 64, item.2.isStorableAt 1 = false) ∧
      ∃ name expected, (Term.text "k").chars? = some name ∧
        Term.normalizeValue Schema.default (.text "k") (nestedTuple 65) Span.unknown =
          .error (.doc (.metadataType name expected (nestedTuple 65) Span.unknown)) := by
  have hnormal : Items.normalize Schema.default Span.unknown (nestedItems 64) =
      .ok (nestedItems 64) := by decide +kernel
  have hencode : Term.encode (.map (nestedItems 64)) = .error .nestingTooDeep := by decide +kernel
  refine ⟨hnormal, hencode, ?_, ?_⟩
  · obtain ⟨_, hfails⟩ := (encode_normalize (by simp [nestedItems, Term.chars?])
      (by decide +kernel) (by decide +kernel)).2 (nestedItems 64) hnormal
    exact (hfails .nestingTooDeep hencode .nestingTooDeep).2
  · have hkeys : ∀ item ∈ nestedItems 65, item.1.chars?.isSome = true := by
      simp [nestedItems, Term.chars?]
    exact (encode_normalize hkeys (by decide +kernel) (by decide +kernel)).1
      Schema.isKnown_default (.text "k", nestedTuple 65) List.mem_cons_self (by decide +kernel)

end Items

end ModuleDocs
