import Mathlib
import ModuleDocs.Proofs.Term.Canonical
import ModuleDocs.Proofs.Term.Errors

/-!
# Which terms are written

A part of a term is written if there is a tag for it (`Term.HasTag`) and its sizes fit the numbers
that are written for them (`Term.Fits`), unless it stands too deep.

`Term.nesting` counts how deep a term nests, map keys included.  The test of what can be stored is
a bound on it (`Term.isStorableAt_iff`).  The writer counts map keys anew, so that of terms whose
sizes fit it refuses less: `Term.isStorable_iff_encode` says that what can be stored is what is
written and nests no deeper than allowed.
-/

namespace ModuleDocs

open Result

namespace Term

/-! ## Nesting -/

/-- There is a tag for terms of this kind. -/
def HasTag : Term → Prop
  | .funRef .. | .foreign _ => False
  | _ => True

mutual

/-- The number of terms that stand around the innermost part of a term. -/
def nesting : Term → Nat
  | .list items => nestingAll items
  | .tuple items => nestingAll items
  | .map items => nestingItems items
  | _ => 0

/-- The nesting of what holds the terms. -/
def nestingAll : List Term → Nat
  | [] => 0
  | t :: rest => max (nesting t + 1) (nestingAll rest)

def nestingItems : Items → Nat
  | [] => 0
  | (key, value) :: rest => max (max (nesting key) (nesting value) + 1) (nestingItems rest)

end

theorem storable_within_iff {depth : Nat} {inside : Bool} :
    (if maxDepth < depth then false else inside) = true ↔ depth ≤ maxDepth ∧ inside = true := by
  split
  · exact ⟨nofun, fun h => absurd h.1 (by omega)⟩
  · exact ⟨fun h => ⟨by omega, h⟩, fun h => h.2⟩

mutual

/-- A term can be stored where it does not nest too deep and has a tag for each part. -/
theorem isStorableAt_iff : ∀ (t : Term) (depth : Nat),
    t.isStorableAt depth = true ↔ depth + t.nesting ≤ maxDepth ∧ t.Every HasTag
  | .list items, depth => by
    rw [isStorableAt, storable_within_iff, allStorableAt_succ_iff items depth]
    exact and_congr_right fun _ => ⟨fun h => ⟨trivial, h⟩, fun h => h.2⟩
  | .tuple items, depth => by
    rw [isStorableAt, storable_within_iff, allStorableAt_succ_iff items depth]
    exact and_congr_right fun _ => ⟨fun h => ⟨trivial, h⟩, fun h => h.2⟩
  | .map items, depth => by
    rw [isStorableAt, storable_within_iff, itemsStorableAt_succ_iff items depth]
    exact and_congr_right fun _ => ⟨fun h => ⟨trivial, h⟩, fun h => h.2⟩
  | .funRef name arity, depth | .foreign name, depth => by simp [isStorableAt, Every, HasTag]
  | .none, depth | .bool _, depth | .int _, depth | .float _, depth | .bytes _, depth
  | .text _, depth | .atom _, depth | .tagged _ _, depth => by
    simp [isStorableAt, nesting, Every, HasTag]

theorem allStorableAt_succ_iff : ∀ (items : List Term) (depth : Nat),
    depth ≤ maxDepth ∧ allStorableAt (depth + 1) items = true ↔
      depth + nestingAll items ≤ maxDepth ∧ EveryItem HasTag items
  | [], depth => by simp [allStorableAt, nestingAll, EveryItem]
  | t :: rest, depth => by
    have hfirst := isStorableAt_iff t (depth + 1)
    have hrest := allStorableAt_succ_iff rest depth
    rw [allStorableAt, Bool.and_eq_true, nestingAll, EveryItem, hfirst]
    constructor
    · rintro ⟨hdepth, ⟨hnesting, ht⟩, hall⟩
      obtain ⟨hothers, hall⟩ := hrest.1 ⟨hdepth, hall⟩
      exact ⟨by omega, ht, hall⟩
    · rintro ⟨hnesting, ht, hall⟩
      obtain ⟨hdepth, hall⟩ := hrest.2 ⟨by omega, hall⟩
      exact ⟨hdepth, ⟨by omega, ht⟩, hall⟩

theorem itemsStorableAt_succ_iff : ∀ (items : Items) (depth : Nat),
    depth ≤ maxDepth ∧ itemsStorableAt (depth + 1) items = true ↔
      depth + nestingItems items ≤ maxDepth ∧ EveryPair HasTag items
  | [], depth => by simp [itemsStorableAt, nestingItems, EveryPair]
  | (key, value) :: rest, depth => by
    have hkey := isStorableAt_iff key (depth + 1)
    have hvalue := isStorableAt_iff value (depth + 1)
    have hrest := itemsStorableAt_succ_iff rest depth
    rw [itemsStorableAt, Bool.and_eq_true, Bool.and_eq_true, nestingItems, EveryPair, hkey, hvalue]
    constructor
    · rintro ⟨hdepth, ⟨⟨hnesting, hk⟩, hnesting', hv⟩, hall⟩
      obtain ⟨hothers, hall⟩ := hrest.1 ⟨hdepth, hall⟩
      exact ⟨by omega, hk, hv, hall⟩
    · rintro ⟨hnesting, hk, hv, hall⟩
      obtain ⟨hdepth, hall⟩ := hrest.2 ⟨by omega, hall⟩
      exact ⟨hdepth, ⟨⟨by omega, hk⟩, by omega, hv⟩, hall⟩

end

/-! ## Sizes -/

/-- The sizes of a part, those of parts inside it apart, fit the numbers that are written for
them, and its text can be written. -/
def Fits : Term → Prop
  | .int i => signedWidth i ≤ 0xFFFF
  | .bytes data => data.length ≤ 0xFFFFFFFF
  | .text t | .atom t => Utf8.isEncodable t = true ∧ (Utf8.encodeAll t).length ≤ 0xFFFFFFFF
  | .tagged data encoding => (Utf8.isEncodable encoding = true ∧
      (Utf8.encodeAll encoding).length ≤ 0xFFFF) ∧ data.length ≤ 0xFFFFFFFF
  | .list items | .tuple items => items.length ≤ 0xFFFFFFFF
  | .map items => items.length ≤ 0xFFFFFFFF
  | _ => True

instance : DecidablePred Fits
  | .int i => inferInstanceAs (Decidable (signedWidth i ≤ 0xFFFF))
  | .bytes data => inferInstanceAs (Decidable (data.length ≤ 0xFFFFFFFF))
  | .text t | .atom t => inferInstanceAs (Decidable
      (Utf8.isEncodable t = true ∧ (Utf8.encodeAll t).length ≤ 0xFFFFFFFF))
  | .tagged data encoding => inferInstanceAs (Decidable ((Utf8.isEncodable encoding = true ∧
      (Utf8.encodeAll encoding).length ≤ 0xFFFF) ∧ data.length ≤ 0xFFFFFFFF))
  | .list items | .tuple items => inferInstanceAs (Decidable (items.length ≤ 0xFFFFFFFF))
  | .map items => inferInstanceAs (Decidable (items.length ≤ 0xFFFFFFFF))
  | .none | .bool _ | .float _ | .funRef _ _ | .foreign _ => .isTrue trivial

end Term

/-! ## Fields -/

theorem encodeBlob_of_le {data : Bytes} (h : data.length ≤ 0xFFFFFFFF) :
    encodeBlob data = .ok (littleEndian 4 data.length ++ data) := if_neg (not_lt.2 h)

theorem encodeCount_of_le {n : Nat} (h : n ≤ 0xFFFFFFFF) :
    encodeCount n = .ok (littleEndian 4 n) := if_neg (not_lt.2 h)

theorem encodeShortString_of_le {t : Text} (ht : Utf8.isEncodable t = true)
    (h : (Utf8.encodeAll t).length ≤ 0xFFFF) : encodeShortString t =
      .ok (littleEndian 2 (Utf8.encodeAll t).length ++ Utf8.encodeAll t) := by
  rw [encodeShortString, Decoder.encodeText_eq_ok_iff.2 (Utf8.encode_of_isEncodable ht)]
  exact if_neg (not_lt.2 h)

namespace Term

variable {inner depth : Nat} {items : Items} {t : Term} {deep long : Prop}

/-- Keys that differ have different bytes, so that no two values are compared. -/
theorem exists_sort_of_encodeItems {encoded : List EncodedItem} (hdict : items.IsDict)
    (hnumbers : items.HasNoNaN) (h : encodeItems depth items = .ok encoded) :
    ∃ sorted, EncodedItem.sort encoded = .ok sorted ∧ sorted.Perm encoded ∧
      sorted.length = items.length := by
  have hencoded := encodeItems_eq_ok_iff.1 h
  obtain ⟨sorted, hsorted, hperm, _⟩ :=
    EncodedItem.exists_sort (pairwise_key_of_isEncodedAs hencoded hdict hnumbers)
  exact ⟨sorted, hsorted, hperm, hperm.length_eq.trans hencoded.length_eq.symm⟩

/-! ## Errors -/

/-- The error is about how the term is built, or about the length of a number. -/
def FailsOnly (deep long : Prop) (e : EncodeError) : Prop :=
  e.IsStructural ∧ deep ∨ e = .lengthOutOfRange ∧ long

/-- A value whose sizes fit but for the lengths of numbers, if these may be long, and that can be
stored where it is written or deeper, unless it may be built in any way. -/
structure IsSized (deep long : Prop) (inner : Nat) (t : Term) : Prop where
  value : t.IsValue
  numbers : t.HasNoNaNKey
  fits : t.Every fun part => part.Fits ∨ long ∧ ∃ i, part = .int i
  storable : deep ∨ ∃ depth, inner ≤ depth ∧ t.isStorableAt depth = true

/-- What is no number fits. -/
theorem IsSized.fits_self (h : t.IsSized deep long inner) (ht : ∀ i, t ≠ .int i) : t.Fits :=
  h.fits.self.resolve_right fun ⟨_, i, hi⟩ => ht i hi

/-- The members of a list or a tuple that is sized. -/
theorem isSized_of_items {items : List Term} (hvalue : EveryItem (OnMaps Items.IsDict) items)
    (hnumbers : EveryItem (OnMaps Items.HasNoNaN) items)
    (hfits : EveryItem (fun part => part.Fits ∨ long ∧ ∃ i, part = .int i) items)
    (hstorable : deep ∨ ∃ depth, inner ≤ depth ∧ allStorableAt (depth + 1) items = true) :
    ∀ t ∈ items, IsSized deep long (inner + 1) t := by
  intro t ht
  refine ⟨everyItem_iff.1 hvalue t ht, everyItem_iff.1 hnumbers t ht, everyItem_iff.1 hfits t ht,
    hstorable.imp_right ?_⟩
  rintro ⟨depth, hle, hitems⟩
  exact ⟨depth + 1, Nat.succ_le_succ hle, allStorableAt_iff.1 hitems t ht⟩

/-- A text that fits is written. -/
theorem text_failsWith_of_fits {P : EncodeError → Prop} {text : Text} (h : (Term.text text).Fits) :
    FailsWith P (encodeText text) ∧
      ∀ data, encodeText text = .ok data → FailsWith P (encodeBlob data) := by
  obtain ⟨htext, hlength⟩ := h
  rw [Decoder.encodeText_eq_ok_iff.2 (Utf8.encode_of_isEncodable htext)]
  refine ⟨FailsWith.ok _, fun data hdata => ?_⟩
  cases hdata
  rw [encodeBlob_of_le hlength]
  exact FailsWith.ok _

/-- What is sized is refused for the reasons that are allowed for. -/
theorem admits_failsOnly (deep long : Prop) :
    Admits (FailsOnly deep long) (IsSized deep long) where
  deep := by
    intro inner t h hinner
    refine Or.inl ⟨.nestingTooDeep, h.storable.resolve_right ?_⟩
    rintro ⟨depth, hle, hstorable⟩
    exact absurd (depth_le_of_isStorableAt hstorable) (by omega)
  int := by
    intro inner i h hwidth
    obtain hfits | ⟨hlong, _⟩ := h.fits.self
    · exact absurd hfits (not_le.2 hwidth)
    · exact Or.inr ⟨rfl, hlong⟩
  bytes := by
    intro inner data h
    rw [encodeBlob_of_le (h.fits_self nofun)]
    exact FailsWith.ok _
  text := fun _ _ h => text_failsWith_of_fits (h.fits_self nofun)
  atom := fun _ _ h => text_failsWith_of_fits (h.fits_self nofun)
  tagged := by
    intro inner data encoding h
    obtain ⟨⟨ht, hname⟩, hlength⟩ := h.fits_self nofun
    rw [encodeShortString_of_le ht hname, encodeBlob_of_le hlength]
    exact ⟨FailsWith.ok _, FailsWith.ok _⟩
  funRef := by
    intro inner name arity h
    refine Or.inl ⟨.notATerm _, h.storable.resolve_right ?_⟩
    rintro ⟨depth, _, hstorable⟩
    simp [isStorableAt] at hstorable
  foreign := by
    intro inner name h
    refine Or.inl ⟨.notATerm _, h.storable.resolve_right ?_⟩
    rintro ⟨depth, _, hstorable⟩
    simp [isStorableAt] at hstorable
  list := by
    intro inner items h
    rw [encodeCount_of_le (h.fits_self nofun)]
    exact ⟨FailsWith.ok _, isSized_of_items h.value.2 h.numbers.2 h.fits.2
      (h.storable.imp_right fun ⟨depth, hle, hlist⟩ => ⟨depth, hle, storableAt_list hlist⟩)⟩
  tuple := by
    intro inner items h
    rw [encodeCount_of_le (h.fits_self nofun)]
    exact ⟨FailsWith.ok _, isSized_of_items h.value.2 h.numbers.2 h.fits.2
      (h.storable.imp_right fun ⟨depth, hle, htuple⟩ => ⟨depth, hle, storableAt_tuple htuple⟩)⟩
  map := by
    intro inner items h item hitem
    obtain ⟨hkeyValue, hvalueValue⟩ := everyPair_iff.1 h.value.2 item hitem
    obtain ⟨hkeyNumbers, hvalueNumbers⟩ := everyPair_iff.1 h.numbers.2 item hitem
    obtain ⟨hkeyFits, hvalueFits⟩ := everyPair_iff.1 h.fits.2 item hitem
    have hstorable : deep ∨ ∃ depth, inner ≤ depth ∧ item.1.isStorableAt (depth + 1) = true ∧
        item.2.isStorableAt (depth + 1) = true := h.storable.imp_right fun ⟨depth, hle, hitems⟩ =>
      ⟨depth, hle, itemsStorableAt_iff.1 (storableAt_map hitems) item hitem⟩
    refine ⟨⟨hkeyValue, hkeyNumbers, hkeyFits, hstorable.imp_right ?_⟩,
      ⟨hvalueValue, hvalueNumbers, hvalueFits, hstorable.imp_right ?_⟩⟩
    · rintro ⟨depth, _, hkey, _⟩
      exact ⟨depth + 1, Nat.zero_le _, hkey⟩
    · rintro ⟨depth, hle, _, hvalue⟩
      exact ⟨depth + 1, Nat.succ_le_succ hle, hvalue⟩
  sort := by
    intro inner items encoded h hencoded
    obtain ⟨sorted, hsorted, _, hlength⟩ :=
      exists_sort_of_encodeItems h.value.1 h.numbers.1 hencoded
    rw [hsorted]
    refine ⟨FailsWith.ok _, fun sorted' hsame => ?_⟩
    cases hsame
    rw [hlength, encodeCount_of_le (h.fits_self nofun)]
    exact FailsWith.ok _

/-! ## What is written -/

/-- The term has bytes at some depth. -/
def IsWritten (t : Term) : Prop := ∃ depth data, encodeAt depth t = .ok data

theorem exists_written_of_join {items : List EncodedItem} {data : Bytes}
    (h : EncodedItem.join items = .ok data) : ∀ item ∈ items, ∃ out, item.written = .ok out := by
  induction items generalizing data with
  | nil => simp
  | cons item rest ih =>
    obtain ⟨out, others, hout, hothers, _⟩ := EncodedItem.join_cons_eq_ok_iff.1 h
    exact List.forall_mem_cons.2 ⟨⟨out, hout⟩, ih hothers⟩

mutual

/-- With a term all its parts are written. -/
theorem every_isWritten : ∀ (t : Term) (depth : Nat) (data : Bytes), t.IsValue → t.HasNoNaNKey →
    encodeAt depth t = .ok data → t.Every IsWritten
  | .list items, depth, data, hvalue, hnumbers, h => by
    refine ⟨⟨depth, data, h⟩, ?_⟩
    cases encodes_of_encodeAt h with
    | list _ hback => exact everyItem_isWritten items (depth + 1) _ hvalue.2 hnumbers.2 hback
  | .tuple items, depth, data, hvalue, hnumbers, h => by
    refine ⟨⟨depth, data, h⟩, ?_⟩
    cases encodes_of_encodeAt h with
    | tuple _ hback => exact everyItem_isWritten items (depth + 1) _ hvalue.2 hnumbers.2 hback
  | .map items, depth, data, hvalue, hnumbers, h => by
    refine ⟨⟨depth, data, h⟩, ?_⟩
    cases encodes_of_encodeAt h with
    | map hencoded hsorted _ hjoined =>
      obtain ⟨sorted', hsorted', hperm, _⟩ :=
        exists_sort_of_encodeItems hvalue.1 hnumbers.1 hencoded
      cases hsorted.symm.trans hsorted'
      have hwritten := fun item hitem => exists_written_of_join hjoined item (hperm.mem_iff.2 hitem)
      exact everyPair_isWritten items (depth + 1) _ hvalue.2 hnumbers.2 hencoded hwritten
  | .none, depth, data, _, _, h | .bool _, depth, data, _, _, h | .int _, depth, data, _, _, h
  | .float _, depth, data, _, _, h | .bytes _, depth, data, _, _, h
  | .text _, depth, data, _, _, h | .atom _, depth, data, _, _, h
  | .tagged _ _, depth, data, _, _, h | .funRef _ _, depth, data, _, _, h
  | .foreign _, depth, data, _, _, h => ⟨depth, data, h⟩

theorem everyItem_isWritten : ∀ (items : List Term) (depth : Nat) (data : Bytes),
    EveryItem (OnMaps Items.IsDict) items → EveryItem (OnMaps Items.HasNoNaN) items →
    encodeAll depth items = .ok data → EveryItem IsWritten items
  | [], _, _, _, _, _ => trivial
  | t :: rest, depth, data, hvalue, hnumbers, h => by
    obtain ⟨front, back, hfront, hback, _⟩ := encodeAll_cons_eq_ok_iff.1 h
    exact ⟨every_isWritten t depth front hvalue.1 hnumbers.1 hfront,
      everyItem_isWritten rest depth back hvalue.2 hnumbers.2 hback⟩

theorem everyPair_isWritten : ∀ (items : Items) (depth : Nat) (encoded : List EncodedItem),
    EveryPair (OnMaps Items.IsDict) items → EveryPair (OnMaps Items.HasNoNaN) items →
    encodeItems depth items = .ok encoded → (∀ item ∈ encoded, ∃ out, item.written = .ok out) →
    EveryPair IsWritten items
  | [], _, _, _, _, _, _ => trivial
  | (key, value) :: rest, depth, encoded, hvalue, hnumbers, h, hwritten => by
    obtain ⟨front, back, hfront, hback, rfl⟩ := encodeItems_cons_eq_ok_iff.1 h
    obtain ⟨⟨out, hout⟩, hothers⟩ := List.forall_mem_cons.1 hwritten
    exact ⟨every_isWritten key 0 front hvalue.1 hnumbers.1 hfront,
      every_isWritten value depth out hvalue.2.1 hnumbers.2.1 hout,
      everyPair_isWritten rest depth back hvalue.2.2 hnumbers.2.2 hback hothers⟩

end

/-- There is a tag for what is written. -/
theorem IsWritten.hasTag (h : t.IsWritten) : t.HasTag := by
  obtain ⟨depth, data, h⟩ := h
  cases encodes_of_encodeAt h <;> trivial

/-- A number that is written has a length that fits. -/
theorem IsWritten.signedWidth_le {i : Int} (h : (Term.int i).IsWritten) : signedWidth i ≤ 0xFFFF := by
  obtain ⟨depth, data, h⟩ := h
  cases encodes_of_encodeAt h with
  | int hwidth => exact not_lt.1 hwidth

/-- What can be stored at a depth and fits is written there and further out. -/
theorem exists_encodeAt (hvalue : t.IsValue) (hnumbers : t.HasNoNaNKey) (hfits : t.Every Fits)
    (hinner : inner ≤ depth) (hstorable : t.isStorableAt depth = true) :
    ∃ data, encodeAt inner t = .ok data := by
  have hsized : t.IsSized False False inner :=
    ⟨hvalue, hnumbers, hfits.imp (fun _ h => Or.inl h), Or.inr ⟨depth, hinner, hstorable⟩⟩
  refine not_fails_iff.1 fun ⟨e, he⟩ => ?_
  rcases (admits_failsOnly False False).encodeAt_failsWith t inner hsized e he with h | h
  · exact h.2
  · exact h.2

/-- A term whose sizes fit is written, or refused for how it is built.  What can be stored is what
is written and nests no deeper than allowed. -/
theorem isStorable_iff_encode (hvalue : t.IsValue) (hnumbers : t.HasNoNaNKey)
    (hfits : t.Every Fits) :
    FailsWith EncodeError.IsStructural t.encode ∧
      (t.isStorable = true ↔ (∃ data, t.encode = .ok data) ∧ t.nesting ≤ maxDepth) := by
  constructor
  · have hsized : t.IsSized True False 0 :=
      ⟨hvalue, hnumbers, hfits.imp (fun _ h => Or.inl h), Or.inl trivial⟩
    refine ((admits_failsOnly True False).encodeAt_failsWith t 0 hsized).imp fun e he => ?_
    exact (he.resolve_right fun h => h.2).1
  · rw [isStorable]
    constructor
    · intro hstorable
      have hnesting := (isStorableAt_iff t 0).1 hstorable
      exact ⟨exists_encodeAt hvalue hnumbers hfits (le_refl 0) hstorable, by omega⟩
    · rintro ⟨⟨data, hdata⟩, hnesting⟩
      have htags := (every_isWritten t 0 data hvalue hnumbers hdata).imp fun _ => IsWritten.hasTag
      exact (isStorableAt_iff t 0).2 ⟨by omega, htags⟩

/-- A map with one key, an atom inside so many tuples. -/
def deepKey (n : Nat) : Term := .map [((fun t => .tuple [t])^[n] (.atom "a"), .int 1)]

/-- Inside 63 tuples and the map the atom stands as deep as is allowed.  In one tuple more the map
cannot be stored, and it is written all the same. -/
theorem isStorable_iff_encode_deepKey :
    ((deepKey 63).isStorable = true ∧ ∃ data, (deepKey 63).encode = .ok data) ∧
      (deepKey 64).isStorable = false ∧ ∃ data, (deepKey 64).encode = .ok data := by
  have hwritten : ∀ n ∈ [63, 64], (deepKey n).encode.isOk = true := by decide +kernel
  have hiff : ∀ n ∈ [63, 64], ((deepKey n).isStorable = true ↔
      (∃ data, (deepKey n).encode = .ok data) ∧ (deepKey n).nesting ≤ maxDepth) := by
    intro n hn
    have hvalue : ∀ n ∈ [63, 64], (deepKey n).IsValue := by decide +kernel
    have hnumbers : ∀ n ∈ [63, 64], (deepKey n).HasNoNaNKey := by decide +kernel
    have hfits : ∀ n ∈ [63, 64], (deepKey n).Every Fits := by decide +kernel
    exact (isStorable_iff_encode (hvalue n hn) (hnumbers n hn) (hfits n hn)).2
  have hleast := exists_of_isOk (hwritten 63 (by decide))
  have hmost := exists_of_isOk (hwritten 64 (by decide))
  refine ⟨⟨(hiff 63 (by decide)).2 ⟨hleast, by decide +kernel⟩, hleast⟩, ?_, hmost⟩
  rw [← Bool.not_eq_true, hiff 64 (by decide)]
  exact fun h => absurd h.2 (by decide +kernel)

end Term

end ModuleDocs
