import Mathlib
import ModuleDocs.Proofs.Order.Sort
import ModuleDocs.Proofs.Result
import ModuleDocs.Proofs.Term.Part

/-!
# Why a term is not written

Each part of a term has its own reasons for which it is not written.  `Term.Admits P C` says
that they have the property `P` where a condition `C` holds of the part and of its depth, and that
the condition is handed down from a term to its parts.  Then a term for which it holds is refused
for such reasons only (`Term.Admits.encodeAt_failsWith`).

`Term.Tolerates P C` is for properties that all reasons have which are about sizes.  It leaves these
fields out.
-/

namespace ModuleDocs

open Result

/-- The error is about how a term is built: how deep it nests, what its parts are, or in which
order these can be put. -/
inductive EncodeError.IsStructural : EncodeError → Prop
  | nestingTooDeep : IsStructural .nestingTooDeep
  | notATerm (typeName : Text) : IsStructural (.notATerm typeName)
  | incomparable (pair : Incomparable) : IsStructural (.incomparable pair)

variable {P : EncodeError → Prop}

/-! ## Fields -/

theorem encodeText_failsWith {t : Text}
    (h : ∀ run, Utf8.encode t = .error run → P (.unencodable run)) : FailsWith P (encodeText t) :=
  FailsWith.mapError h

theorem encodeShortString_failsWith {t : Text} (htext : FailsWith P (encodeText t))
    (hlong : P .stringTooLong) : FailsWith P (encodeShortString t) := by
  refine htext.bind fun data _ => ?_
  split
  · exact FailsWith.error hlong
  · exact FailsWith.ok _

theorem encodeBlob_failsWith (hlong : P .blobTooLong) (data : Bytes) :
    FailsWith P (encodeBlob data) := by
  unfold encodeBlob
  split
  · exact FailsWith.error hlong
  · exact FailsWith.ok _

theorem encodeCount_failsWith (hlarge : P .countOutOfRange) (n : Nat) :
    FailsWith P (encodeCount n) := by
  unfold encodeCount
  split
  · exact FailsWith.error hlarge
  · exact FailsWith.ok _

namespace Term

theorem failsWith_of_depth {depth : Nat} {x : Except EncodeError Bytes}
    (hdeep : maxDepth < depth → P .nestingTooDeep) (h : FailsWith P x) :
    FailsWith P (if maxDepth < depth then .error .nestingTooDeep else x) := by
  split
  · rename_i hdepth
    exact FailsWith.error (hdeep hdepth)
  · exact h

/-! ## Items -/

namespace EncodedItem

/-- Items are sorted, or their values have no order. -/
theorem sort_failsWith (hpair : ∀ pair, P (.incomparable pair)) (items : List EncodedItem) :
    FailsWith P (sort items) := by
  have hless (a b : EncodedItem) : FailsWith P (less a b) := by
    unfold less
    split
    · split
      · exact FailsWith.ok _
      · exact FailsWith.mapError fun pair _ => hpair pair
    · exact FailsWith.ok _
  unfold sort
  dsimp only
  split
  · exact FailsWith.ok _
  · exact (Ascending.sort_meets (Q := fun _ => True) (fun a b _ _ => hless a b)
      fun _ _ => trivial).failsWith

/-- No item is made up when items are sorted. -/
theorem mem_of_sort {items sorted : List EncodedItem} (h : sort items = .ok sorted) :
    ∀ item ∈ sorted, item ∈ items := by
  unfold sort at h
  dsimp only at h
  split at h
  · cases h
    exact fun item hitem => List.mem_mergeSort.1 hitem
  · exact (Ascending.sort_meets (P := fun _ => True) (fun _ _ _ _ _ _ => trivial)
      fun item hitem => hitem).gives sorted h

theorem join_failsWith {items : List EncodedItem} (h : ∀ item ∈ items, FailsWith P item.written) :
    FailsWith P (join items) := by
  induction items with
  | nil => exact FailsWith.ok []
  | cons item rest ih =>
    obtain ⟨hfirst, hrest⟩ := List.forall_mem_cons.1 h
    exact hfirst.bind fun value _ => (ih hrest).bind fun others _ => FailsWith.ok _

/-- A map fails as its items do, the sorting of them and the number that stands before them. -/
theorem write_failsWith {encoded : Except EncodeError (List EncodedItem)}
    (hencoded : FailsWith P encoded)
    (hitems : ∀ items, encoded = .ok items →
      (FailsWith P (sort items) ∧
        ∀ sorted, sort items = .ok sorted → FailsWith P (encodeCount sorted.length)) ∧
      ∀ item ∈ items, FailsWith P item.written) :
    FailsWith P (do
      let sorted ← sort (← encoded)
      let count ← encodeCount sorted.length
      return (11 : UInt8) :: (count ++ (← join sorted))) := by
  refine hencoded.bind fun items hok => ?_
  obtain ⟨⟨hsort, hcount⟩, hwritten⟩ := hitems items hok
  refine hsort.bind fun sorted hsorted => (hcount sorted hsorted).bind fun count _ => ?_
  refine (join_failsWith fun item hitem => ?_).bind fun body _ => FailsWith.ok _
  exact hwritten item (mem_of_sort hsorted item hitem)

end EncodedItem

/-! ## Terms -/

/-- Terms for which the condition holds at their depth are refused only for reasons with the
property, if their parts are, and the condition holds for these. -/
structure Admits (P : EncodeError → Prop) (C : Nat → Term → Prop) : Prop where
  deep : ∀ depth t, C depth t → maxDepth < depth → P .nestingTooDeep
  int : ∀ depth i, C depth (.int i) → 0xFFFF < signedWidth i → P .lengthOutOfRange
  bytes : ∀ depth data, C depth (.bytes data) → FailsWith P (encodeBlob data)
  text : ∀ depth t, C depth (.text t) →
    FailsWith P (encodeText t) ∧ ∀ data, encodeText t = .ok data → FailsWith P (encodeBlob data)
  atom : ∀ depth t, C depth (.atom t) →
    FailsWith P (encodeText t) ∧ ∀ data, encodeText t = .ok data → FailsWith P (encodeBlob data)
  tagged : ∀ depth data encoding, C depth (.tagged data encoding) →
    FailsWith P (encodeShortString encoding) ∧ FailsWith P (encodeBlob data)
  funRef : ∀ depth name arity, C depth (.funRef name arity) →
    P (.notATerm (Term.funRef name arity).typeName)
  foreign : ∀ depth name, C depth (.foreign name) → P (.notATerm name)
  list : ∀ depth items, C depth (.list items) →
    FailsWith P (encodeCount items.length) ∧ ∀ t ∈ items, C (depth + 1) t
  tuple : ∀ depth items, C depth (.tuple items) →
    FailsWith P (encodeCount items.length) ∧ ∀ t ∈ items, C (depth + 1) t
  map : ∀ depth items, C depth (.map items) → ∀ item ∈ items, C 0 item.1 ∧ C (depth + 1) item.2
  sort : ∀ depth items encoded, C depth (.map items) → encodeItems (depth + 1) items = .ok encoded →
    FailsWith P (EncodedItem.sort encoded) ∧
      ∀ sorted, EncodedItem.sort encoded = .ok sorted → FailsWith P (encodeCount sorted.length)

namespace Admits

variable {C : Nat → Term → Prop}

mutual

/-- A term is refused only for reasons that its parts can have. -/
theorem encodeAt_failsWith (h : Admits P C) :
    ∀ (t : Term) (depth : Nat), C depth t → FailsWith P (encodeAt depth t)
  | .none, depth, hC | .bool false, depth, hC | .bool true, depth, hC | .float _, depth, hC => by
    rw [encodeAt]
    exact failsWith_of_depth (h.deep depth _ hC) (FailsWith.ok _)
  | .int i, depth, hC => by
    rw [encodeAt]
    refine failsWith_of_depth (h.deep depth _ hC) ?_
    dsimp only
    split
    · rename_i hwidth
      exact FailsWith.error (h.int depth i hC hwidth)
    · exact FailsWith.ok _
  | .bytes data, depth, hC => by
    rw [encodeAt]
    refine failsWith_of_depth (h.deep depth _ hC) ?_
    exact (h.bytes depth data hC).bind fun blob _ => FailsWith.ok _
  | .text t, depth, hC => by
    rw [encodeAt]
    obtain ⟨htext, hblob⟩ := h.text depth t hC
    refine failsWith_of_depth (h.deep depth _ hC) (htext.bind fun data hdata => ?_)
    exact (hblob data hdata).bind fun blob _ => FailsWith.ok _
  | .atom t, depth, hC => by
    rw [encodeAt]
    obtain ⟨htext, hblob⟩ := h.atom depth t hC
    refine failsWith_of_depth (h.deep depth _ hC) (htext.bind fun data hdata => ?_)
    exact (hblob data hdata).bind fun blob _ => FailsWith.ok _
  | .tagged data encoding, depth, hC => by
    rw [encodeAt]
    obtain ⟨hname, hblob⟩ := h.tagged depth data encoding hC
    refine failsWith_of_depth (h.deep depth _ hC) (hname.bind fun name _ => ?_)
    exact hblob.bind fun blob _ => FailsWith.ok _
  | .list items, depth, hC => by
    rw [encodeAt]
    obtain ⟨hcount, hitems⟩ := h.list depth items hC
    refine failsWith_of_depth (h.deep depth _ hC) (hcount.bind fun count _ => ?_)
    exact (encodeAll_failsWith h items (depth + 1) hitems).bind fun parts _ => FailsWith.ok _
  | .tuple items, depth, hC => by
    rw [encodeAt]
    obtain ⟨hcount, hitems⟩ := h.tuple depth items hC
    refine failsWith_of_depth (h.deep depth _ hC) (hcount.bind fun count _ => ?_)
    exact (encodeAll_failsWith h items (depth + 1) hitems).bind fun parts _ => FailsWith.ok _
  | .map items, depth, hC => by
    rw [encodeAt]
    have hitems := encodeItems_meets h items (depth + 1) (h.map depth items hC)
    refine failsWith_of_depth (h.deep depth _ hC) ?_
    exact EncodedItem.write_failsWith hitems.failsWith fun encoded hencoded =>
      ⟨h.sort depth items encoded hC hencoded, hitems.gives encoded hencoded⟩
  | .funRef name arity, depth, hC => by
    rw [encodeAt]
    exact failsWith_of_depth (h.deep depth _ hC) (FailsWith.error (h.funRef depth name arity hC))
  | .foreign name, depth, hC => by
    rw [encodeAt]
    exact failsWith_of_depth (h.deep depth _ hC) (FailsWith.error (h.foreign depth name hC))

theorem encodeAll_failsWith (h : Admits P C) : ∀ (items : List Term) (depth : Nat),
    (∀ t ∈ items, C depth t) → FailsWith P (encodeAll depth items)
  | [], _, _ => FailsWith.ok []
  | t :: rest, depth, hC => by
    obtain ⟨hfirst, hrest⟩ := List.forall_mem_cons.1 hC
    rw [encodeAll]
    refine (encodeAt_failsWith h t depth hfirst).bind fun front _ => ?_
    exact (encodeAll_failsWith h rest depth hrest).bind fun back _ => FailsWith.ok _

theorem encodeItems_meets (h : Admits P C) : ∀ (items : Items) (depth : Nat),
    (∀ item ∈ items, C 0 item.1 ∧ C depth item.2) →
    Meets P (fun encoded => ∀ item ∈ encoded, FailsWith P item.written) (encodeItems depth items)
  | [], _, _ => Meets.ok (by simp)
  | (key, value) :: rest, depth, hC => by
    obtain ⟨⟨hkey, hvalue⟩, hrest⟩ := List.forall_mem_cons.1 hC
    rw [encodeItems]
    refine (encodeAt_failsWith h key 0 hkey).meets.bind fun front _ => ?_
    refine (encodeItems_meets h rest depth hrest).bind fun back hback => Meets.ok ?_
    exact List.forall_mem_cons.2 ⟨encodeAt_failsWith h value depth hvalue, hback⟩

end

end Admits

/-- The same for a property that all reasons have which are about sizes. -/
structure Tolerates (P : EncodeError → Prop) (C : Nat → Term → Prop) : Prop where
  stringTooLong : P .stringTooLong
  blobTooLong : P .blobTooLong
  countOutOfRange : P .countOutOfRange
  deep : ∀ depth t, C depth t → maxDepth < depth → P .nestingTooDeep
  int : ∀ depth i, C depth (.int i) → 0xFFFF < signedWidth i → P .lengthOutOfRange
  text : ∀ depth t, C depth (.text t) → FailsWith P (encodeText t)
  atom : ∀ depth t, C depth (.atom t) → FailsWith P (encodeText t)
  tagged : ∀ depth data encoding, C depth (.tagged data encoding) →
    FailsWith P (encodeText encoding)
  funRef : ∀ depth name arity, C depth (.funRef name arity) →
    P (.notATerm (Term.funRef name arity).typeName)
  foreign : ∀ depth name, C depth (.foreign name) → P (.notATerm name)
  list : ∀ depth items, C depth (.list items) → ∀ t ∈ items, C (depth + 1) t
  tuple : ∀ depth items, C depth (.tuple items) → ∀ t ∈ items, C (depth + 1) t
  map : ∀ depth items, C depth (.map items) → ∀ item ∈ items, C 0 item.1 ∧ C (depth + 1) item.2
  sort : ∀ depth items encoded, C depth (.map items) → encodeItems (depth + 1) items = .ok encoded →
    FailsWith P (EncodedItem.sort encoded)

variable {C : Nat → Term → Prop}

theorem Tolerates.admits (h : Tolerates P C) : Admits P C where
  deep := h.deep
  int := h.int
  bytes := fun _ data _ => encodeBlob_failsWith h.blobTooLong data
  text := fun depth t hC => ⟨h.text depth t hC, fun data _ => encodeBlob_failsWith h.blobTooLong data⟩
  atom := fun depth t hC => ⟨h.atom depth t hC, fun data _ => encodeBlob_failsWith h.blobTooLong data⟩
  tagged := fun depth data encoding hC =>
    ⟨encodeShortString_failsWith (h.tagged depth data encoding hC) h.stringTooLong,
      encodeBlob_failsWith h.blobTooLong data⟩
  funRef := h.funRef
  foreign := h.foreign
  list := fun depth items hC => ⟨encodeCount_failsWith h.countOutOfRange _, h.list depth items hC⟩
  tuple := fun depth items hC => ⟨encodeCount_failsWith h.countOutOfRange _, h.tuple depth items hC⟩
  map := h.map
  sort := fun depth items encoded hC hencoded =>
    ⟨h.sort depth items encoded hC hencoded,
      fun sorted _ => encodeCount_failsWith h.countOutOfRange sorted.length⟩

theorem encodeAt_failsWith (h : Tolerates P C) (t : Term) (depth : Nat) (hC : C depth t) :
    FailsWith P (encodeAt depth t) := h.admits.encodeAt_failsWith t depth hC

end Term

end ModuleDocs
