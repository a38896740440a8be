import Mathlib
import ModuleDocs.Term.Encode
import ModuleDocs.Proofs.Result

/-!
# What the bytes of a term are

`Term.Encodes depth t data` says of which bytes those of a term are made that stands inside `depth`
others, with one case for each tag.  A term is written if it does not stand too deep and has such
bytes (`Term.encodeAt_eq_ok_iff`); one without a tag has none.

The bytes of several terms and those of the items of a map are taken apart one by one
(`Term.encodeAll_cons_eq_ok_iff`, `Term.encodeItems_cons_eq_ok_iff`,
`Term.EncodedItem.join_cons_eq_ok_iff`).
-/

namespace ModuleDocs.Term

open Result

/-- The term is written with these bytes inside `depth` others, if that is not too deep. -/
inductive Encodes (depth : Nat) : Term → Bytes → Prop
  | none : Encodes depth .none [0]
  | false : Encodes depth (.bool false) [1]
  | true : Encodes depth (.bool true) [2]
  | int {i : Int} (hwidth : ¬ 0xFFFF < signedWidth i) : Encodes depth (.int i)
      (3 :: (littleEndian 2 (signedWidth i) ++ signedLittleEndian (signedWidth i) i))
  | float (bits : UInt64) : Encodes depth (.float bits) (4 :: littleEndian 8 bits.toNat)
  | bytes {content blob : Bytes} (hblob : encodeBlob content = .ok blob) :
      Encodes depth (.bytes content) (5 :: blob)
  | text {chars : Text} {written blob : Bytes} (hwritten : encodeText chars = .ok written)
      (hblob : encodeBlob written = .ok blob) : Encodes depth (.text chars) (6 :: blob)
  | atom {chars : Text} {written blob : Bytes} (hwritten : encodeText chars = .ok written)
      (hblob : encodeBlob written = .ok blob) : Encodes depth (.atom chars) (7 :: blob)
  | tagged {content : Bytes} {encoding : Text} {name blob : Bytes}
      (hname : encodeShortString encoding = .ok name) (hblob : encodeBlob content = .ok blob) :
      Encodes depth (.tagged content encoding) (8 :: (name ++ blob))
  | list {items : List Term} {count back : Bytes} (hcount : encodeCount items.length = .ok count)
      (hback : encodeAll (depth + 1) items = .ok back) :
      Encodes depth (.list items) (9 :: (count ++ back))
  | tuple {items : List Term} {count back : Bytes} (hcount : encodeCount items.length = .ok count)
      (hback : encodeAll (depth + 1) items = .ok back) :
      Encodes depth (.tuple items) (10 :: (count ++ back))
  | map {items : Items} {encoded sorted : List EncodedItem} {count back : Bytes}
      (hencoded : encodeItems (depth + 1) items = .ok encoded)
      (hsorted : EncodedItem.sort encoded = .ok sorted)
      (hcount : encodeCount sorted.length = .ok count)
      (hback : EncodedItem.join sorted = .ok back) :
      Encodes depth (.map items) (11 :: (count ++ back))

variable {depth : Nat} {data : Bytes}

/-- A term is written with its bytes unless it stands too deep. -/
theorem encodeAt_eq_ok_iff {t : Term} :
    encodeAt depth t = .ok data ↔ ¬ maxDepth < depth ∧ Encodes depth t data := by
  rw [encodeAt.eq_def, ite_error_eq_ok_iff]
  refine and_congr_right fun _ => ⟨fun h => ?_, fun h => ?_⟩
  · cases t with
    | none =>
      cases h
      exact .none
    | bool b =>
      cases b <;> cases h
      · exact .false
      · exact .true
    | int i =>
      obtain ⟨hwidth, hdata⟩ := ite_error_eq_ok_iff.1 h
      cases hdata
      exact .int hwidth
    | float bits =>
      cases h
      exact .float bits
    | bytes content =>
      obtain ⟨blob, hblob, rfl⟩ := bind_pure_eq_ok_iff.1 h
      exact .bytes hblob
    | text chars =>
      obtain ⟨written, hwritten, h⟩ := bind_eq_ok_iff.1 h
      obtain ⟨blob, hblob, rfl⟩ := bind_pure_eq_ok_iff.1 h
      exact .text hwritten hblob
    | atom chars =>
      obtain ⟨written, hwritten, h⟩ := bind_eq_ok_iff.1 h
      obtain ⟨blob, hblob, rfl⟩ := bind_pure_eq_ok_iff.1 h
      exact .atom hwritten hblob
    | tagged content encoding =>
      obtain ⟨name, hname, h⟩ := bind_eq_ok_iff.1 h
      obtain ⟨blob, hblob, rfl⟩ := bind_pure_eq_ok_iff.1 h
      exact .tagged hname hblob
    | list items =>
      obtain ⟨count, hcount, h⟩ := bind_eq_ok_iff.1 h
      obtain ⟨back, hback, rfl⟩ := bind_pure_eq_ok_iff.1 h
      exact .list hcount hback
    | tuple items =>
      obtain ⟨count, hcount, h⟩ := bind_eq_ok_iff.1 h
      obtain ⟨back, hback, rfl⟩ := bind_pure_eq_ok_iff.1 h
      exact .tuple hcount hback
    | map items =>
      obtain ⟨encoded, hencoded, h⟩ := bind_eq_ok_iff.1 h
      obtain ⟨sorted, hsorted, h⟩ := bind_eq_ok_iff.1 h
      obtain ⟨count, hcount, h⟩ := bind_eq_ok_iff.1 h
      obtain ⟨back, hback, rfl⟩ := bind_pure_eq_ok_iff.1 h
      exact .map hencoded hsorted hcount hback
    | funRef name arity | foreign name => cases h
  · cases h with
    | none | false | true | float => rfl
    | int hwidth => exact ite_error_eq_ok_iff.2 ⟨hwidth, rfl⟩
    | bytes hblob => exact bind_pure_eq_ok_iff.2 ⟨_, hblob, rfl⟩
    | text hwritten hblob | atom hwritten hblob =>
      exact bind_eq_ok_iff.2 ⟨_, hwritten, bind_pure_eq_ok_iff.2 ⟨_, hblob, rfl⟩⟩
    | tagged hname hblob =>
      exact bind_eq_ok_iff.2 ⟨_, hname, bind_pure_eq_ok_iff.2 ⟨_, hblob, rfl⟩⟩
    | list hcount hback | tuple hcount hback =>
      exact bind_eq_ok_iff.2 ⟨_, hcount, bind_pure_eq_ok_iff.2 ⟨_, hback, rfl⟩⟩
    | map hencoded hsorted hcount hback =>
      refine bind_eq_ok_iff.2 ⟨_, hencoded, bind_eq_ok_iff.2 ⟨_, hsorted, ?_⟩⟩
      exact bind_eq_ok_iff.2 ⟨_, hcount, bind_pure_eq_ok_iff.2 ⟨_, hback, rfl⟩⟩

theorem encodes_of_encodeAt {t : Term} (h : encodeAt depth t = .ok data) : Encodes depth t data :=
  (encodeAt_eq_ok_iff.1 h).2

/-- What is written does not stand too deep. -/
theorem depth_le_of_encodeAt {t : Term} (h : encodeAt depth t = .ok data) : ¬ maxDepth < depth :=
  (encodeAt_eq_ok_iff.1 h).1

/-- Terms are written one behind the other. -/
theorem encodeAll_cons_eq_ok_iff {t : Term} {rest : List Term} :
    encodeAll depth (t :: rest) = .ok data ↔ ∃ front back, encodeAt depth t = .ok front ∧
      encodeAll depth rest = .ok back ∧ front ++ back = data := by
  rw [encodeAll, bind_eq_ok_iff]
  simp only [bind_pure_eq_ok_iff, exists_and_left]

/-- The key of an item has bytes; the value need not have any yet. -/
theorem encodeItems_cons_eq_ok_iff {key value : Term} {rest : Items} {encoded : List EncodedItem} :
    encodeItems depth ((key, value) :: rest) = .ok encoded ↔ ∃ front back,
      encodeAt 0 key = .ok front ∧ encodeItems depth rest = .ok back ∧
        ⟨front, value, encodeAt depth value⟩ :: back = encoded := by
  rw [encodeItems, bind_eq_ok_iff]
  simp only [bind_pure_eq_ok_iff, exists_and_left]

/-- The value of an item stands behind its key and before the other items. -/
theorem EncodedItem.join_cons_eq_ok_iff {item : EncodedItem} {rest : List EncodedItem} :
    join (item :: rest) = .ok data ↔ ∃ value back, item.written = .ok value ∧
      join rest = .ok back ∧ item.key ++ (value ++ back) = data := by
  rw [join, bind_eq_ok_iff]
  simp only [bind_pure_eq_ok_iff, exists_and_left]

end ModuleDocs.Term
