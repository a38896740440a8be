import Mathlib
import ModuleDocs.Term.Decode
import ModuleDocs.Proofs.Lists
import ModuleDocs.Proofs.Result
import ModuleDocs.Proofs.Term.Part
import ModuleDocs.Proofs.Term.Reader
import ModuleDocs.Proofs.Term.Reordered
import ModuleDocs.Proofs.Term.Written

/-!
# Terms are read back

A term that can be stored where it stands, whose maps are dictionaries with keys that
are equal to themselves, is read back from its bytes up to the order of map items
(`exists_reads_of_encodeAt`).  The induction goes over the term; the number of levels
that the reader has left and the depth at which the term is tested add up to
`maxDepth + 1`, whatever depth the writer counts.  A term can therefore stand between
other bytes, and the reader stops behind it (`run_decode_of_encode`).

The order in which map items are written needs no comparison of values, since different
keys have different bytes: reading is a function, and it gives back the keys.

Conversely nothing is read that could not be stored (`gives_decodeWithin`).
-/

namespace ModuleDocs.Term

open Decoder

/-! ## Keys -/

theorem keyEq_comm (a b : Term) : a.keyEq b = b.keyEq a := by
  unfold keyEq
  cases a.keyForm? <;> cases b.keyForm? <;> simp [eq_comm]

theorem pairwise_keyEq_perm {as bs : Items} (h : as.Perm bs) :
    (as.Pairwise fun a b => a.1.keyEq b.1 = false) ↔
      bs.Pairwise fun a b => a.1.keyEq b.1 = false :=
  h.pairwise_iff fun {a b} hab => by rwa [keyEq_comm]

namespace EncodedItem

/-- Items with different bytes for their keys are written in the order of these. -/
theorem sort_of_pairwise {items : List EncodedItem}
    (h : items.Pairwise fun a b => a.key ≠ b.key) :
    sort items = .ok (items.mergeSort fun a b => decide (a.key ≤ b.key)) := by
  have hperm := List.mergeSort_perm items fun a b => decide (a.key ≤ b.key)
  have hsorted := (hperm.pairwise_iff fun {a b} (hab : a.key ≠ b.key) => hab.symm).2 h
  rw [sort, if_pos]
  simpa [List.all_eq_true] using fun a b hab => Lists.forall_zip_drop hsorted (a, b) hab

end EncodedItem

/-! ## Items -/

/-- An item that is written in this way is read back. -/
structure WrittenAs (levels : Nat) (e : EncodedItem) (item : Term × Term) : Prop where
  key : Reads (decodeWithin levels) e.key item.1
  hashable : item.1.isHashable = true
  value : ∀ data, e.written = .ok data →
    ∃ t, Reordered item.2 t ∧ Reads (decodeWithin levels) data t

/-- Keys that differ have different bytes. -/
theorem pairwise_key_of_writtenAs {levels : Nat} {encoded : List EncodedItem} {items : Items}
    (h : List.Forall₂ (WrittenAs levels) encoded items)
    (hself : ∀ item ∈ items, item.1.keyEq item.1 = true)
    (hdistinct : items.Pairwise fun a b => a.1.keyEq b.1 = false) :
    encoded.Pairwise fun a b => a.key ≠ b.key := by
  induction h with
  | nil => exact List.Pairwise.nil
  | @cons e item encoded items hfirst hrest ih =>
    have hrestSelf := fun i hi => hself i (List.mem_cons_of_mem item hi)
    refine List.pairwise_cons.2 ⟨?_, ih hrestSelf hdistinct.of_cons⟩
    intro e' he' hsame
    obtain ⟨item', hitem', hwritten⟩ := Lists.exists_right hrest e' he'
    have hkey : item.1 = item'.1 := Reads.unique hfirst.key (hsame ▸ hwritten.key)
    have hother := List.rel_of_pairwise_cons hdistinct hitem'
    rw [← hkey, hself item List.mem_cons_self] at hother
    cases hother

/-- The bytes of an item are read as its key and, up to order, its value. -/
theorem reads_decodeItem {levels : Nat} {keyData valueData : Bytes} {key value : Term}
    (hkey : Reads (decodeWithin levels) keyData key)
    (hvalue : Reads (decodeWithin levels) valueData value) (hhashable : key.isHashable = true) :
    Reads (decodeItem (decodeWithin levels)) (keyData ++ valueData) (key, value) := by
  have h : Reads (decodeItem (decodeWithin levels)) (keyData ++ (valueData ++ [])) (key, value) := by
    refine Reads.bind hkey (Reads.bind hvalue ?_)
    rw [if_pos hhashable]
    exact Reads.pure _
  simpa using h

/-- Items that stand one after the other are read back in this order. -/
theorem exists_parts_of_join {levels : Nat} {sorted : List EncodedItem} {items : Items}
    (h : List.Forall₂ (WrittenAs levels) sorted items) {data : Bytes}
    (hjoin : EncodedItem.join sorted = .ok data) :
    ∃ parts : List (Bytes × (Term × Term)),
      List.Forall₂ SameItem items (parts.map (·.2)) ∧ data = parts.flatMap (·.1) ∧
        ∀ part ∈ parts, Reads (decodeItem (decodeWithin levels)) part.1 part.2 := by
  induction h generalizing data with
  | nil =>
    cases hjoin
    exact ⟨[], .nil, rfl, by simp⟩
  | @cons e item sorted items hfirst _ ih =>
    obtain ⟨valueData, back, hwritten, hback, rfl⟩ := EncodedItem.join_cons_eq_ok_iff.1 hjoin
    obtain ⟨t, hsame, hreads⟩ := hfirst.value valueData hwritten
    obtain ⟨parts, hitems, hflat, hparts⟩ := ih hback
    refine ⟨(e.key ++ valueData, (item.1, t)) :: parts, .cons ⟨rfl, hsame⟩ hitems, ?_, ?_⟩
    · simp [← hflat]
    · intro part hpart
      rcases List.mem_cons.1 hpart with rfl | hpart
      · exact reads_decodeItem hfirst.key hreads hfirst.hashable
      · exact hparts part hpart

/-- The items of a map are read back up to their order. -/
theorem exists_reads_of_items {levels : Nat} {encoded sorted : List EncodedItem} {items : Items}
    (h : List.Forall₂ (WrittenAs levels) encoded items)
    (hself : ∀ item ∈ items, item.1.keyEq item.1 = true)
    (hdistinct : items.Pairwise fun a b => a.1.keyEq b.1 = false)
    (hsort : EncodedItem.sort encoded = .ok sorted) {count data : Bytes}
    (hcount : encodeCount sorted.length = .ok count) (hjoin : EncodedItem.join sorted = .ok data) :
    ∃ t, Reordered (.map items) t ∧ Reads (decodeWithin (levels + 1)) (11 :: (count ++ data)) t := by
  rw [EncodedItem.sort_of_pairwise (pairwise_key_of_writtenAs h hself hdistinct)] at hsort
  have hperm : sorted.Perm encoded := Except.ok.inj hsort ▸ List.mergeSort_perm _ _
  obtain ⟨written, hwritten, hitems⟩ := List.perm_comp_forall₂ hperm h
  obtain ⟨parts, hsame, hflat, hparts⟩ := exists_parts_of_join hwritten hjoin
  have hlength : sorted.length = parts.length := by
    rw [hwritten.length_eq, hsame.length_eq, List.length_map]
  -- What is read has the keys of the map, so that reading it as a map changes nothing.
  have hread : (parts.map (·.2)).Pairwise fun a b => a.1.keyEq b.1 = false := by
    refine Lists.pairwise_right hsame ((pairwise_keyEq_perm hitems).2 hdistinct) ?_
    intro a a' b b' hab hab' hne
    rwa [← hab.1, ← hab'.1]
  refine ⟨.map (Items.ofPairs (parts.map (·.2))), ?_, ?_⟩
  · rw [Items.ofPairs_of_pairwise hread]
    exact reordered_map_of_perm hsame hitems.symm (List.Perm.refl _)
  · have hrepeat := Decoder.reads_repeatRead hparts []
    rw [← hlength, ← hflat] at hrepeat
    refine Reads.bind (x := [11]) (Decoder.reads_tag (n := 11) (by decide)) ?_
    exact Reads.bind (Decoder.reads_count hcount)
      (hrepeat.bind_pure fun items => map (Items.ofPairs items))

/-! ## Terms -/

theorem depth_le_of_isStorableAt {depth : Nat} {t : Term} (h : isStorableAt depth t = true) :
    depth ≤ maxDepth := by
  unfold isStorableAt at h
  split at h
  · cases h
  · omega

theorem storableAt_list {depth : Nat} {items : List Term}
    (h : isStorableAt depth (.list items) = true) : allStorableAt (depth + 1) items = true := by
  have hdepth := depth_le_of_isStorableAt h
  rw [isStorableAt, if_neg (by omega)] at h
  exact h

theorem storableAt_tuple {depth : Nat} {items : List Term}
    (h : isStorableAt depth (.tuple items) = true) : allStorableAt (depth + 1) items = true := by
  have hdepth := depth_le_of_isStorableAt h
  rw [isStorableAt, if_neg (by omega)] at h
  exact h

theorem storableAt_map {depth : Nat} {items : Items}
    (h : isStorableAt depth (.map items) = true) : itemsStorableAt (depth + 1) items = true := by
  have hdepth := depth_le_of_isStorableAt h
  rw [isStorableAt, if_neg (by omega)] at h
  exact h

/-- Terms whose bytes stand one after the other are read back one after the other. -/
theorem exists_reads_of_parts {d : Decoder Term} {items : List Term} {data : Bytes}
    (h : ∃ parts : List (Bytes × Term), ReorderedList items (parts.map (·.2)) ∧
      parts.flatMap (·.1) = data ∧ ∀ part ∈ parts, Reads d part.1 part.2) :
    ∃ ts, ReorderedList items ts ∧ Reads (repeatRead d [] items.length) data ts := by
  obtain ⟨parts, hsame, rfl, hparts⟩ := h
  have hlength : items.length = parts.length := by
    rw [(reorderedList_iff.1 hsame).length_eq, List.length_map]
  refine ⟨parts.map (·.2), hsame, ?_⟩
  rw [hlength]
  simpa using reads_repeatRead hparts []

/-- An integer is read back from as many bytes as it takes. -/
theorem reads_integer {i : Int} (h : ¬ 0xFFFF < signedWidth i) :
    Reads (do return Term.int (ofSignedLittleEndian (← take (← number 2))))
      (littleEndian 2 (signedWidth i) ++ signedLittleEndian (signedWidth i) i) (.int i) := by
  have htake := reads_take (signedLittleEndian (signedWidth i) i)
  have hlength : (signedLittleEndian (signedWidth i) i).length = signedWidth i := by
    simp [signedLittleEndian]
  rw [hlength] at htake
  refine Reads.bind (reads_number (n := signedWidth i) ?_) ?_
  · have : (256 : Nat) ^ 2 = 0xFFFF + 1 := by norm_num
    omega
  · have hread := ofSignedLittleEndian_signedLittleEndian (two_mul_natAbs_lt i)
    simpa [hread] using htake.bind_pure fun data => Term.int (ofSignedLittleEndian data)

/-- A key of a value that can be stored is equal to itself. -/
theorem keyEq_self_of_storable {depth : Nat} {items : Items}
    (hstorable : itemsStorableAt depth items = true) (hnumbers : items.HasNoNaN) :
    ∀ item ∈ items, item.1.keyEq item.1 = true := by
  intro item hitem
  exact keyEq_self (isSome_keyForm? item.1 depth
    (itemsStorableAt_iff.1 hstorable item hitem).1 (hnumbers item hitem))

mutual

/-- A term that can be stored is read back from its bytes up to the order of map items. -/
theorem exists_reads_of_encodeAt : ∀ (t : Term) (levels depth inner : Nat) (data : Bytes),
    levels + depth = maxDepth + 1 → isStorableAt depth t = true → t.IsValue → t.HasNoNaNKey →
    encodeAt inner t = .ok data →
    ∃ t', Reordered t t' ∧ Reads (decodeWithin levels) data t'
  | t, 0, depth, inner, data, hlevels, hstorable, _, _, _ => by
    have := depth_le_of_isStorableAt hstorable
    omega
  | .none, levels + 1, _, _, _, _, _, _, _, h => by
    cases encodes_of_encodeAt h
    exact ⟨.none, rfl, Reads.bind (y := []) (reads_tag (n := 0) (by decide)) (Reads.pure _)⟩
  | .bool b, levels + 1, _, _, _, _, _, _, _, h => by
    refine ⟨.bool b, rfl, ?_⟩
    cases encodes_of_encodeAt h with
    | false => exact Reads.bind (y := []) (reads_tag (n := 1) (by decide)) (Reads.pure _)
    | true => exact Reads.bind (y := []) (reads_tag (n := 2) (by decide)) (Reads.pure _)
  | .int i, levels + 1, _, _, _, _, _, _, _, h => by
    cases encodes_of_encodeAt h with
    | int hwidth =>
      exact ⟨.int i, rfl, Reads.bind (x := [3]) (reads_tag (n := 3) (by decide))
        (reads_integer hwidth)⟩
  | .float bits, levels + 1, _, _, _, _, _, _, _, h => by
    cases encodes_of_encodeAt h
    exact ⟨.float bits, rfl, Reads.bind (x := [4]) (reads_tag (n := 4) (by decide))
      ((reads_double bits).bind_pure Term.float)⟩
  | .bytes content, levels + 1, _, _, _, _, _, _, _, h => by
    cases encodes_of_encodeAt h with
    | bytes hblob =>
      exact ⟨.bytes content, rfl, Reads.bind (x := [5]) (reads_tag (n := 5) (by decide))
        ((reads_blob hblob).bind_pure Term.bytes)⟩
  | .text chars, levels + 1, _, _, _, _, _, _, _, h => by
    cases encodes_of_encodeAt h with
    | text hwritten hblob =>
      exact ⟨.text chars, rfl, Reads.bind (x := [6]) (reads_tag (n := 6) (by decide))
        ((reads_longString hwritten hblob).bind_pure Term.text)⟩
  | .atom chars, levels + 1, _, _, _, _, _, _, _, h => by
    cases encodes_of_encodeAt h with
    | atom hwritten hblob =>
      exact ⟨.atom chars, rfl, Reads.bind (x := [7]) (reads_tag (n := 7) (by decide))
        ((reads_longString hwritten hblob).bind_pure Term.atom)⟩
  | .tagged content encoding, levels + 1, _, _, _, _, _, _, _, h => by
    cases encodes_of_encodeAt h with
    | tagged hname hblob =>
      exact ⟨.tagged content encoding, rfl,
        Reads.bind (x := [8]) (reads_tag (n := 8) (by decide))
          (Reads.bind (reads_shortString hname)
            ((reads_blob hblob).bind_pure fun content => Term.tagged content encoding))⟩
  | .list items, levels + 1, depth, inner, _, hlevels, hstorable, hvalue, hkeys, h => by
    cases encodes_of_encodeAt h with
    | list hcount hback =>
      obtain ⟨ts, hsame, hreads⟩ := exists_reads_of_parts (exists_parts_of_encodeAll items levels
        (depth + 1) (inner + 1) _ (by omega) (storableAt_list hstorable) hvalue.2 hkeys.2 hback)
      exact ⟨.list ts, hsame, Reads.bind (x := [9]) (reads_tag (n := 9) (by decide))
        (Reads.bind (reads_count hcount) (hreads.bind_pure Term.list))⟩
  | .tuple items, levels + 1, depth, inner, _, hlevels, hstorable, hvalue, hkeys, h => by
    cases encodes_of_encodeAt h with
    | tuple hcount hback =>
      obtain ⟨ts, hsame, hreads⟩ := exists_reads_of_parts (exists_parts_of_encodeAll items levels
        (depth + 1) (inner + 1) _ (by omega) (storableAt_tuple hstorable) hvalue.2 hkeys.2 hback)
      exact ⟨.tuple ts, hsame, Reads.bind (x := [10]) (reads_tag (n := 10) (by decide))
        (Reads.bind (reads_count hcount) (hreads.bind_pure Term.tuple))⟩
  | .map items, levels + 1, depth, inner, _, hlevels, hstorable, hvalue, hkeys, h => by
    cases encodes_of_encodeAt h with
    | map hencoded hsorted hcount hjoined =>
      have hitems := storableAt_map hstorable
      have hdict : Items.IsDict items := hvalue.1
      exact exists_reads_of_items (forall_writtenAs_of_encodeItems items levels (depth + 1)
          (inner + 1) _ (by omega) hitems hdict.hashable hvalue.2 hkeys.2 hencoded)
        (keyEq_self_of_storable hitems hkeys.1) hdict.distinct hsorted hcount hjoined
  | .funRef name arity, levels + 1, _, _, _, _, _, _, _, h
  | .foreign name, levels + 1, _, _, _, _, _, _, _, h => by cases encodes_of_encodeAt h

theorem exists_parts_of_encodeAll : ∀ (items : List Term) (levels depth inner : Nat) (data : Bytes),
    levels + depth = maxDepth + 1 → allStorableAt depth items = true →
    EveryItem (OnMaps Items.IsDict) items → EveryItem (OnMaps Items.HasNoNaN) items →
    encodeAll inner items = .ok data →
    ∃ parts : List (Bytes × Term), ReorderedList items (parts.map (·.2)) ∧
      parts.flatMap (·.1) = data ∧ ∀ part ∈ parts, Reads (decodeWithin levels) part.1 part.2
  | [], levels, depth, inner, data, _, _, _, _, h => by
    cases h
    exact ⟨[], trivial, rfl, by simp⟩
  | t :: rest, levels, depth, inner, data, hlevels, hstorable, hvalue, hkeys, h => by
    obtain ⟨front, back, hfront, hback, rfl⟩ := encodeAll_cons_eq_ok_iff.1 h
    rw [allStorableAt, Bool.and_eq_true] at hstorable
    obtain ⟨t', hsame, hreads⟩ := exists_reads_of_encodeAt t levels depth inner front hlevels
      hstorable.1 hvalue.1 hkeys.1 hfront
    obtain ⟨parts, hrest, rfl, hparts⟩ := exists_parts_of_encodeAll rest levels depth inner back
      hlevels hstorable.2 hvalue.2 hkeys.2 hback
    refine ⟨(front, t') :: parts, ⟨hsame, hrest⟩, by simp, ?_⟩
    intro part hpart
    rcases List.mem_cons.1 hpart with rfl | hpart
    · exact hreads
    · exact hparts part hpart

theorem forall_writtenAs_of_encodeItems : ∀ (items : Items) (levels depth inner : Nat)
    (encoded : List EncodedItem), levels + depth = maxDepth + 1 →
    itemsStorableAt depth items = true → (∀ item ∈ items, item.1.isHashable = true) →
    EveryPair (OnMaps Items.IsDict) items → EveryPair (OnMaps Items.HasNoNaN) items →
    encodeItems inner items = .ok encoded → List.Forall₂ (WrittenAs levels) encoded items
  | [], levels, depth, inner, encoded, _, _, _, _, _, h => by
    cases h
    exact .nil
  | (key, value) :: rest, levels, depth, inner, encoded, hlevels, hstorable, hhashable, hvalue,
      hkeys, h => by
    obtain ⟨front, back, hfront, hback, rfl⟩ := encodeItems_cons_eq_ok_iff.1 h
    rw [itemsStorableAt, Bool.and_eq_true, Bool.and_eq_true] at hstorable
    obtain ⟨key', hkey, hreads⟩ := exists_reads_of_encodeAt key levels depth 0 front hlevels
      hstorable.1.1 hvalue.1 hkeys.1 hfront
    have hhash := hhashable (key, value) List.mem_cons_self
    rw [← Reordered.eq_of_isHashable key key' hkey hhash] at hreads
    refine .cons ⟨hreads, hhash, ?_⟩ (forall_writtenAs_of_encodeItems rest levels depth inner back
      hlevels hstorable.2 (fun item hitem => hhashable item (List.mem_cons_of_mem _ hitem))
      hvalue.2.2 hkeys.2.2 hback)
    intro data hdata
    exact exists_reads_of_encodeAt value levels depth inner data hlevels hstorable.1.2 hvalue.2.1
      hkeys.2.1 hdata

end

/-- What a value is encoded as is read back, wherever it stands among other bytes, and the
reader is left behind its last byte. -/
theorem run_decode_of_encode {t : Term} {data : Bytes} (hvalue : t.IsValue)
    (hstorable : t.isStorable = true) (hnumbers : t.HasNoNaNKey) (h : t.encode = .ok data) :
    ∃ t', Reordered t t' ∧ ∀ front back : Bytes,
      decode.run (Reader.ofBytes (front ++ data ++ back) front.length)
        = (.ok t', Reader.ofBytes (front ++ data ++ back) (front.length + data.length)) := by
  obtain ⟨t', hsame, hreads⟩ := exists_reads_of_encodeAt t (maxDepth + 1) 0 0 data rfl hstorable
    hvalue hnumbers h
  refine ⟨t', hsame, ?_⟩
  intro front back
  have hrun := hreads front back
  rwa [← List.append_assoc] at hrun

/-- A map with keys of many kinds, which do not stand in the order of their bytes, and with
what is not a number as a value. -/
def sampleTerm : Term :=
  .map [(.atom "k", .map [(.text "b", .none), (.text "a", .tagged [0xFF] "latin1")]),
    (.tuple [.bool true, .text "k"], .list [.tuple [], .float 0x7FF8000000000001]),
    (.int (-129), .bytes [0x6B]), (.float 0x3FE0000000000000, .atom "k")]

theorem run_decode_of_encode_sampleTerm :
    sampleTerm.IsValue ∧ sampleTerm.isStorable = true ∧ sampleTerm.HasNoNaNKey ∧
      ∃ data t', sampleTerm.encode = .ok data ∧ Reordered sampleTerm t' ∧
        decode.run (Reader.ofBytes ([0x0B] ++ data ++ [0x00]) 1)
          = (.ok t', Reader.ofBytes ([0x0B] ++ data ++ [0x00]) (1 + data.length)) := by
  have hvalue : sampleTerm.IsValue := by decide_cbv
  have hstorable : sampleTerm.isStorable = true := by cbv
  have hnumbers : sampleTerm.HasNoNaNKey := by decide_cbv
  obtain ⟨data, hdata⟩ : ∃ data, sampleTerm.encode = .ok data := Result.exists_of_isOk (by cbv)
  obtain ⟨t', hsame, hrun⟩ := run_decode_of_encode hvalue hstorable hnumbers hdata
  exact ⟨hvalue, hstorable, hnumbers, data, t', hdata, hsame, hrun [0x0B] [0x00]⟩

/-! ## What is read can be stored -/

/-- What is read nests no deeper than there are levels to read. -/
theorem gives_decodeWithin (levels depth : Nat) (hlevels : levels + depth = maxDepth + 1) :
    Gives (decodeWithin levels) fun t => isStorableAt depth t = true := by
  induction levels generalizing depth with
  | zero => exact Gives.throw _
  | succ levels ih =>
    have hdepth : ¬ maxDepth < depth := by omega
    have hinner := ih (depth + 1) (by omega)
    have hitem : Gives (decodeItem (decodeWithin levels)) fun item =>
        isStorableAt (depth + 1) item.1 = true ∧ isStorableAt (depth + 1) item.2 = true := by
      refine Gives.bind hinner fun key hkey => Gives.bind hinner fun value hvalue => ?_
      split
      · exact Gives.pure ⟨hkey, hvalue⟩
      · exact Gives.throw _
    refine Gives.bind (Gives.any _) fun tag _ => ?_
    split
    case h_1 | h_2 | h_3 => exact Gives.pure (by simp [isStorableAt, hdepth])
    case h_4 =>
      refine Gives.bind (Gives.any _) fun width _ => Gives.bind (Gives.any _) fun data _ => ?_
      exact Gives.pure (by simp [isStorableAt, hdepth])
    case h_5 | h_6 | h_7 | h_8 =>
      exact Gives.bind (Gives.any _) fun a _ => Gives.pure (by simp [isStorableAt, hdepth])
    case h_9 =>
      refine Gives.bind (Gives.any _) fun encoding _ => Gives.bind (Gives.any _) fun data _ => ?_
      exact Gives.pure (by simp [isStorableAt, hdepth])
    case h_10 | h_11 =>
      refine Gives.bind (Gives.any _) fun count _ =>
        Gives.bind (Gives.repeatRead hinner (by simp) count) fun items hitems => Gives.pure ?_
      simpa [isStorableAt, hdepth, allStorableAt_iff] using hitems
    case h_12 =>
      refine Gives.bind (Gives.any _) fun count _ =>
        Gives.bind (Gives.repeatRead hitem (by simp) count) fun items hitems => Gives.pure ?_
      rw [isStorableAt, if_neg hdepth, itemsStorableAt_iff]
      exact Items.forall_ofPairs (K := fun t => isStorableAt (depth + 1) t = true)
        (V := fun t => isStorableAt (depth + 1) t = true) hitems
    case h_13 => exact Gives.bind (Gives.any _) fun _ _ => Gives.throw _

end ModuleDocs.Term
