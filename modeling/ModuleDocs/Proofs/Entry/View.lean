import Mathlib
import ModuleDocs.Chunk.Load
import ModuleDocs.Chunk.Query
import ModuleDocs.Entry.View
import ModuleDocs.Proofs.Chunk.Decoded
import ModuleDocs.Proofs.Collector.Errors
import ModuleDocs.Proofs.Order.Sort

/-!
# Which entries can be shown

Whatever bytes are read as a chunk, the metadata of its entries can be shown, as long as its
numbers can be written in decimal digits.  The authored text need not be UTF-8: nothing looks at
its bytes before it is asked for.  `Chunk.isShown_or_isGarbled` says of each entry of a chunk that
either all its views can be made, or its text is not UTF-8 and all of them fail with that.

* `Term.exists_simplify` and `Term.exists_toJson` make metadata plain and write it as JSON.
  `Term.IsJson` is what the one leaves and the other needs.
* `Entry.exists_sortByKey` puts items in order whose keys are texts.
-/

namespace ModuleDocs

open Result

/-! ## Plain terms -/

namespace Term

/-- The term is of a kind that JSON has, and if it is a number, it can be written. -/
def IsJson : Term → Prop
  | .none | .bool _ | .float _ | .text _ | .list _ | .map _ => True
  | .int i => i.natAbs < Nat.pow 10 Decimal.maxDigits
  | .bytes _ | .atom _ | .tagged _ _ | .tuple _ | .funRef _ _ | .foreign _ => False

theorem IsJson.isShort {t : Term} (h : t.IsJson) : t.IsShort := by
  cases t <;> first | exact h | exact trivial | exact h.elim

/-- A term without long numbers can be written as running text. -/
theorem exists_plain {t : Term} (h : t.Every IsShort) : ∃ name, t.plain = .ok name := by
  unfold plain
  split
  · exact ⟨_, rfl⟩
  · exact exists_display t h

mutual

/-- What can be stored can be made plain. -/
theorem exists_simplify : ∀ (t : Term) (depth : Nat), t.Every IsShort →
    isStorableAt depth t = true → ∃ plain, t.simplify = .ok plain ∧ plain.Every IsJson
  | .none, _, _, _ | .bool _, _, _, _ | .float _, _, _, _ | .bytes _, _, _, _ | .text _, _, _, _
  | .atom _, _, _, _ => ⟨_, rfl, trivial⟩
  | .int _, _, h, _ => ⟨_, rfl, h⟩
  | .tagged _ _, _, _, _ => ⟨_, rfl, trivial, trivial, trivial, trivial, trivial, trivial⟩
  | .list items, _, h, hstorable => by
    obtain ⟨plain, hplain, hevery⟩ := exists_simplifyAll items _ h.2 (storableAt_list hstorable)
    exact ⟨.list plain, bind_pure_eq_ok_iff.2 ⟨plain, hplain, rfl⟩, trivial, hevery⟩
  | .tuple items, _, h, hstorable => by
    obtain ⟨plain, hplain, hevery⟩ := exists_simplifyAll items _ h.2 (storableAt_tuple hstorable)
    exact ⟨.list plain, bind_pure_eq_ok_iff.2 ⟨plain, hplain, rfl⟩, trivial, hevery⟩
  | .map items, _, h, hstorable => by
    obtain ⟨plain, hplain, hevery⟩ := exists_simplifyItems items _ h.2 (storableAt_map hstorable)
    refine ⟨.map (Items.ofPairs plain), bind_pure_eq_ok_iff.2 ⟨plain, hplain, rfl⟩, trivial, ?_⟩
    exact everyPair_iff.2 (Items.forall_ofPairs (everyPair_iff.1 hevery))
  | .funRef _ _, _, _, hstorable | .foreign _, _, _, hstorable => by
    simp [isStorableAt] at hstorable

theorem exists_simplifyAll : ∀ (items : List Term) (depth : Nat), EveryItem IsShort items →
    allStorableAt depth items = true →
    ∃ plain, simplifyAll items = .ok plain ∧ EveryItem IsJson plain
  | [], _, _, _ => ⟨[], rfl, trivial⟩
  | t :: rest, depth, h, hstorable => by
    rw [allStorableAt, Bool.and_eq_true] at hstorable
    obtain ⟨first, hfirst, hone⟩ := exists_simplify t depth h.1 hstorable.1
    obtain ⟨others, hothers, hall⟩ := exists_simplifyAll rest depth h.2 hstorable.2
    exact ⟨first :: others,
      bind_eq_ok_iff.2 ⟨first, hfirst, bind_pure_eq_ok_iff.2 ⟨others, hothers, rfl⟩⟩, hone, hall⟩

theorem exists_simplifyItems : ∀ (items : Items) (depth : Nat), EveryPair IsShort items →
    itemsStorableAt depth items = true →
    ∃ plain, simplifyItems items = .ok plain ∧ EveryPair IsJson plain
  | [], _, _, _ => ⟨[], rfl, trivial⟩
  | (key, value) :: rest, depth, h, hstorable => by
    rw [itemsStorableAt, Bool.and_eq_true, Bool.and_eq_true] at hstorable
    obtain ⟨plainKey, hkey, hkeyJson⟩ := exists_simplify key depth h.1 hstorable.1.1
    obtain ⟨name, hname⟩ := exists_plain (Every.imp (fun _ ht => ht.isShort) plainKey hkeyJson)
    obtain ⟨plain, hplain, hjson⟩ := exists_simplify value depth h.2.1 hstorable.1.2
    obtain ⟨others, hothers, hall⟩ := exists_simplifyItems rest depth h.2.2 hstorable.2
    exact ⟨(.text name, plain) :: others,
      bind_eq_ok_iff.2 ⟨plainKey, hkey, bind_eq_ok_iff.2 ⟨name, hname,
        bind_eq_ok_iff.2 ⟨plain, hplain, bind_pure_eq_ok_iff.2 ⟨others, hothers, rfl⟩⟩⟩⟩,
      trivial, hjson, hall⟩

end

mutual

/-- A plain term stays one when its items are put in order. -/
theorem every_sortItems : ∀ t : Term, t.Every IsJson → t.sortItems.Every IsJson
  | .list items, h => ⟨trivial, every_sortItemsAll items h.2⟩
  | .map items, h => by
    refine ⟨trivial, everyPair_iff.2 fun item hitem => ?_⟩
    exact everyPair_iff.1 (every_sortItemsValues items h.2) item (List.mem_mergeSort.1 hitem)
  | .none, _ | .bool _, _ | .float _, _ | .text _, _ => trivial
  | .int _, h => h
  | .tuple _, h => h.1.elim
  | .bytes _, h | .atom _, h | .tagged _ _, h | .funRef _ _, h | .foreign _, h => h.elim

theorem every_sortItemsAll : ∀ items : List Term, EveryItem IsJson items →
    EveryItem IsJson (sortItemsAll items)
  | [], _ => trivial
  | t :: rest, h => ⟨every_sortItems t h.1, every_sortItemsAll rest h.2⟩

theorem every_sortItemsValues : ∀ items : Items, EveryPair IsJson items →
    EveryPair IsJson (sortItemsValues items)
  | [], _ => trivial
  | (_, value) :: rest, h => ⟨h.1, every_sortItems value h.2.1, every_sortItemsValues rest h.2.2⟩

end

mutual

/-- A plain term is a JSON value. -/
theorem exists_toJson : ∀ t : Term, t.Every IsJson → ∃ j, t.toJson = .ok j
  | .none, _ | .bool _, _ | .float _, _ | .text _, _ => ⟨_, rfl⟩
  | .int i, h => by
    obtain ⟨digits, hdigits⟩ := exists_write h
    exact ⟨.int i, bind_pure_eq_ok_iff.2 ⟨digits, mapError_eq_ok_iff.2 hdigits, rfl⟩⟩
  | .list items, h => by
    obtain ⟨js, hjs⟩ := exists_toJsonAll items h.2
    exact ⟨.array js, bind_pure_eq_ok_iff.2 ⟨js, hjs, rfl⟩⟩
  | .map items, h => by
    obtain ⟨members, hmembers⟩ := exists_toJsonItems items h.2
    exact ⟨.object members, bind_pure_eq_ok_iff.2 ⟨members, hmembers, rfl⟩⟩
  | .tuple _, h => h.1.elim
  | .bytes _, h | .atom _, h | .tagged _ _, h | .funRef _ _, h | .foreign _, h => h.elim

theorem exists_toJsonAll : ∀ items : List Term, EveryItem IsJson items →
    ∃ js, toJsonAll items = .ok js
  | [], _ => ⟨[], rfl⟩
  | t :: rest, h => by
    obtain ⟨j, hj⟩ := exists_toJson t h.1
    obtain ⟨js, hjs⟩ := exists_toJsonAll rest h.2
    exact ⟨j :: js, bind_eq_ok_iff.2 ⟨j, hj, bind_pure_eq_ok_iff.2 ⟨js, hjs, rfl⟩⟩⟩

theorem exists_toJsonItems : ∀ items : Items, EveryPair IsJson items →
    ∃ members, toJsonItems items = .ok members
  | [], _ => ⟨[], rfl⟩
  | (key, value) :: rest, h => by
    obtain ⟨j, hj⟩ := exists_toJson value h.2.1
    obtain ⟨members, hmembers⟩ := exists_toJsonItems rest h.2.2
    exact ⟨(key.keyText, j) :: members,
      bind_eq_ok_iff.2 ⟨j, hj, bind_pure_eq_ok_iff.2 ⟨members, hmembers, rfl⟩⟩⟩

end

end Term

/-! ## Entries -/

namespace Entry

/-- Items with texts for keys can be sorted by these. -/
theorem exists_sortByKey {items : Items} (htexts : ∀ item ∈ items, ∃ t, item.1 = Term.text t) :
    ∃ sorted, Ascending.sort (fun a b => Term.less a.1 b.1) items = .ok sorted ∧
      ∀ item ∈ sorted, item ∈ items := by
  have hless (a b : Term × Term) (ha : a ∈ items) (hb : b ∈ items) :
      FailsWith (fun _ => False) (Term.less a.1 b.1) := by
    obtain ⟨s, hs⟩ := htexts a ha
    obtain ⟨t, ht⟩ := htexts b hb
    rw [hs, ht]
    exact FailsWith.ok _
  have hmeets := Ascending.sort_meets hless fun item hitem => hitem
  cases hsort : Ascending.sort (fun a b => Term.less a.1 b.1) items with
  | ok sorted => exact ⟨sorted, rfl, hmeets.gives sorted hsort⟩
  | error pair => exact (hmeets.failsWith pair hsort).elim

/-- Items that can be stored can be shown line by line. -/
theorem exists_renderItems {depth : Nat} {items : Items} (h : Term.EveryPair Term.IsShort items)
    (hstorable : Term.itemsStorableAt depth items = true) :
    ∃ lines, renderItems items = .ok lines := by
  induction items with
  | nil => exact ⟨[], rfl⟩
  | cons item rest ih =>
    rw [Term.itemsStorableAt, Bool.and_eq_true, Bool.and_eq_true] at hstorable
    obtain ⟨name, hname⟩ := Term.exists_plain h.1
    obtain ⟨plain, hplain, hjson⟩ := Term.exists_simplify item.2 depth h.2.1 hstorable.1.2
    obtain ⟨j, hj⟩ := Term.exists_toJson plain hjson
    obtain ⟨others, hothers⟩ := ih h.2.2 hstorable.2
    exact ⟨_, bind_eq_ok_iff.2 ⟨name, mapError_eq_ok_iff.2 hname,
      bind_eq_ok_iff.2 ⟨plain, mapError_eq_ok_iff.2 hplain,
        bind_eq_ok_iff.2 ⟨j, hj, bind_pure_eq_ok_iff.2 ⟨others, hothers, rfl⟩⟩⟩⟩⟩

/-- All views of the entry can be made. -/
structure IsShown (e : Entry) : Prop where
  text : ∃ text?, e.text? = .ok text?
  plain : ∃ t, e.simplify = .ok t
  json : ∃ j, e.toJson = .ok j
  lines : ∃ shown, e.render = .ok shown

/-- The text of the entry is not UTF-8, and no view of it can be made. -/
structure IsGarbled (e : Entry) (fault : Utf8.Malformed) : Prop where
  content : ∃ data, e.content = .authored (.bytes data) ∧ Utf8.decode data = .error fault
  text : e.text? = .error fault
  plain : e.simplify = .error (.textNotUtf8 fault)
  json : e.toJson = .error (.textNotUtf8 fault)
  lines : e.render = .error (.textNotUtf8 fault)

/-- A number that fits in four bytes can be written in decimal digits. -/
theorem isJson_of_bounds {i : Int} (hlow : 0 ≤ i) (hhigh : i ≤ 0xFFFFFFFF) :
    (Term.int i).IsJson := by
  have hten : i.natAbs < 10 ^ 10 := by omega
  have hpow (digits : Nat) (hdigits : 10 ≤ digits) : 10 ^ 10 ≤ Nat.pow 10 digits :=
    Nat.pow_le_pow_right (by norm_num) hdigits
  exact hten.trans_le (hpow Decimal.maxDigits (by decide))

variable {e : Entry}

theorem IsGarbled.of_content {data : Bytes} {fault : Utf8.Malformed}
    (hcontent : e.content = .authored (.bytes data)) (hfault : Utf8.decode data = .error fault) :
    e.IsGarbled fault := by
  have htext : e.text? = .error fault := by
    rw [text?, hcontent]
    exact map_eq_error_iff.2 hfault
  have herror : e.text?.mapError ViewError.textNotUtf8 = .error (.textNotUtf8 fault) := by
    rw [htext]
    rfl
  have hplain : e.simplify = .error (.textNotUtf8 fault) := by
    refine bind_eq_error_iff.2 (Or.inl ?_)
    rw [simplifyContent, hcontent]
    exact bind_eq_error_iff.2 (Or.inl herror)
  refine ⟨⟨data, hcontent, hfault⟩, htext, hplain, bind_eq_error_iff.2 (Or.inl hplain), ?_⟩
  refine bind_eq_error_iff.2 (Or.inl ?_)
  rw [renderContent, hcontent]
  exact bind_eq_error_iff.2 (Or.inl herror)

/-- The content of an entry whose text can be read is shown. -/
theorem exists_content {text? : Option Text} (h : e.text? = .ok text?) :
    (∃ t, e.simplifyContent = .ok t ∧ t.Every Term.IsJson) ∧
      ∃ lines, e.renderContent = .ok lines := by
  have htext : e.text?.mapError ViewError.textNotUtf8 = .ok text? := mapError_eq_ok_iff.2 h
  unfold simplifyContent renderContent
  cases e.content with
  | undocumented | hidden | foreign value =>
    exact ⟨⟨_, rfl, trivial, trivial, trivial, trivial⟩, _, rfl⟩
  | authored text =>
    refine ⟨⟨_, bind_pure_eq_ok_iff.2 ⟨text?, htext, rfl⟩, trivial, trivial, trivial, trivial, ?_⟩,
      _, bind_pure_eq_ok_iff.2 ⟨text?, htext, rfl⟩⟩
    cases text? with
    | none => exact ⟨trivial, trivial⟩
    | some text => exact ⟨trivial, trivial⟩

/-- An entry that was read is shown, if its text can be read too. -/
theorem IsDecoded.isShown (h : e.IsDecoded) (hshort : (Term.map e.metadata).Every Term.IsShort)
    {text? : Option Text} (htext : e.text? = .ok text?) : e.IsShown := by
  have hitems := Term.storableAt_map h.storable
  obtain ⟨⟨content, hcontent, hcontentJson⟩, lines, hlines⟩ := exists_content htext
  obtain ⟨metadata, hmetadata, hmetadataJson⟩ := Term.exists_simplify _ 0 hshort h.storable
  have harity : (Term.int e.ref.arity).IsJson :=
    isJson_of_bounds h.arity.1 (h.arity.2.trans (by norm_num))
  have hline : (Term.int e.line).IsJson := isJson_of_bounds h.line.1 h.line.2
  have hplain : ∃ t, e.simplify = .ok t ∧ t.Every Term.IsJson :=
    ⟨_, bind_eq_ok_iff.2 ⟨content, hcontent, bind_pure_eq_ok_iff.2
      ⟨metadata, mapError_eq_ok_iff.2 hmetadata, rfl⟩⟩, trivial, trivial, trivial, trivial, trivial,
      trivial, harity, trivial, hline, trivial, hcontentJson, trivial, hmetadataJson, trivial⟩
  obtain ⟨plain, hplain, hjson⟩ := hplain
  obtain ⟨j, hj⟩ := Term.exists_toJson _ (Term.every_sortItems plain hjson)
  obtain ⟨sorted, hsorted, hsubset⟩ := exists_sortByKey h.texts
  have hsortedShort : Term.EveryPair Term.IsShort sorted := Term.everyPair_iff.2 fun item hitem =>
    Term.everyPair_iff.1 hshort.2 item (hsubset item hitem)
  have hsortedItems : Term.itemsStorableAt 1 sorted = true :=
    Term.itemsStorableAt_iff.2 fun item hitem =>
      Term.itemsStorableAt_iff.1 hitems item (hsubset item hitem)
  obtain ⟨others, hothers⟩ := exists_renderItems hsortedShort hsortedItems
  exact {
    text := ⟨text?, htext⟩
    plain := ⟨plain, hplain⟩
    json := ⟨j, bind_eq_ok_iff.2 ⟨plain, hplain, hj⟩⟩
    lines := ⟨_, bind_eq_ok_iff.2 ⟨lines, hlines, bind_eq_ok_iff.2
      ⟨sorted, mapError_eq_ok_iff.2 hsorted, bind_pure_eq_ok_iff.2 ⟨others, hothers, rfl⟩⟩⟩⟩ }

end Entry

/-! ## Chunks -/

namespace Chunk

theorem mem_of_mem_list {c : Chunk} {kind? : Option EntityKind} {e : Entry}
    (h : e ∈ c.list kind?) : e ∈ c.module :: c.entries := by
  unfold list at h
  split at h
  · exact h
  · exact (List.mem_filter.1 h).1

theorem ofBytes_eq_ok_iff {data : Bytes} {c : Chunk} :
    ofBytes data = .ok c ↔ decode data = .ok c := by
  unfold ofBytes
  cases decode data with
  | ok c' => simp
  | error refusal => cases refusal <;> simp

/-- Whatever bytes are read as a chunk, each of its entries is shown in all views, or it has an
authored text that is not UTF-8 and is shown in none. -/
theorem isShown_or_isGarbled {data : Bytes} {c : Chunk} (h : ofBytes data = .ok c)
    {kind? : Option EntityKind} {e : Entry} (he : e ∈ c.list kind?)
    (hshort : (Term.map e.metadata).Every Term.IsShort) :
    e.IsShown ∨ ∃ fault, e.IsGarbled fault := by
  have hdecoded := isDecoded_of_decode (ofBytes_eq_ok_iff.1 h) e (mem_of_mem_list he)
  cases htext : e.text? with
  | ok text? => exact Or.inl (hdecoded.isShown hshort htext)
  | error fault =>
    refine Or.inr ⟨fault, ?_⟩
    unfold Entry.text? at htext
    split at htext
    · exact Entry.IsGarbled.of_content ‹_› (map_eq_error_iff.1 htext)
    · cases htext

/-- A chunk of two entries.  The text of the module is a byte that UTF-8 does not have, that of a
function is one letter. -/
def garbledChunk : Bytes :=
  [0x44, 0x4F, 0x43, 0x43, 1, 0, 0, 0, 0, 0,
    0, 1, 0, 0x6D, 0, 0, 1, 0, 0, 0, 1, 1, 0, 0, 0, 0xFF, 11, 0, 0, 0, 0, 1, 0, 0, 0,
    1, 1, 0, 0x66, 0, 0, 1, 0, 0, 0, 1, 1, 0, 0, 0, 0x78,
    11, 1, 0, 0, 0, 6, 1, 0, 0, 0, 0x6B, 3, 1, 0, 7]

def garbledEntry : Entry := ⟨⟨.module, "m", 0⟩, .authored (.bytes [0xFF]), [], true, 1⟩

def plainEntry : Entry :=
  ⟨⟨.function, "f", 0⟩, .authored (.bytes [0x78]), [(.text "k", .int 7)], true, 1⟩

/-- The module of the chunk is shown in no view, and its function in all. -/
theorem isShown_or_isGarbled_garbledChunk :
    ofBytes garbledChunk = .ok ⟨1, [], garbledEntry, [plainEntry]⟩ ∧
      (∃ fault, garbledEntry.IsGarbled fault) ∧ plainEntry.IsShown := by
  have hchunk : ofBytes garbledChunk = .ok ⟨1, [], garbledEntry, [plainEntry]⟩ := by cbv
  refine ⟨hchunk, ?_, ?_⟩
  · have hmem : garbledEntry ∈ Chunk.list ⟨1, [], garbledEntry, [plainEntry]⟩ none :=
      List.mem_cons_self
    refine (isShown_or_isGarbled hchunk hmem ⟨trivial, trivial⟩).resolve_left fun hshown => ?_
    obtain ⟨text?, htext⟩ := hshown.text
    have hfault : garbledEntry.text?.isOk = false := by cbv
    rw [htext] at hfault
    cases hfault
  · have hseven : (Term.int 7).IsShort :=
      (Entry.isJson_of_bounds (i := 7) (by norm_num) (by norm_num)).isShort
    have hmem : plainEntry ∈ Chunk.list ⟨1, [], garbledEntry, [plainEntry]⟩ (some .function) :=
      List.mem_cons_self
    refine (isShown_or_isGarbled hchunk hmem ⟨trivial, trivial, hseven, trivial⟩).resolve_right ?_
    rintro ⟨fault, hgarbled⟩
    have htext : plainEntry.text? = .ok (some "x") := by cbv
    rw [hgarbled.text] at htext
    cases htext

end Chunk

end ModuleDocs
