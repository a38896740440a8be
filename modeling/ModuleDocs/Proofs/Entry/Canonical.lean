import Mathlib
import ModuleDocs.Normalize
import ModuleDocs.Proofs.Lists
import ModuleDocs.Proofs.Result
import ModuleDocs.Proofs.Text.Decoding

/-!
# The normal form is canonical

`Term.StandsFor t chars` says which text a value stands for, whether it comes as code points, as
bytes or as bytes with the name of an encoding.  Normalizing replaces a value by the UTF-8 bytes
of its text (`Term.normalizeText_eq_ok_iff`), and `Term.HasNormal` says what becomes of a metadata
value: it depends on its key and on nothing else (`Term.normalizeValue_eq_ok_iff`).

A normal value is its own normal form (`Term.HasNormal.self`), and so is a normal entry, whatever
the source that its errors would be about (`Entry.normalize_canonical`).
-/

namespace ModuleDocs

open Result

/-! ## Texts -/

namespace Term

/-- The text that a value stands for. -/
inductive StandsFor : Term → Text → Prop
  | text (chars : Text) : StandsFor (.text chars) chars
  | atom (chars : Text) : StandsFor (.atom chars) chars
  | bytes {data : Bytes} {chars : Text} (h : Utf8.decode data = .ok chars) :
    StandsFor (.bytes data) chars
  | utf8 {data : Bytes} {encoding chars : Text}
    (hname : utf8Names.contains (Text.toLower encoding) = true) (h : Utf8.decode data = .ok chars) :
    StandsFor (.tagged data encoding) chars
  | latin1 (data : Bytes) {encoding : Text}
    (hname : latin1Names.contains (Text.toLower encoding) = true) :
    StandsFor (.tagged data encoding) (Utf8.ofLatin1 data)

/-- The bytes are the UTF-8 of the text that the value stands for. -/
def HasBytes (t : Term) (data : Bytes) : Prop :=
  ∃ chars, t.StandsFor chars ∧ Utf8.decode data = .ok chars

variable {t value normal key : Term} {data : Bytes} {chars : Text} {schema : Schema}

theorem standsFor_bytes_iff : (Term.bytes data).StandsFor chars ↔ Utf8.decode data = .ok chars :=
  ⟨fun | .bytes h => h, .bytes⟩

/-- Bytes without a name of an encoding are read as UTF-8. -/
theorem standsFor_utf8_iff :
    (Term.tagged data "utf8").StandsFor chars ↔ (Term.bytes data).StandsFor chars := by
  constructor
  · intro h
    cases h with
    | utf8 _ hdecode => exact .bytes hdecode
    | latin1 _ hname => exact absurd hname (by decide)
  · intro h
    exact .utf8 (by decide) (standsFor_bytes_iff.1 h)

/-- UTF-8 bytes have themselves as their bytes. -/
theorem HasBytes.self (h : t.HasBytes data) : (Term.bytes data).HasBytes data := by
  obtain ⟨chars, _, hdata⟩ := h
  exact ⟨chars, .bytes hdata, hdata⟩

/-- No name of Latin-1 is one of UTF-8. -/
theorem not_utf8_of_latin1 {name : Text} (h : latin1Names.contains name = true) :
    utf8Names.contains name = false := by
  have hall : ∀ name ∈ latin1Names, utf8Names.contains name = false := by decide
  exact hall name (List.contains_iff_mem.1 h)

/-- Bytes with an encoding become the bytes of their text. -/
theorem normalizeTagged_eq_ok_iff {encoding : Text} {out : Bytes} :
    normalizeTagged data encoding = .ok out ↔
      (Term.tagged data encoding).HasBytes out := by
  unfold normalizeTagged
  dsimp only
  constructor
  · intro h
    split at h
    · rename_i hname
      split at h
      · rename_i chars hdecode
        cases h
        exact ⟨chars, .utf8 hname hdecode, hdecode⟩
      · cases h
    · split at h
      · rename_i hname
        cases h
        exact ⟨_, .latin1 data hname, Utf8.decode_encodeAll (Utf8.isEncodable_ofLatin1 data)⟩
      · cases h
  · rintro ⟨chars, hstands, hout⟩
    have hencode := Utf8.encode_of_decode hout
    cases hstands with
    | utf8 hname hdecode =>
      have hsame : data = out := Except.ok.inj ((Utf8.encode_of_decode hdecode).symm.trans hencode)
      rw [if_pos hname, hdecode, hsame]
    | latin1 _ hname =>
      rw [if_neg (by rw [not_utf8_of_latin1 hname]; nofun), if_pos hname]
      rw [(Utf8.encode_eq_ok_iff.1 hencode).2]

/-- A value becomes the UTF-8 bytes of the text that it stands for. -/
theorem normalizeText_eq_ok_iff :
    t.normalizeText = .ok data ↔ t.HasBytes data := by
  have hpoints (chars : Text) : (Term.text chars).normalizeText = .ok data ↔
      Utf8.decode data = .ok chars := by
    rw [normalizeText]
    constructor
    · intro h
      split at h
      · rename_i hencode
        cases h
        exact Utf8.decode_of_encode hencode
      · cases h
    · intro h
      rw [Utf8.encode_of_decode h]
  cases t with
  | text chars =>
    refine (hpoints chars).trans ⟨fun h => ⟨chars, .text chars, h⟩, ?_⟩
    rintro ⟨_, ⟨⟩, h⟩
    exact h
  | atom chars =>
    refine (hpoints chars).trans ⟨fun h => ⟨chars, .atom chars, h⟩, ?_⟩
    rintro ⟨_, ⟨⟩, h⟩
    exact h
  | bytes raw =>
    simp only [HasBytes, ← standsFor_utf8_iff]
    exact @normalizeTagged_eq_ok_iff raw "utf8" data
  | tagged raw encoding => exact normalizeTagged_eq_ok_iff
  | _ =>
    constructor
    · nofun
    · rintro ⟨_, ⟨⟩, _⟩

/-- Values become bytes one by one. -/
theorem normalizeTexts_eq_ok_iff {items texts : List Term} :
    normalizeTexts items = .ok texts ↔
      ∃ parts : List Bytes, texts = parts.map .bytes ∧ List.Forall₂ HasBytes items parts := by
  induction items generalizing texts with
  | nil =>
    constructor
    · rintro ⟨⟩
      exact ⟨[], rfl, .nil⟩
    · rintro ⟨_, rfl, ⟨⟩⟩
      rfl
  | cons item rest ih =>
    rw [normalizeTexts, bind_eq_ok_iff]
    simp only [bind_pure_eq_ok_iff, ih, normalizeText_eq_ok_iff]
    constructor
    · rintro ⟨data, hdata, _, ⟨parts, rfl, hparts⟩, rfl⟩
      exact ⟨data :: parts, rfl, .cons hdata hparts⟩
    · rintro ⟨_, rfl, _ | ⟨hdata, hparts⟩⟩
      exact ⟨_, hdata, _, ⟨_, rfl, hparts⟩, rfl⟩

/-! ## Metadata values -/

/-- What a metadata value becomes under its key. -/
inductive HasNormal (schema : Schema) (key value : Term) : Term → Prop
  | text {name : Text} {data : Bytes} (hkey : key.chars? = some name)
    (hshape : schema.get? name = some .text) (htext : value.isText = true)
    (hdata : value.HasBytes data) :
    HasNormal schema key value (.bytes data)
  | textList {name : Text} {items : List Term} {parts : List Bytes} (hkey : key.chars? = some name)
    (hshape : schema.get? name = some .textList) (hvalue : value = .list items ∨ value = .tuple items)
    (htexts : ∀ item ∈ items, item.isText = true)
    (hparts : List.Forall₂ HasBytes items parts) :
    HasNormal schema key value (.tuple (parts.map .bytes))
  | free (hkey : ∀ name, key.chars? = some name → schema.get? name = Option.none)
    (hstorable : value.isStorable = true)
    (hencodable : key.isEncodable = true ∧ value.isEncodable = true) :
    HasNormal schema key value value

theorem normalizeShaped_text_eq_ok_iff {name : Text} {span : Span} :
    normalizeShaped name .text value span = .ok normal ↔ value.isText = true ∧
      ∃ data, normal = .bytes data ∧ value.HasBytes data := by
  unfold normalizeShaped
  dsimp only
  by_cases htext : value.isText = true
  · simp only [htext, if_true, mapError_eq_ok_iff, map_eq_ok_iff, normalizeText_eq_ok_iff]
    constructor
    · rintro ⟨data, hdata, rfl⟩
      exact ⟨trivial, data, rfl, hdata⟩
    · rintro ⟨_, data, rfl, hdata⟩
      exact ⟨data, hdata, rfl⟩
  · simp [htext]

theorem normalizeShaped_textList_eq_ok_iff {name : Text} {span : Span} :
    normalizeShaped name .textList value span = .ok normal ↔
      ∃ items, (value = .list items ∨ value = .tuple items) ∧ (∀ item ∈ items, item.isText = true) ∧
        ∃ parts : List Bytes, normal = .tuple (parts.map .bytes) ∧
          List.Forall₂ HasBytes items parts := by
  have hitems (items : List Term) (wrong : NormalizeError) (inText : TextError → NormalizeError) :
      (if items.all isText = true then
        (normalizeTexts items |>.map Term.tuple).mapError inText else .error wrong) = .ok normal ↔
        (∀ item ∈ items, item.isText = true) ∧
          ∃ parts : List Bytes, normal = .tuple (parts.map .bytes) ∧
            List.Forall₂ HasBytes items parts := by
    rw [← List.all_eq_true]
    by_cases hall : items.all isText = true
    · simp only [hall, if_true, mapError_eq_ok_iff, map_eq_ok_iff, normalizeTexts_eq_ok_iff]
      constructor
      · rintro ⟨_, ⟨parts, rfl, hparts⟩, rfl⟩
        exact ⟨trivial, parts, rfl, hparts⟩
      · rintro ⟨_, parts, rfl, hparts⟩
        exact ⟨_, ⟨parts, rfl, hparts⟩, rfl⟩
    · simp only [hall]
      exact ⟨nofun, fun h => absurd h.1 nofun⟩
  unfold normalizeShaped
  dsimp only
  cases value with
  | list items =>
    refine (hitems items _ _).trans ⟨fun h => ⟨items, Or.inl rfl, h⟩, ?_⟩
    rintro ⟨_, hsame | hsame, h⟩
    · rwa [Term.list.inj hsame]
    · cases hsame
  | tuple items =>
    refine (hitems items _ _).trans ⟨fun h => ⟨items, Or.inr rfl, h⟩, ?_⟩
    rintro ⟨_, hsame | hsame, h⟩
    · cases hsame
    · rwa [Term.tuple.inj hsame]
  | _ => simp

theorem normalizeUnshaped_eq_ok_iff {span : Span} :
    normalizeUnshaped key value span = .ok normal ↔
      value.isStorable = true ∧ (key.isEncodable = true ∧ value.isEncodable = true) ∧
        normal = value := by
  unfold normalizeUnshaped
  by_cases hstorable : value.isStorable = true
  · by_cases hencodable : key.isEncodable = true ∧ value.isEncodable = true
    · simp [hstorable, hencodable, eq_comm]
    · simp [hstorable, hencodable]
  · simp [hstorable]

/-- What a value becomes depends on its key alone, and not on the place that errors name. -/
theorem normalizeValue_eq_ok_iff {span : Span} :
    normalizeValue schema key value span = .ok normal ↔ HasNormal schema key value normal := by
  constructor
  · intro h
    have hfree (hkey : ∀ name, key.chars? = some name → schema.get? name = Option.none)
        (h : normalizeUnshaped key value span = .ok normal) :
        HasNormal schema key value normal := by
      obtain ⟨hstorable, hencodable, rfl⟩ := normalizeUnshaped_eq_ok_iff.1 h
      exact .free hkey hstorable hencodable
    unfold normalizeValue at h
    split at h
    · rename_i name hkey
      split at h
      · rename_i shape hshape
        cases shape with
        | text =>
          obtain ⟨htext, data, rfl, hdata⟩ := normalizeShaped_text_eq_ok_iff.1 h
          exact .text hkey hshape htext hdata
        | textList =>
          obtain ⟨items, hvalue, htexts, parts, rfl, hparts⟩ :=
            normalizeShaped_textList_eq_ok_iff.1 h
          exact .textList hkey hshape hvalue htexts hparts
        | unknown name => cases h
      · rename_i hshape
        refine hfree (fun name' hkey' => ?_) h
        rwa [← Option.some.inj (hkey.symm.trans hkey')]
    · rename_i hkey
      exact hfree (fun name' hkey' => absurd (hkey.symm.trans hkey') nofun) h
  · intro h
    unfold normalizeValue
    cases h with
    | text hkey hshape htext hdata =>
      rw [hkey]
      dsimp only
      rw [hshape]
      exact normalizeShaped_text_eq_ok_iff.2 ⟨htext, _, rfl, hdata⟩
    | textList hkey hshape hvalue htexts hparts =>
      rw [hkey]
      dsimp only
      rw [hshape]
      exact normalizeShaped_textList_eq_ok_iff.2 ⟨_, hvalue, htexts, _, rfl, hparts⟩
    | free hkey hstorable hencodable =>
      have hsame : normalizeUnshaped key value span = .ok value :=
        normalizeUnshaped_eq_ok_iff.2 ⟨hstorable, hencodable, rfl⟩
      split
      · rename_i name hname
        rw [hkey name hname]
        exact hsame
      · exact hsame

/-- A normal value is its own normal form under the same key. -/
theorem HasNormal.self (h : HasNormal schema key value normal) :
    HasNormal schema key normal normal := by
  cases h with
  | text hkey hshape _ hdata => exact .text hkey hshape rfl hdata.self
  | @textList name items parts hkey hshape _ _ hparts =>
    refine .textList hkey hshape (Or.inr rfl) (fun item hitem => ?_) ?_
    · obtain ⟨data, _, rfl⟩ := List.mem_map.1 hitem
      rfl
    · rw [List.forall₂_map_left_iff]
      refine List.forall₂_same.2 fun data hdata => ?_
      obtain ⟨item, _, hitem⟩ := Lists.exists_left hparts data hdata
      exact hitem.self
  | free hkey hstorable hencodable => exact .free hkey hstorable hencodable

end Term

/-! ## Entries -/

/-- The values of metadata become normal under their keys. -/
theorem Items.normalize_eq_ok_iff {schema : Schema} {span : Span} {items out : Items} :
    Items.normalize schema span items = .ok out ↔ List.Forall₂ (fun item item' =>
      item'.1 = item.1 ∧ Term.HasNormal schema item.1 item.2 item'.2) items out := by
  induction items generalizing out with
  | nil =>
    constructor
    · rintro ⟨⟩
      exact .nil
    · rintro ⟨⟩
      rfl
  | cons item rest ih =>
    obtain ⟨key, value⟩ := item
    rw [Items.normalize, bind_eq_ok_iff]
    simp only [bind_pure_eq_ok_iff, ih, Term.normalizeValue_eq_ok_iff]
    constructor
    · rintro ⟨normal, hnormal, _, hothers, rfl⟩
      exact .cons ⟨rfl, hnormal⟩ hothers
    · rintro (_ | @⟨_, ⟨key', normal⟩, _, _, ⟨rfl, hnormal⟩, hothers⟩)
      exact ⟨normal, hnormal, _, hothers, rfl⟩

/-- What content becomes. -/
inductive Content.HasNormal : Content → Content → Prop
  | authored {t : Term} {data : Bytes} (hdata : t.HasBytes data) : HasNormal (.authored t) (.authored (.bytes data))
  | undocumented : HasNormal .undocumented .undocumented
  | hidden : HasNormal .hidden .hidden
  | foreign (value : Term) : HasNormal (.foreign value) (.foreign value)

namespace Content

variable {content normal : Content} {span : Span}

theorem normalize_eq_ok_iff : content.normalize span = .ok normal ↔ HasNormal content normal := by
  cases content with
  | authored t =>
    rw [Content.normalize]
    constructor
    · intro h
      split at h
      · rename_i data hdata
        cases h
        exact .authored (Term.normalizeText_eq_ok_iff.1 hdata)
      · cases h
    · rintro (⟨hdata⟩ | _ | _ | _)
      rw [Term.normalizeText_eq_ok_iff.2 hdata]
  | undocumented =>
    constructor
    · rintro ⟨⟩
      exact .undocumented
    · rintro ⟨⟩
      rfl
  | hidden =>
    constructor
    · rintro ⟨⟩
      exact .hidden
    · rintro ⟨⟩
      rfl
  | foreign value =>
    constructor
    · rintro ⟨⟩
      exact .foreign value
    · rintro ⟨⟩
      rfl

theorem HasNormal.self (h : HasNormal content normal) : HasNormal normal normal := by
  cases h with
  | authored hdata => exact .authored hdata.self
  | undocumented => exact .undocumented
  | hidden => exact .hidden
  | foreign value => exact .foreign value

end Content

namespace Entry

/-- An entry becomes normal if its content and its metadata do, whatever errors would be about. -/
theorem normalize_eq_ok_iff {schema : Schema} {source? : Option Text} {e n : Entry} :
    e.normalize schema source? = .ok n ↔
      n.ref = e.ref ∧ n.exported = e.exported ∧ n.line = e.line ∧
      e.content.HasNormal n.content ∧
      List.Forall₂ (fun item item' => item'.1 = item.1 ∧
        Term.HasNormal schema item.1 item.2 item'.2) e.metadata n.metadata := by
  rw [normalize, bind_eq_ok_iff]
  simp only [bind_pure_eq_ok_iff, Content.normalize_eq_ok_iff, Items.normalize_eq_ok_iff]
  constructor
  · rintro ⟨content, hcontent, metadata, hmetadata, rfl⟩
    exact ⟨rfl, rfl, rfl, hcontent, hmetadata⟩
  · obtain ⟨ref, content, metadata, exported, line⟩ := n
    rintro ⟨rfl, rfl, rfl, hcontent, hmetadata⟩
    exact ⟨content, hcontent, metadata, hmetadata, rfl⟩

/-- A normal entry is about the same entity at the same line and has the same keys in the same
order.  Texts are UTF-8 bytes of what they stood for, values of other keys and other content are
what they were.  The entry is its own normal form. -/
theorem normalize_canonical {schema : Schema} {source? : Option Text} {e n : Entry}
    (h : e.normalize schema source? = .ok n) :
    n.ref = e.ref ∧ n.exported = e.exported ∧ n.line = e.line ∧
    e.content.HasNormal n.content ∧
    n.metadata.map (·.1) = e.metadata.map (·.1) ∧
    List.Forall₂ (fun item item' => item'.1 = item.1 ∧
      Term.HasNormal schema item.1 item.2 item'.2) e.metadata n.metadata ∧
    ∀ other?, n.normalize schema other? = .ok n := by
  obtain ⟨href, hexported, hline, hcontent, hmetadata⟩ := normalize_eq_ok_iff.1 h
  have hkeys : n.metadata.map (·.1) = e.metadata.map (·.1) := by
    rw [← List.forall₂_eq_eq_eq, List.forall₂_map_left_iff, List.forall₂_map_right_iff]
    exact hmetadata.flip.imp fun item' item hitem => hitem.1
  refine ⟨href, hexported, hline, hcontent, hkeys, hmetadata, fun other? => ?_⟩
  refine normalize_eq_ok_iff.2 ⟨rfl, rfl, rfl, hcontent.self, List.forall₂_same.2 ?_⟩
  intro item' hitem'
  obtain ⟨item, _, hkey, hnormal⟩ := Lists.exists_left hmetadata item' hitem'
  exact ⟨rfl, hkey ▸ hnormal.self⟩

/-- A draft with texts of several forms: `é` in Latin-1, two authors, and a key of its own. -/
def mixedDraft : Entry where
  ref := ⟨.function, "f", 1⟩
  content := .authored (.tagged [0xE9] "Latin1")
  metadata := [(.text "since", .bytes [0x31]), (.text "x", .list [.atom "a", .int 3]),
    (.atom "authors", .list [.text "A", .tagged [0x42] "utf-8"])]
  exported := false
  line := 7

def mixedNormal : Entry where
  ref := ⟨.function, "f", 1⟩
  content := .authored (.bytes [0xC3, 0xA9])
  metadata := [(.text "since", .bytes [0x31]), (.text "x", .list [.atom "a", .int 3]),
    (.atom "authors", .tuple [.bytes [0x41], .bytes [0x42]])]
  exported := false
  line := 7

theorem normalize_canonical_mixedDraft :
    mixedDraft.normalize Schema.default none = .ok mixedNormal ∧
    mixedNormal.metadata.map (·.1) = mixedDraft.metadata.map (·.1) ∧
    mixedNormal.normalize Schema.default (some "m.src") = .ok mixedNormal := by
  have h : mixedDraft.normalize Schema.default none = .ok mixedNormal := by decide
  obtain ⟨_, _, _, _, hkeys, _, hself⟩ := normalize_canonical h
  exact ⟨h, hkeys, hself (some "m.src")⟩

end Entry

end ModuleDocs
