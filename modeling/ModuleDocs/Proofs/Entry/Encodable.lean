import Mathlib
import ModuleDocs.Proofs.Chunk.Errors
import ModuleDocs.Proofs.Schema
import ModuleDocs.Proofs.Term.RoundTrip

/-!
# Which normal entries hold texts that UTF-8 can write

`Term.Mentions s t` says that the text `s` stands anywhere inside the term `t`.  A text that a
normal entry mentions can be written, unless it is a key that the schema was given: these keys
alone are not looked at (`Entry.normalize_encodable`).
-/

namespace ModuleDocs

open Result

/-! ## Texts inside terms -/

namespace Term

/-- The text stands inside the term: as a text, an atom or a name, at any depth. -/
inductive Mentions (s : Text) : Term → Prop
  | text : Mentions s (.text s)
  | atom : Mentions s (.atom s)
  | tagged (data : Bytes) : Mentions s (.tagged data s)
  | funRef (arity : Int) : Mentions s (.funRef s arity)
  | list {items : List Term} {t : Term} (ht : t ∈ items) (h : Mentions s t) :
    Mentions s (.list items)
  | tuple {items : List Term} {t : Term} (ht : t ∈ items) (h : Mentions s t) :
    Mentions s (.tuple items)
  | key {items : Items} {item : Term × Term} (hitem : item ∈ items) (h : Mentions s item.1) :
    Mentions s (.map items)
  | value {items : Items} {item : Term × Term} (hitem : item ∈ items) (h : Mentions s item.2) :
    Mentions s (.map items)

variable {s : Text} {t : Term}

theorem allEncodable_iff {items : List Term} :
    allEncodable items = true ↔ ∀ t ∈ items, t.isEncodable = true := by
  induction items with
  | nil => simp [allEncodable]
  | cons t rest ih => simp [allEncodable, ih]

theorem itemsEncodable_iff {items : Items} :
    itemsEncodable items = true ↔
      ∀ item ∈ items, item.1.isEncodable = true ∧ item.2.isEncodable = true := by
  induction items with
  | nil => simp [itemsEncodable]
  | cons item rest ih => simp [itemsEncodable, ih, and_assoc]

/-- The test of a term that can be stored looks at all its texts. -/
theorem Mentions.isEncodable (h : t.Mentions s) {depth : Nat}
    (hstorable : t.isStorableAt depth = true) (ht : t.isEncodable = true) :
    Utf8.isEncodable s = true := by
  induction h generalizing depth with
  | text | atom | tagged data => exact ht
  | funRef arity => simp [isStorableAt] at hstorable
  | list hmem _ ih =>
    exact ih (allStorableAt_iff.1 (storableAt_list hstorable) _ hmem)
      (allEncodable_iff.1 ht _ hmem)
  | tuple hmem _ ih =>
    exact ih (allStorableAt_iff.1 (storableAt_tuple hstorable) _ hmem)
      (allEncodable_iff.1 ht _ hmem)
  | key hmem _ ih =>
    exact ih (itemsStorableAt_iff.1 (storableAt_map hstorable) _ hmem).1
      (itemsEncodable_iff.1 ht _ hmem).1
  | value hmem _ ih =>
    exact ih (itemsStorableAt_iff.1 (storableAt_map hstorable) _ hmem).2
      (itemsEncodable_iff.1 ht _ hmem).2

/-- A string mentions itself and nothing else. -/
theorem mentions_iff_of_chars? {name : Text} (h : t.chars? = some name) :
    t.Mentions s ↔ s = name := by
  cases t with
  | text chars | atom chars =>
    cases h
    constructor
    · rintro ⟨⟩
      rfl
    · rintro rfl
      constructor
  | _ => cases h

theorem isEncodable_of_chars? {name : Text} (h : t.chars? = some name) :
    t.isEncodable = Utf8.isEncodable name := by
  cases t with
  | text chars | atom chars =>
    cases h
    rfl
  | _ => cases h

/-- Values made for keys of a schema hold no texts but bytes. -/
theorem IsShaped.not_mentions (h : t.IsShaped) : ¬ t.Mentions s := by
  intro hs
  cases h with
  | text _ => cases hs
  | textList _ =>
    cases hs with
    | tuple hmem hs =>
      obtain ⟨data, _, rfl⟩ := List.mem_map.1 hmem
      cases hs

end Term

/-! ## Schemas -/

namespace Schema

variable {schema schema' : Schema} {name : Text}

theorem isSome_get?_iff : (get? name schema).isSome = true ↔ ∃ line ∈ schema, line.1 = name := by
  simp [get?, List.find?_isSome]

/-- An extended schema has the keys that it had and those that it was given. -/
theorem isSome_get?_extend_iff {lines : List (Text × Text)}
    (h : extend schema lines = .ok schema') :
    (get? name schema').isSome = true ↔
      (get? name schema).isSome = true ∨ ∃ line ∈ lines, line.1 = name := by
  rw [get?_extend h, Option.isSome_or, Bool.or_eq_true, Option.isSome_map, or_comm]
  refine or_congr_right (List.lookup_isSome_iff.trans ?_)
  simp only [List.mem_reverse, beq_iff_eq, eq_comm (a := name)]

/-- The keys that every module has are ASCII. -/
theorem isEncodable_of_default (h : (get? name default).isSome = true) :
    Utf8.isEncodable name = true := by
  obtain ⟨line, hline, rfl⟩ := isSome_get?_iff.1 h
  exact (by decide : ∀ line ∈ default, Utf8.isEncodable line.1 = true) line hline

end Schema

/-! ## Entries -/

/-- The text stands anywhere in the content. -/
def Content.Mentions (s : Text) : Content → Prop
  | .authored t | .foreign t => t.Mentions s
  | .undocumented | .hidden => False

/-- The text stands anywhere in the entry. -/
def Entry.Mentions (s : Text) (e : Entry) : Prop :=
  s = e.ref.name ∨ e.content.Mentions s ∨ (Term.map e.metadata).Mentions s

/-- The error is not that a text cannot be written. -/
def ChunkError.IsAboutNoText (e : ChunkError) : Prop := ∀ run, e ≠ .term (.unencodable run)

namespace Chunk

theorem encodeText_of_isEncodable {P : EncodeError → Prop} {t : Text}
    (h : Utf8.isEncodable t = true) : FailsWith P (encodeText t) :=
  encodeText_failsWith fun run hrun => by
    rw [Utf8.encode_of_isEncodable h] at hrun
    cases hrun

/-- A term is not refused for its texts if all of them can be written. -/
theorem tolerates_encodable : Term.Tolerates (fun e => ∀ run, e ≠ .unencodable run)
    fun _ t => ∀ s, t.Mentions s → Utf8.isEncodable s = true where
  stringTooLong := nofun
  blobTooLong := nofun
  countOutOfRange := nofun
  deep := fun _ _ _ _ => nofun
  int := fun _ _ _ _ => nofun
  text := fun _ t h => encodeText_of_isEncodable (h t .text)
  atom := fun _ t h => encodeText_of_isEncodable (h t .atom)
  tagged := fun _ data t h => encodeText_of_isEncodable (h t (.tagged data))
  funRef := fun _ _ _ _ => nofun
  foreign := fun _ _ _ => nofun
  list := fun _ _ h _ ht s hs => h s (.list ht hs)
  tuple := fun _ _ h _ ht s hs => h s (.tuple ht hs)
  map := fun _ _ h _ hitem =>
    ⟨fun s hs => h s (.key hitem hs), fun s hs => h s (.value hitem hs)⟩
  sort := fun _ _ encoded _ _ => Term.EncodedItem.sort_failsWith (fun _ => nofun) encoded

theorem isAboutNoText_term {α : Type} {x : Except EncodeError α}
    (h : FailsWith (fun e => ∀ run, e ≠ .unencodable run) x) :
    FailsWith ChunkError.IsAboutNoText (x.mapError .term) :=
  FailsWith.mapError fun e he run hsame => h e he run (ChunkError.term.inj hsame)

/-- An entry is not refused for its texts if all of them can be written. -/
theorem encodeEntry_isAboutNoText {e : Entry}
    (h : ∀ s, e.Mentions s → Utf8.isEncodable s = true) :
    FailsWith ChunkError.IsAboutNoText (encodeEntry e) := by
  have hname := encodeShortString_failsWith
    (encodeText_of_isEncodable (P := fun e => ∀ run, e ≠ .unencodable run) (h _ (Or.inl rfl))) nofun
  have hmetadata := Term.encodeAt_failsWith tolerates_encodable (.map e.metadata) 0
    fun s hs => h s (Or.inr (Or.inr hs))
  refine encodeEntry_failsWith (isAboutNoText_term hname) nofun (fun _ => nofun) ?_
    (isAboutNoText_term hmetadata)
  unfold encodeContent
  split
  · exact FailsWith.ok _
  · exact (isAboutNoText_term (encodeBlob_failsWith nofun _)).bind fun blob _ => FailsWith.ok _
  · exact FailsWith.error nofun
  · exact FailsWith.ok _
  · split <;> exact FailsWith.error nofun

end Chunk

/-- All texts in normal metadata can be written if its keys of the schema can. -/
theorem Items.encodable_normalize_iff {schema : Schema} {span : Span} {items out : Items}
    (hkeys : ∀ item ∈ items, item.1.chars?.isSome = true)
    (h : Items.normalize schema span items = .ok out) :
    (∀ s, (Term.map out).Mentions s → Utf8.isEncodable s = true) ↔
      ∀ item ∈ items, ∀ name, item.1.chars? = some name → (schema.get? name).isSome = true →
        Utf8.isEncodable name = true := by
  have hsame := forall₂_of_normalize h
  constructor
  · intro hall item hitem name hname _
    obtain ⟨item', hitem', hkey, _⟩ := Lists.exists_right hsame item hitem
    exact hall name (.key hitem' (hkey ▸ (Term.mentions_iff_of_chars? hname).2 rfl))
  · intro hknown s hs
    cases hs with
    | @key _ item' hitem' hs =>
      obtain ⟨item, hitem, hkey, hnormal⟩ := Lists.exists_left hsame item' hitem'
      rw [hkey] at hs
      generalize item'.2 = normal at hnormal
      cases Term.normalizes_of_normalizeValue hnormal with
      | shaped hname hshape _ =>
        rw [(Term.mentions_iff_of_chars? hname).1 hs]
        exact hknown item hitem _ hname (Option.isSome_iff_exists.2 ⟨_, hshape⟩)
      | unshaped _ _ hname _ =>
        obtain ⟨name, hchars⟩ := Option.isSome_iff_exists.1 (hkeys item hitem)
        rw [(Term.mentions_iff_of_chars? hchars).1 hs]
        rwa [Term.isEncodable_of_chars? hchars] at hname
    | @value _ item' hitem' hs =>
      obtain ⟨item, _, _, hnormal⟩ := Lists.exists_left hsame item' hitem'
      generalize item'.2 = normal at hs hnormal
      cases Term.normalizes_of_normalizeValue hnormal with
      | shaped _ _ hshaped => exact absurd hs hshaped.not_mentions
      | unshaped _ hstorable _ hvalue => exact hs.isEncodable hstorable hvalue

namespace Entry

theorem normalize_eq_ok {schema : Schema} {source? : Option Text} {e n : Entry}
    (h : e.normalize schema source? = .ok n) :
    n.ref = e.ref ∧ ∃ span, e.content.normalize span = .ok n.content ∧
      e.metadata.normalize schema span = .ok n.metadata := by
  obtain ⟨content, hcontent, h⟩ := bind_eq_ok_iff.1 h
  obtain ⟨metadata, hmetadata, rfl⟩ := bind_pure_eq_ok_iff.1 h
  exact ⟨rfl, _, hcontent, hmetadata⟩

/-- Normal content holds no texts but bytes. -/
theorem not_mentions_of_normalize {content normal : Content} {span : Span} {s : Text}
    (hcontent : ∀ value, content ≠ .foreign value) (h : content.normalize span = .ok normal) :
    ¬ normal.Mentions s := by
  cases content with
  | authored t =>
    rw [Content.normalize] at h
    split at h
    · cases h
      rintro ⟨⟩
    · cases h
  | undocumented | hidden =>
    cases h
    exact fun hs => hs
  | foreign value => exact absurd rfl (hcontent value)

/-- A draft with an encodable name is refused with an error about its documentation, or becomes
normal.  Then all its texts can be written, if those of its keys can that the schema was given
besides the keys that every module has. -/
theorem normalize_encodable {extra : List (Text × Text)} {schema : Schema} {e : Entry}
    (hschema : Schema.default.extend extra = .ok schema)
    (hname : Utf8.isEncodable e.ref.name = true)
    (hcontent : ∀ value, e.content ≠ .foreign value)
    (hkeys : ∀ item ∈ e.metadata, item.1.chars?.isSome = true) (source? : Option Text) :
    FailsWith NormalizeError.IsDoc (e.normalize schema source?) ∧
    ∀ n, e.normalize schema source? = .ok n →
      ((∀ s, n.Mentions s → Utf8.isEncodable s = true) ↔
        ∀ line ∈ extra, (∃ item ∈ e.metadata, item.1.chars? = some line.1) →
          Utf8.isEncodable line.1 = true) ∧
      ((∀ s, n.Mentions s → Utf8.isEncodable s = true) →
        FailsWith ChunkError.IsAboutNoText (Chunk.encodeEntry n)) := by
  have hknown := Schema.isKnown_of_extend Schema.isKnown_default hschema
  refine ⟨normalize_failsWith hknown hkeys source?,
    fun n hn => ⟨?_, Chunk.encodeEntry_isAboutNoText⟩⟩
  obtain ⟨href, span, hcontentNormal, hmetadata⟩ := normalize_eq_ok hn
  have hitems := Items.encodable_normalize_iff hkeys hmetadata
  constructor
  · rintro hall line hline ⟨item, hitem, hkey⟩
    refine hitems.1 (fun s hs => hall s (Or.inr (Or.inr hs))) item hitem line.1 hkey ?_
    exact (Schema.isSome_get?_extend_iff hschema).2 (Or.inr ⟨line, hline, rfl⟩)
  · rintro hextra s (rfl | hs | hs)
    · rwa [href]
    · exact absurd hs (not_mentions_of_normalize hcontent hcontentNormal)
    · refine hitems.2 (fun item hitem name hchars hsome => ?_) s hs
      rcases (Schema.isSome_get?_extend_iff hschema).1 hsome with hdefault | ⟨line, hline, rfl⟩
      · exact Schema.isEncodable_of_default hdefault
      · exact hextra line hline ⟨item, hitem, hchars⟩

/-- A text that UTF-8 cannot write. -/
def loneSurrogate : Text := [CodePoint.ofNat 0xD800]

/-- A schema with two more keys, one of which UTF-8 cannot write. -/
def surrogateSchema : Schema :=
  Schema.default ++ [(Text.ofString "k", .text), (loneSurrogate, .text)]

def keyedDraft (key : Text) : Entry :=
  ⟨⟨.module, "m", 0⟩, .undocumented, [(.text key, .text "x")], true, 1⟩

def keyedNormal (key : Text) : Entry :=
  ⟨⟨.module, "m", 0⟩, .undocumented, [(.text key, .bytes [0x78])], true, 1⟩

/-- The one key is written.  The other is let through, and the entry is not written. -/
theorem normalize_encodable_keyedDraft :
    ((keyedDraft "k").normalize surrogateSchema none = .ok (keyedNormal "k") ∧
      ∀ s, (keyedNormal "k").Mentions s → Utf8.isEncodable s = true) ∧
    (keyedDraft loneSurrogate).normalize surrogateSchema none = .ok (keyedNormal loneSurrogate) ∧
      (¬ ∀ s, (keyedNormal loneSurrogate).Mentions s → Utf8.isEncodable s = true) ∧
      Chunk.encodeEntry (keyedNormal loneSurrogate) =
        .error (.term (.unencodable ⟨0xD800, 0, 1⟩)) := by
  have hschema : Schema.default.extend [("k", "text"), (loneSurrogate, Text.ofString "text")] =
      .ok surrogateSchema := by decide
  have hcontent (key : Text) (value : Term) : (keyedDraft key).content ≠ .foreign value := nofun
  have hplain : (keyedDraft "k").normalize surrogateSchema none = .ok (keyedNormal "k") := by
    decide
  have hsurrogate : (keyedDraft loneSurrogate).normalize surrogateSchema none =
      .ok (keyedNormal loneSurrogate) := by decide
  refine ⟨⟨hplain, ?_⟩, hsurrogate, fun hall => ?_, by decide⟩
  · obtain ⟨_, hnormal⟩ := normalize_encodable hschema (e := keyedDraft "k") (by decide)
      (hcontent "k") (by decide) none
    exact (hnormal _ hplain).1.2 (by decide)
  · obtain ⟨_, hnormal⟩ := normalize_encodable hschema (e := keyedDraft loneSurrogate) (by decide)
      (hcontent loneSurrogate) (by decide) none
    exact absurd ((hnormal _ hsurrogate).1.1 hall (loneSurrogate, "text") (by decide) (by decide))
      (by decide)

end Entry

end ModuleDocs
