import Mathlib
import ModuleDocs.Proofs.Chunk.RoundTrip
import ModuleDocs.Proofs.Collector.History
import ModuleDocs.Proofs.Collector.Merging

/-!
# The format in the header of a chunk

The events of an entity give each metadata key its value, the last of them that has the key
(`Event.lastValue?`), and the entry of the entity has the normal form of that value
(`Collector.Remembers.hasNormal_of_finish`).

For the key `format` of the module this is the text in the header of the chunk, but for one text:
an empty one counts as none, and the default format stands there instead
(`DocTable.header_of_encode`).
-/

namespace ModuleDocs

open Result

namespace Term

variable {P : Term → Prop}

mutual

/-- What holds of all terms holds of every part of one. -/
theorem every_of_forall (h : ∀ t, P t) : ∀ t : Term, t.Every P
  | .list items => ⟨h _, everyItem_of_forall h items⟩
  | .tuple items => ⟨h _, everyItem_of_forall h items⟩
  | .map items => ⟨h _, everyPair_of_forall h items⟩
  | .none | .bool _ | .int _ | .float _ | .bytes _ | .text _ | .atom _ | .tagged _ _
  | .funRef _ _ | .foreign _ => h _

theorem everyItem_of_forall (h : ∀ t, P t) : ∀ items : List Term, EveryItem P items
  | [] => trivial
  | t :: rest => ⟨every_of_forall h t, everyItem_of_forall h rest⟩

theorem everyPair_of_forall (h : ∀ t, P t) : ∀ items : Items, EveryPair P items
  | [] => trivial
  | (key, value) :: rest =>
    ⟨every_of_forall h key, every_of_forall h value, everyPair_of_forall h rest⟩

end

end Term

/-! ## Values of keys -/

namespace Event

/-- The value that an event gives a metadata key. -/
def value? (key : Text) (event : Event) : Option Term :=
  match event.metadata? with
  | some (.map items) => Items.get? (.text key) items
  | _ => none

/-- The value that the last of the events about an entity with the key gives it. -/
def lastValue? (module ref : EntityRef) (key : Text) (events : List Event) : Option Term :=
  (events.filter (isAbout module ref)).reverse.findSome? (value? key)

/-- The maps that events carry are dictionaries. -/
def AreDicts (events : List Event) : Prop :=
  ∀ event ∈ events, ∀ metadata ∈ event.metadata?, metadata.OnMaps Items.IsDict

instance (events : List Event) : Decidable (AreDicts events) :=
  inferInstanceAs (Decidable
    (∀ event ∈ events, ∀ metadata ∈ event.metadata?, metadata.OnMaps Items.IsDict))

end Event

namespace Items

variable {items out : Items}

/-- Texts in place of atoms as keys do not change what a key has. -/
theorem get?_of_keyed {span : Span} (h : Collector.keyed span items = .ok out) (key : Term) :
    out.get? key = items.get? key := by
  have hpairs := Collector.forall₂_of_keyed h
  clear h
  induction hpairs with
  | nil => rfl
  | @cons first second rest more hfirst _ ih =>
    obtain ⟨t, ht, rfl⟩ := hfirst
    have hsame : (Term.text t).keyEq key = first.1.keyEq key := by
      rw [Term.keyEq, Term.keyEq, Term.keyForm?_of_chars? ht]
      rfl
    rw [get?_cons, get?_cons, hsame, ih]

/-- Where a key has a value, it has the normal form of that value in normal metadata. -/
theorem hasNormal_of_get? {schema : Schema} {span : Span}
    (hkeys : ∀ item ∈ items, ∃ t, item.1 = .text t)
    (h : Items.normalize schema span items = .ok out) (key : Text) :
    (items.get? (.text key) = none → out.get? (.text key) = none) ∧
    ∀ value, items.get? (.text key) = some value → ∃ normal, out.get? (.text key) = some normal ∧
      Term.HasNormal schema (.text key) value normal := by
  have hpairs := normalize_eq_ok_iff.1 h
  clear h
  induction hpairs with
  | nil => exact ⟨fun _ => rfl, fun _ hvalue => absurd hvalue.symm (Option.some_ne_none _)⟩
  | @cons first normalFirst rest normalRest hfirst _ ih =>
    obtain ⟨⟨t, ht⟩, hrest⟩ := List.forall_mem_cons.1 hkeys
    obtain ⟨hkey, hnormal⟩ := hfirst
    rw [get?_cons, get?_cons, hkey, ht]
    by_cases hsame : (Term.text t).keyEq (.text key) = true
    · have heq : t = key := by simpa [Term.keyEq, Term.keyForm?] using hsame
      rw [ht, heq] at hnormal
      rw [if_pos hsame, if_pos hsame]
      exact ⟨fun hnone => absurd hnone (Option.some_ne_none _),
        fun value hvalue => ⟨_, rfl, Option.some.inj hvalue ▸ hnormal⟩⟩
    · rw [if_neg hsame, if_neg hsame]
      exact ih hrest

end Items

/-! ## Contributions of events -/

namespace Event

variable {event : Event} {x : Contribution} {events : List Event} {cs : List Contribution}

/-- The map of a contribution has a key where the event has it. -/
theorem value?_of_contribution (h : event.contribution = .ok x) (key : Text) :
    (Contribution.metadataMaps [x]).findSome? (Items.get? (.text key)) = event.value? key := by
  cases contributes_of_contribution h with
  | moduleText _ | entityText _ | declaration => rfl
  | moduleItems hkeyed | entityItems hkeyed =>
    have hget := Items.get?_of_keyed hkeyed (.text key)
    simp [Contribution.metadataMaps, Contribution.ofMetadata, value?, metadata?, hget]

/-- The last map that has a key is that of the last event that has it. -/
theorem findSome?_metadataMaps (h : events.mapM contribution = .ok cs) (key : Text) :
    (Contribution.metadataMaps cs).reverse.findSome? (Items.get? (.text key)) =
      events.reverse.findSome? (value? key) := by
  have hpairs := forall₂_of_mapM h
  clear h
  induction hpairs with
  | nil => rfl
  | @cons event x events cs hfirst _ ih =>
    have hone := value?_of_contribution hfirst key
    have hsingle : (Contribution.metadataMaps [x]).reverse = Contribution.metadataMaps [x] := by
      unfold Contribution.metadataMaps
      rw [List.filterMap_cons]
      split <;> rfl
    rw [← List.singleton_append, Contribution.metadataMaps_append, List.reverse_append,
      List.findSome?_append, ih, hsingle, hone, List.reverse_cons, List.findSome?_append,
      List.findSome?_singleton]

/-- The maps of contributions are dictionaries with texts as keys if those of the events are. -/
theorem areKeyed_metadataMaps (h : events.mapM contribution = .ok cs) (hdicts : AreDicts events) :
    ∀ items ∈ Contribution.metadataMaps cs, items.IsKeyed fun _ => True := by
  intro items hitems
  obtain ⟨x, hx, hmap⟩ := List.mem_filterMap.1 hitems
  obtain ⟨event, hevent, hmade⟩ := Lists.exists_left (forall₂_of_mapM h) x hx
  have hany (t : Term) : t.Every fun _ => True := Term.every_of_forall (fun _ => trivial) t
  cases contributes_of_contribution hmade with
  | moduleText _ | entityText _ | declaration => cases hmap
  | moduleItems hkeyed | entityItems hkeyed =>
    cases hmap
    exact Collector.isKeyed_of_metadataOf (hdicts _ hevent _ rfl) (fun item _ => hany _) hkeyed

end Event

/-! ## Entries -/

namespace Collector

variable {c : Collector} {events : List Event} {schema : Schema} {exports : List (Text × Int)}
  {ref : EntityRef} {e : Entry}

/-- The finished entry of an entity has a metadata key where one of its events has it, and there
the normal form of the value that the last of them gives it. -/
theorem Remembers.hasNormal_of_finish (h : c.Remembers events) (hdicts : Event.AreDicts events)
    (hfinish : c.finish schema exports ref (c.contributions ref) = .ok e) (key : Text) :
    (Event.lastValue? c.moduleRef ref key events = none → e.metadata.get? (.text key) = none) ∧
    ∀ value, Event.lastValue? c.moduleRef ref key events = some value →
      ∃ normal, e.metadata.get? (.text key) = some normal ∧
        Term.HasNormal schema (.text key) value normal := by
  have hcontributions := h.contributions ref
  have hkeyed := Event.areKeyed_metadataMaps hcontributions fun event hevent =>
    hdicts event (List.mem_filter.1 hevent).1
  have hdict : ∀ items ∈ Contribution.metadataMaps (c.contributions ref), items.IsDict := by
    intro items hitems
    refine ⟨fun item hitem => ?_, (hkeyed items hitems).distinct⟩
    obtain ⟨t, ht⟩ := (hkeyed items hitems).texts item hitem
    rw [ht]
    rfl
  obtain ⟨_, _, _, _, span, hmetadata⟩ := finish_eq_ok hfinish
  have hmerged := Contribution.get?_mergeMetadata hdict (.text key)
  rw [Event.findSome?_metadataMaps hcontributions] at hmerged
  rw [Event.lastValue?, ← hmerged]
  exact Items.hasNormal_of_get? (Contribution.isKeyed_mergeMetadata hkeyed).texts hmetadata key

/-- The format of a module is the text of the last value that its events give the key, if the key
is one of a text. -/
theorem Remembers.formatOf_eq (h : c.Remembers events) (hdicts : Event.AreDicts events)
    (hschema : schema.get? "format" = some .text)
    (hfinish : c.finish schema exports c.moduleRef (c.contributions c.moduleRef) = .ok e)
    {format? : Option Text} (hformat : formatOf e = .ok format?) :
    (Event.lastValue? c.moduleRef c.moduleRef "format" events = none → format? = none) ∧
    ∀ value, Event.lastValue? c.moduleRef c.moduleRef "format" events = some value →
      ∃ text, value.isText = true ∧ value.StandsFor text ∧ format? = some text := by
  obtain ⟨hnone, hsome⟩ := h.hasNormal_of_finish hdicts hfinish "format"
  unfold formatOf at hformat
  constructor
  · intro hlast
    rw [hnone hlast] at hformat
    exact (Except.ok.inj hformat).symm
  · intro value hlast
    obtain ⟨normal, hget, hnormal⟩ := hsome value hlast
    rw [hget] at hformat
    cases hnormal with
    | @text name data hkey hshape htext hdata =>
      obtain ⟨text, hstands, hdecode⟩ := hdata
      refine ⟨text, htext, hstands, ?_⟩
      dsimp only at hformat
      rw [hdecode] at hformat
      exact (Except.ok.inj hformat).symm
    | textList hkey hshape =>
      cases hkey
      rw [hschema] at hshape
      cases hshape
    | free hkey =>
      have hfree := hkey _ rfl
      rw [hschema] at hfree
      cases hfree

end Collector

/-! ## Headers -/

namespace Chunk

/-- The string behind magic, version and flags of the bytes of a chunk. -/
def HasFormat (data : Bytes) (format : Text) : Prop :=
  peekVersion data = .ok currentVersion ∧
    (Decoder.shortString.run (Reader.ofBytes data headerSize)).1 = .ok format

/-- The format that is written stands in the header. -/
theorem hasFormat_of_encode {module : Entry} {entries : List Entry} {format : Text} {data : Bytes}
    (h : encode module entries format = .ok data) : HasFormat data format := by
  obtain ⟨written, first, count, others, _, _, hwritten, _, _, _, rfl⟩ := encode_eq_ok h
  rw [header_eq]
  have hreads := Decoder.reads_shortString hwritten [0x44, 0x4F, 0x43, 0x43, 1, 0, 0, 0]
    (first ++ (count ++ others))
  refine ⟨?_, congrArg Prod.fst hreads⟩
  have hmagic : ¬ List.take 4 ([0x44, 0x4F, 0x43, 0x43, 1, 0, 0, 0]
      ++ (written ++ (first ++ (count ++ others)))) ≠ magic := not_not.2 rfl
  rw [peekVersion, if_neg (by simp [headerSize]), if_neg hmagic]
  exact congrArg Except.ok (by decide : ofLittleEndian [1, 0] = currentVersion)

end Chunk

namespace DocTable

variable {module : Text} {events : List Event} {exports : List (Text × Int)} {schema : Schema}
  {source? : Option Text} {t : DocTable} {defaultFormat : Text} {data : Bytes}

/-- The header of the chunk of a unit carries, word for word, the text that the last metadata event
of the module with the key `format` gives it, if that is not empty.  If it is, or if no event has
the key, the header carries the default format. -/
theorem header_of_encode (hdicts : Event.AreDicts events)
    (hschema : schema.get? "format" = some .text)
    (h : ofEvents module events exports schema source? = .ok t)
    (hencode : t.encode defaultFormat = .ok data) :
    (Event.lastValue? (.ofModule module) (.ofModule module) "format" events = none →
      Chunk.HasFormat data defaultFormat) ∧
    ∀ value, Event.lastValue? (.ofModule module) (.ofModule module) "format" events = some value →
      ∃ text, value.isText = true ∧ value.StandsFor text ∧
        Chunk.HasFormat data (if text = [] then defaultFormat else text) := by
  obtain ⟨c, hrun, htable⟩ := exists_collector_of_ofEvents h
  have hremembers := (Collector.remembers_new module source?).observeAll hrun
  have hmodule : c.moduleRef = .ofModule module :=
    congrArg EntityRef.ofModule (Collector.module_of_observeAll hrun).1
  obtain ⟨hfinish, hformat, _⟩ := Collector.table_eq_ok_iff.1 htable
  obtain ⟨hnone, hsome⟩ := hremembers.formatOf_eq hdicts hschema hfinish hformat
  rw [hmodule] at hnone hsome
  have hheader := Chunk.hasFormat_of_encode hencode
  constructor
  · intro hlast
    rwa [hnone hlast] at hheader
  · intro value hlast
    obtain ⟨text, htext, hstands, hown⟩ := hsome value hlast
    refine ⟨text, htext, hstands, ?_⟩
    rw [hown] at hheader
    simpa using hheader

/-- A format that is declared twice, the second time in Latin-1 and by an event about an entity. -/
def declaredFormats : List Event :=
  [.moduleMeta (.map [(.atom "format", .text "text/plain"), (.text "since", .text "1")]) .unknown,
    .declaration ⟨.function, "f", 1⟩ .unknown,
    .entityMeta (.ofModule "m") (.map [(.text "format", .tagged [0xE9] "latin1")]) .unknown,
    .moduleMeta (.map [(.text "since", .bytes [0x32])]) .unknown]

/-- The same, and then the empty format. -/
def emptiedFormats : List Event :=
  declaredFormats ++ [.moduleMeta (.map [(.atom "format", .text [])]) .unknown]

/-- The header carries the second format, but not the empty one. -/
theorem header_of_encode_declaredFormats :
    (∃ t data, ofEvents "m" declaredFormats [] Schema.default none = .ok t ∧
      t.encode "text/markdown" = .ok data ∧ Chunk.HasFormat data [0xE9]) ∧
    ∃ t data, ofEvents "m" emptiedFormats [] Schema.default none = .ok t ∧
      t.encode "text/markdown" = .ok data ∧ Chunk.HasFormat data "text/markdown" := by
  have hschema : Schema.default.get? "format" = some .text := by decide
  have hwritten : ∀ events ∈ [declaredFormats, emptiedFormats],
      (ofEvents "m" events [] Schema.default none).map (fun t => (t.encode "text/markdown").isOk)
        = .ok true := by decide_cbv
  have hboth : ∀ events ∈ [declaredFormats, emptiedFormats], ∃ t data,
      ofEvents "m" events [] Schema.default none = .ok t ∧ t.encode "text/markdown" = .ok data := by
    intro events hevents
    obtain ⟨t, ht, hok⟩ := map_eq_ok_iff.1 (hwritten events hevents)
    obtain ⟨data, hdata⟩ := exists_of_isOk hok
    exact ⟨t, data, ht, hdata⟩
  have hdicts : Event.AreDicts emptiedFormats := by decide
  constructor
  · obtain ⟨t, data, ht, hdata⟩ := hboth declaredFormats (by simp)
    have hlast : Event.lastValue? (.ofModule "m") (.ofModule "m") "format" declaredFormats
        = some (.tagged [0xE9] "latin1") := by decide
    obtain ⟨text, _, hstands, hheader⟩ := (header_of_encode
      (fun event hevent => hdicts event (List.mem_append_left _ hevent)) hschema ht hdata).2 _ hlast
    obtain rfl : text = [0xE9] := by
      cases hstands with
      | utf8 hname _ => exact absurd hname (by decide)
      | latin1 => decide
    exact ⟨t, data, ht, hdata, hheader⟩
  · obtain ⟨t, data, ht, hdata⟩ := hboth emptiedFormats (by simp)
    have hlast : Event.lastValue? (.ofModule "m") (.ofModule "m") "format" emptiedFormats
        = some (.text []) := by decide
    obtain ⟨text, _, hstands, hheader⟩ :=
      (header_of_encode hdicts hschema ht hdata).2 _ hlast
    obtain rfl : text = [] := by
      cases hstands
      rfl
    exact ⟨t, data, ht, hdata, hheader⟩

end DocTable

end ModuleDocs
