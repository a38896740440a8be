import Mathlib
import ModuleDocs.Proofs.Chunk.Metadata
import ModuleDocs.Proofs.Compile.Check
import ModuleDocs.Proofs.Container.Store

/-!
# What was compiled is loaded

When a unit has got a container, the documentation in it is that of the table of the unit
(`exists_of_unit_eq_ok`).  `load_unit_iff` says when it is loaded as such: just when all
metadata that was written, keys included, nests no deeper than a term may.  The writer
does not see to that, since it counts the depth of a map key anew.
-/

namespace ModuleDocs

/-! ## Tables -/

namespace DocTable

variable {t : DocTable} {format : Text} {data : Bytes}

/-- Metadata that may be written: plain, with texts as keys. -/
structure IsPlain (t : DocTable) : Prop extends t.IsWellFormed where
  keyed : ∀ e ∈ t.module :: t.entries, e.metadata.IsKeyed Term.IsPlain
  lines : ∀ e ∈ t.module :: t.entries, 0 ≤ e.line

/-- The bytes of a table are read as the table if its metadata can be stored. -/
theorem IsPlain.exists_decode (ht : t.IsPlain)
    (hstorable : ∀ e ∈ t.module :: t.visible, e.IsStorable) (h : t.encode format = .ok data) :
    ∃ c, Chunk.decode data = .ok c ∧ t.module.Agrees c.module ∧
      List.Forall₂ Entry.Agrees t.visible c.entries := by
  have hkept : Chunk.keptEntries t.entries = t.visible := Chunk.keptEntries_of_ordered ht.ordered
  have hsubset : t.module :: t.visible ⊆ t.module :: t.entries :=
    List.cons_subset_cons _ (List.filter_subset_self _)
  -- The reader takes every entry for an exported one, and so they are.
  have hstored : ∀ e ∈ t.module :: t.visible, e.stored = e := by
    intro e he
    refine Entry.stored_of_texts ?_ (ht.keyed e (hsubset he)).texts
    rw [ht.exported e (hsubset he)]
    rcases List.mem_cons.1 he with rfl | he
    · simp [Entry.isErased, ht.module]
    · exact (List.mem_filter.1 he).2
  obtain ⟨c, hdecode, -, -, hmodule, -, hentries⟩ := Chunk.exists_decode_of_encode
    (fun e he => Items.isMetadata_of_isKeyed (ht.keyed e (hsubset (hkept ▸ he)))
      (hstorable e (hkept ▸ he)))
    (fun e he => ht.lines e (hsubset (hkept ▸ he))) h
  rw [hstored _ List.mem_cons_self] at hmodule
  rw [hkept, List.map_congr_left fun e he => hstored e (List.mem_cons_of_mem _ he), List.map_id'']
    at hentries
  · exact ⟨c, hdecode, hmodule, hentries⟩
  · exact fun _ => rfl

/-- The bytes of a table are read as the table just if its metadata can be stored. -/
theorem IsPlain.exists_decode_iff (ht : t.IsPlain) (h : t.encode format = .ok data) :
    (∃ c, Chunk.decode data = .ok c ∧ t.module.Agrees c.module ∧
      List.Forall₂ Entry.Agrees t.visible c.entries) ↔
        ∀ e ∈ t.module :: t.visible, e.IsStorable := by
  refine ⟨?_, fun hstorable => ht.exists_decode hstorable h⟩
  rintro ⟨c, hdecode, hmodule, hentries⟩ e he
  have hread := Chunk.storable_of_decode hdecode
  obtain ⟨e', he', hagrees⟩ := Lists.exists_right (List.Forall₂.cons hmodule hentries) e he
  exact hagrees.isStorable_iff.2 (hread e' he')

end DocTable

namespace Compile

variable {host : Host} {options : CompileOptions} {fs fs' : FileSystem} {source p : Path}
  {result : UnitResult} {checked : Checked}

/-! ## Units -/

/-- The table of a checked source is plain. -/
theorem isPlain_of_check (h : check fs options source = .ok (result, some checked)) :
    checked.table.IsPlain := by
  obtain ⟨_, _, _, htable, _⟩ := check_eq_ok h
  have hliteral : Source.IsLiteral (fun _ => True) Term.IsPlain :=
    { text := fun _ => ⟨trivial, id⟩
      atom := fun _ => ⟨trivial, id⟩
      tagged := fun _ _ => ⟨trivial, id⟩
      funRef := fun _ _ _ _ _ _ => ⟨trivial, id⟩
      integer := fun _ _ _ _ => ⟨trivial, id⟩
      negative := fun _ _ _ _ => ⟨trivial, id⟩
      list := fun _ => ⟨trivial, id⟩
      tuple := fun _ => ⟨trivial, id⟩
      map := fun _ hitems => ⟨Items.isDict_ofPairs hitems, id⟩ }
  have hnormal : IsNormal Term.IsPlain := ⟨fun _ _ _ => ⟨trivial, id⟩, fun _ => ⟨trivial, id⟩⟩
  have hentries := forall_entries_of_check (L := fun line => 0 ≤ line) hliteral hnormal
    (fun _ ht => ht.1) (fun _ _ => Int.natCast_nonneg _) le_rfl (fun _ _ _ _ _ _ _ => trivial) h
  exact { DocTable.isWellFormed_of_ofEvents htable with
    keyed := fun e he => (hentries e he).1
    lines := fun e he => (hentries e he).2 }

theorem encodeTable_eq_ok {table : DocTable} {data : Bytes}
    (h : encodeTable options source table = .ok (.ok data)) :
    table.encode options.docFormat = .ok data := by
  unfold encodeTable at h
  split at h
  · rename_i hencode
    cases h
    exact hencode
  · split at h <;> cases h

/-- The chunks of a container: the interface of the unit, and behind it the documentation
if it is wanted. -/
inductive IsChunksOf (options : CompileOptions) (checked : Checked) : Chunks → Prop
  | interface {interface : Bytes} (hdocs : options.emitDocs = false)
    (hinterface : Source.encodeInterface checked.unit.module checked.unit.exports = .ok interface) :
    IsChunksOf options checked [(Source.interfaceName, interface)]
  | documented {interface docs : Bytes} (hdocs : options.emitDocs = true)
    (hinterface : Source.encodeInterface checked.unit.module checked.unit.exports = .ok interface)
    (htable : checked.table.encode options.docFormat = .ok docs) :
    IsChunksOf options checked [(Source.interfaceName, interface), (Chunk.containerName, docs)]

theorem chunksOf_eq_ok_iff {chunks : Chunks} :
    chunksOf options source checked = .ok (.ok chunks) ↔ IsChunksOf options checked chunks := by
  constructor
  · intro h
    obtain ⟨interface, hinterface, h⟩ := Result.bind_eq_ok_iff.1 h
    have hinterface := Result.mapError_eq_ok_iff.1 hinterface
    obtain ⟨docs, hchunks, h⟩ := Result.bind_pure_eq_ok_iff.1 h
    obtain ⟨docs, rfl, rfl⟩ := Result.map_eq_ok_iff.1 h
    unfold docsChunk at hchunks
    split at hchunks
    · rename_i hdocs
      obtain ⟨encoded, hencoded, h⟩ := Result.bind_pure_eq_ok_iff.1 hchunks
      obtain ⟨data, rfl, rfl⟩ := Result.map_eq_ok_iff.1 h
      exact .documented hdocs hinterface (encodeTable_eq_ok hencoded)
    · rename_i hdocs
      cases hchunks
      exact .interface (by simpa using hdocs) hinterface
  · intro h
    unfold chunksOf docsChunk
    cases h with
    | interface hdocs hinterface =>
      rw [hinterface, hdocs]
      rfl
    | documented hdocs hinterface htable =>
      rw [hinterface, hdocs, encodeTable, htable]
      rfl

/-- The chunks of a container with documentation. -/
theorem chunksOf_eq_ok (hdocs : options.emitDocs = true) {chunks : Chunks}
    (h : chunksOf options source checked = .ok (.ok chunks)) :
    ∃ interface data, checked.table.encode options.docFormat = .ok data ∧
      chunks = [(Source.interfaceName, interface), (Chunk.containerName, data)] := by
  cases chunksOf_eq_ok_iff.1 h with
  | interface hnone => exact absurd hdocs (by simp [hnone])
  | documented _ _ htable => exact ⟨_, _, htable, rfl⟩

/-- What building a source comes to. -/
inductive Builds (options : CompileOptions) (fs : FileSystem) (source : Path) :
    UnitResult → Option (Text × Chunks) → Prop
  | unchecked {result : UnitResult} (hcheck : check fs options source = .ok (result, none)) :
      Builds options fs source result none
  | unwritten {result : UnitResult} {checked : Checked} {d : Diagnostic}
      (hcheck : check fs options source = .ok (result, some checked))
      (hchunks : chunksOf options source checked = .ok (.error d)) :
      Builds options fs source (result.addDiagnostics [d]) none
  | built {result : UnitResult} {checked : Checked} {chunks : Chunks}
      (hcheck : check fs options source = .ok (result, some checked))
      (hchunks : chunksOf options source checked = .ok (.ok chunks)) :
      Builds options fs source result (some (checked.unit.module, chunks))

theorem builds_of_build {chunks? : Option (Text × Chunks)}
    (h : build options fs source = .ok (result, chunks?)) :
    Builds options fs source result chunks? := by
  unfold build at h
  obtain ⟨⟨result', checked?⟩, hcheck, h⟩ := Result.bind_eq_ok_iff.1 h
  cases checked? with
  | none =>
    cases h
    exact .unchecked hcheck
  | some checked =>
    simp only at h
    obtain ⟨chunks', hchunks, h⟩ := Result.bind_eq_ok_iff.1 h
    cases chunks' with
    | error d =>
      cases h
      exact .unwritten hcheck hchunks
    | ok chunks' =>
      cases h
      exact .built hcheck hchunks

/-- What a source that has passed all checks gives to be stored. -/
theorem build_eq_ok {module : Text} {chunks : Chunks}
    (h : build options fs source = .ok (result, some (module, chunks))) :
    ∃ checked, check fs options source = .ok (result, some checked) ∧
      module = checked.unit.module ∧ chunksOf options source checked = .ok (.ok chunks) := by
  cases builds_of_build h with
  | built hcheck hchunks => exact ⟨_, hcheck, rfl, hchunks⟩

/-- Nothing is stored before all is built. -/
theorem isUnstored_of_build {chunks? : Option (Text × Chunks)}
    (h : build options fs source = .ok (result, chunks?)) : IsUnstored source result := by
  cases builds_of_build h with
  | unchecked hcheck => exact isUnstored_of_check hcheck
  | unwritten hcheck _ =>
    have hunstored := isUnstored_of_check hcheck
    exact ⟨hunstored.source, hunstored.artifact⟩
  | built hcheck _ => exact isUnstored_of_check hcheck

/-- What storing comes to: the container is named, or there is an error about the whole source. -/
theorem stored_cases {verb : String} {written : Except StoreError Unit} {result' : UnitResult}
    (h : stored result p verb written = .ok result') :
    written = .ok () ∧ result' = { result with artifact? := some p } ∨
      ∃ message, result' = result.addDiagnostics
        [stageError "artifact" "E-DOC-ARTIFACT" result.source message] := by
  unfold stored at h
  split at h
  · cases h
    exact .inl ⟨rfl, rfl⟩
  · simp only at h
    split at h
    · cases h
      exact .inr ⟨_, rfl⟩
    · cases h
      exact .inr ⟨_, rfl⟩
    · cases h

/-- What compiling a source comes to: nothing is stored, or what was built is. -/
theorem unit_cases (h : unit host options fs source = (.ok result, fs')) :
    build options fs source = .ok (result, none) ∧ fs' = fs ∨ ∃ start module chunks,
      build options fs source = .ok (start, some (module, chunks)) ∧
      (Container.write host fs (containerPath source module options) chunks).2 = fs' ∧
      stored start (containerPath source module options) "cannot write"
        (Container.write host fs (containerPath source module options) chunks).1 = .ok result := by
  unfold unit at h
  split at h
  · cases h
  · rename_i hbuild
    cases h
    exact .inl ⟨hbuild, rfl⟩
  · rename_i start module chunks hbuild
    obtain ⟨hstored, hafter⟩ := Prod.mk.inj h
    exact .inr ⟨start, module, chunks, hbuild, hafter, hstored⟩

/-- A unit leaves all files as they are, but for a container that is put in place. -/
theorem snd_unit_cases (host : Host) (options : CompileOptions) (fs : FileSystem) (source : Path) :
    (unit host options fs source).2 = fs ∨ ∃ p chunks data,
      Container.encode host.hash chunks = .ok data ∧
        (unit host options fs source).2 = (Container.replaceFile host fs p data).2 := by
  rcases hbuild : build options fs source with e | ⟨start, _ | ⟨module, chunks⟩⟩
  · exact .inl (by rw [unit, hbuild])
  · exact .inl (by rw [unit, hbuild])
  · rw [unit, hbuild]
    dsimp only
    cases hencode : Container.encode host.hash chunks with
    | error e => exact .inl (by rw [Container.write_of_error hencode])
    | ok data => exact .inr ⟨_, chunks, data, hencode, by rw [Container.write_of_encode hencode]⟩

/-- A unit that has got a container was written there. -/
theorem exists_write_of_unit (h : unit host options fs source = (.ok result, fs'))
    (hartifact : result.artifact? = some p) :
    ∃ checked chunks, check fs options source
        = .ok ({ result with artifact? := none }, some checked) ∧
      chunksOf options source checked = .ok (.ok chunks) ∧
      Container.write host fs p chunks = (.ok (), fs') := by
  rcases unit_cases h with ⟨hbuild, _⟩ | ⟨start, module, chunks, hbuild, hafter, hstored⟩
  · rw [(isUnstored_of_build hbuild).artifact] at hartifact
    cases hartifact
  · obtain ⟨checked, hcheck, rfl, hchunks⟩ := build_eq_ok hbuild
    have hnone := (isUnstored_of_build hbuild).artifact
    rcases stored_cases hstored with ⟨hwrite, rfl⟩ | ⟨message, rfl⟩
    · cases hartifact
      refine ⟨checked, chunks, ?_, hchunks, Prod.ext hwrite hafter⟩
      rw [hcheck, ← hnone]
    · rw [UnitResult.addDiagnostics, hnone] at hartifact
      cases hartifact

/-- The documentation of a unit that has got a container is that of its table, and is
loaded as such just if all its metadata can be stored. -/
theorem load_unit_iff (hdocs : options.emitDocs = true)
    (h : unit host options fs source = (.ok result, fs')) (hartifact : result.artifact? = some p) :
    ∃ table, result.table? = some table ∧
      ((∃ c, Chunk.load host.hash fs' p Chunk.containerName = .ok (.ok c) ∧
        table.module.Agrees c.module ∧ List.Forall₂ Entry.Agrees table.visible c.entries) ↔
          ∀ e ∈ table.module :: table.visible, e.IsStorable) := by
  obtain ⟨checked, chunks, hcheck, hchunks, hwrite⟩ := exists_write_of_unit h hartifact
  obtain ⟨interface, data, hencode, rfl⟩ := chunksOf_eq_ok hdocs hchunks
  have htable : result.table? = some checked.table := by
    obtain ⟨_, _, _, _, hresult⟩ := check_eq_ok hcheck
    exact congrArg UnitResult.table? hresult
  have hdistinct : [Source.interfaceName, Chunk.containerName].Nodup := by decide
  have hload : Chunk.load host.hash fs' p Chunk.containerName = .ok (Chunk.ofBytes data) :=
    Chunk.load_of_write (by exact hdistinct) (List.mem_cons_of_mem _ List.mem_cons_self) hwrite
  refine ⟨checked.table, htable, ?_⟩
  rw [← (isPlain_of_check hcheck).exists_decode_iff hencode, hload]
  refine exists_congr fun c => and_congr_left fun _ => ?_
  rw [Except.ok.injEq, Chunk.ofBytes]
  cases Chunk.decode data with
  | ok c' => simp
  | error e => cases e <;> simp

/-! ## A compilation -/

/-- A source with metadata, an exported function with a text and one that is not exported. -/
def sampleSource : Text :=
  "-module(m). -moduledoc #\x7bsince => \"1\"\x7d. -export([f/1]). -doc \"x\". -fun f/1. -fun g/1."

/-- The files among which the source is. -/
def sampleFiles : FileSystem :=
  (FileSystem.empty ⟨.single, []⟩).put [FileName.encode "m.src"]
    (.file (FileName.encode sampleSource))

/-- A host whose hash is always the same. -/
def sampleHost : Host := ⟨⟨fun _ => List.replicate 32 0, fun _ => List.length_replicate⟩, "1"⟩

def sampleOptions : CompileOptions := ⟨none, [], true, "text/plain", Schema.default⟩

def sampleForms : List Source.Form :=
  [⟨"module", .atom "m", ⟨1, 1⟩, some "m.src"⟩,
    ⟨"moduledoc", .map [(.atom "since", .text "1")], ⟨1, 13⟩, some "m.src"⟩,
    ⟨"export", .list [.funRef "f" 1], ⟨1, 41⟩, some "m.src"⟩,
    ⟨"doc", .text "x", ⟨1, 57⟩, some "m.src"⟩,
    ⟨"fun", .funRef "f" 1, ⟨1, 67⟩, some "m.src"⟩,
    ⟨"fun", .funRef "g" 1, ⟨1, 77⟩, some "m.src"⟩]

def sampleUnit : Source.SourceUnit where
  module := "m"
  path := Path.parse "m.src"
  events :=
    [.declaration (.ofModule "m") (.at_ (some "m.src") 1 1),
      .moduleMeta (.map [(.text "since", .text "1")]) (.at_ (some "m.src") 1 13),
      .entityDoc ⟨.function, "f", 1⟩ (.value (.text "x")) (.at_ (some "m.src") 1 57),
      .declaration ⟨.function, "f", 1⟩ (.at_ (some "m.src") 1 67),
      .declaration ⟨.function, "g", 1⟩ (.at_ (some "m.src") 1 77)]
  exports := [("f", 1)]
  includes := []

def sampleTable : DocTable where
  module := ⟨.ofModule "m", .undocumented, [(.text "since", .bytes [0x31])], true, 1⟩
  entries :=
    [⟨⟨.function, "f", 1⟩, .authored (.bytes [0x78]), [], true, 1⟩,
      ⟨⟨.function, "g", 1⟩, .undocumented, [], false, 1⟩]
  formatId? := none

/-- Files of which the source reads as these forms give the unit. -/
theorem read_of_sampleForms {fs : FileSystem}
    (hread : Source.readForms fs (Path.parse "m.src") none = .ok (.ok sampleForms)) :
    Source.SourceUnit.read fs sampleOptions.includePaths (Path.parse "m.src")
      = .ok (some sampleUnit, []) := by
  have hforms : Source.SourceUnit.ofForms fs (Path.parse "m.src") [] sampleForms
      = .ok (some sampleUnit, []) := rfl
  rw [Source.read_of_plain hread (by decide), hforms]
  rfl

theorem read_sampleFiles :
    Source.SourceUnit.read sampleFiles sampleOptions.includePaths (Path.parse "m.src")
      = .ok (some sampleUnit, []) :=
  read_of_sampleForms (by cbv)

/-- The source is compiled to a container. -/
theorem unit_sampleFiles :
    (unit sampleHost sampleOptions sampleFiles (Path.parse "m.src")).1.map
        (fun result => (result.isOk, result.artifact?, result.table?))
      = .ok (true, some (Path.parse "m.dca"), some sampleTable) := by
  rw [unit, build, check, read_sampleFiles]
  cbv

/-- The documentation of the sample is loaded. -/
theorem load_unit_sampleFiles :
    ∃ result fs',
      unit sampleHost sampleOptions sampleFiles (Path.parse "m.src") = (.ok result, fs') ∧
      result.artifact? = some (Path.parse "m.dca") ∧ result.table? = some sampleTable ∧
      ∃ c, Chunk.load sampleHost.hash fs' (Path.parse "m.dca") Chunk.containerName = .ok (.ok c) ∧
        sampleTable.module.Agrees c.module ∧
        List.Forall₂ Entry.Agrees sampleTable.visible c.entries := by
  obtain ⟨result, hresult, hparts⟩ := Result.map_eq_ok_iff.1 unit_sampleFiles
  obtain ⟨-, hartifact, htable⟩ := by simpa using hparts
  obtain ⟨fs', hunit⟩ : ∃ fs', unit sampleHost sampleOptions sampleFiles (Path.parse "m.src")
      = (.ok result, fs') := ⟨_, Prod.ext hresult rfl⟩
  obtain ⟨table, htable', hiff⟩ := load_unit_iff rfl hunit hartifact
  cases htable.symm.trans htable'
  exact ⟨result, fs', hunit, hartifact, htable, hiff.2 (by decide)⟩

end Compile

end ModuleDocs
