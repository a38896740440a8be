import Mathlib
import ModuleDocs.Proofs.Compile.ContainerPath
import ModuleDocs.Proofs.Compile.Report
import ModuleDocs.Proofs.Container.Files

/-!
# Which files the compilation of a source changes

A source is read, checked and encoded before anything is written, so a unit that is refused
by then has changed no file.  What writing the container comes to is one of the outcomes of
`Container.Replaced`: `files_of_unit` says what each file holds then, for a unit that has a
container and for one that has none.  Only a blocked container (`IsBlocked`) makes a unit
with an error write a file, and that file is the temporary one.
-/

namespace ModuleDocs

namespace Compile

open Result

variable {host : Host} {options : CompileOptions} {fs fs' : FileSystem} {source : Path}
  {result : UnitResult}

/-- The source passes all checks, and its container is to have these bytes and this path. -/
inductive HasContainer (host : Host) (options : CompileOptions) (fs : FileSystem) (source : Path) :
    Path → Bytes → Prop
  | intro {result : UnitResult} {checked : Checked} {chunks : Chunks} {data : Bytes}
    (hcheck : check fs options source = .ok (result, some checked))
    (hchunks : IsChunksOf options checked chunks)
    (hdata : Container.encode host.hash chunks = .ok data) :
    HasContainer host options fs source
      (containerPath source checked.unit.module options) data

/-- There is a directory where the container should be, which nothing finds out before the
temporary file is written. -/
def IsBlocked (host : Host) (options : CompileOptions) (fs : FileSystem) (source : Path) : Prop :=
  ∃ p data, HasContainer host options fs source p data ∧ Container.IsBlocked host fs p data

/-! ## Containers -/

/-- The name of a container is no double dot. -/
theorem encode_name_containerPath (source : Path) (module : Text) (options : CompileOptions) :
    FileName.encode (containerPath source module options).name ≠ [0x2E, 0x2E] := by
  rw [containerPath_eq_child, Path.name_child]
  intro hdots
  have hlength := congrArg List.length hdots
  have hending : (FileName.encode containerEnding).length = 4 := by decide
  rw [FileSystem.length_encode_append, hending] at hlength
  simp only [List.length_cons, List.length_nil] at hlength
  omega

/-- What a source has come to before anything is written depends on its checks alone. -/
theorem build_congr (h : check fs' options source = check fs options source) :
    build options fs' source = build options fs source := by
  rw [build, build, h]

namespace HasContainer

variable {p q : Path} {data data' : Bytes}

theorem build_eq_ok (h : HasContainer host options fs source p data) :
    ∃ result module chunks, build options fs source = .ok (result, some (module, chunks)) ∧
      p = containerPath source module options ∧ Container.encode host.hash chunks = .ok data := by
  cases h with
  | @intro result checked chunks _ hcheck hchunks hdata =>
    have hbuild : build options fs source = .ok (result, some (checked.unit.module, chunks)) := by
      refine bind_eq_ok_iff.2 ⟨(result, some checked), hcheck, ?_⟩
      exact bind_eq_ok_iff.2 ⟨.ok chunks, chunksOf_eq_ok_iff.2 hchunks, rfl⟩
    exact ⟨_, _, _, hbuild, rfl, hdata⟩

/-- A source has one container. -/
theorem unique (h : HasContainer host options fs source p data)
    (h' : HasContainer host options fs source q data') : p = q ∧ data = data' := by
  obtain ⟨result, module, chunks, hbuild, rfl, hdata⟩ := h.build_eq_ok
  obtain ⟨result', module', chunks', hbuild', rfl, hdata'⟩ := h'.build_eq_ok
  cases hbuild.symm.trans hbuild'
  exact ⟨rfl, Except.ok.inj (hdata.symm.trans hdata')⟩

/-- Putting the container in place comes to one of the outcomes. -/
theorem replaced (h : HasContainer host options fs source p data) :
    Container.Replaced host fs p data (Container.replaceFile host fs p data) := by
  cases h with
  | intro _ _ _ =>
    exact Container.replaced_replaceFile (names_containerPath _ _ _)
      (encode_name_containerPath _ _ _) data

/-- A unit with a container comes to what putting it in place comes to, among all files
that give the same checks. -/
theorem unit_eq (h : HasContainer host options fs source p data) :
    ∃ result, result.artifact? = none ∧ ∀ fs',
      check fs' options source = check fs options source →
        unit host options fs' source
          = (stored result p "cannot write"
              ((Container.replaceFile host fs' p data).1.mapError .file),
            (Container.replaceFile host fs' p data).2) := by
  obtain ⟨result, module, chunks, hbuild, rfl, hdata⟩ := h.build_eq_ok
  refine ⟨result, (isUnstored_of_build hbuild).artifact, fun fs' hsame => ?_⟩
  unfold unit
  rw [build_congr hsame, hbuild]
  dsimp only
  rw [Container.write_of_encode hdata]

/-- A source with the same checks has the same container among other files. -/
theorem of_check_eq (h : HasContainer host options fs source p data)
    (hsame : check fs' options source = check fs options source) :
    HasContainer host options fs' source p data := by
  cases h with
  | intro hcheck hchunks hdata => exact .intro (hsame.trans hcheck) hchunks hdata

/-- As a source has one container, it is blocked just when this one is. -/
theorem isBlocked_iff (h : HasContainer host options fs source p data) :
    IsBlocked host options fs source ↔ Container.IsBlocked host fs p data := by
  constructor
  · intro hblocked
    obtain ⟨q, data', h', hblocked⟩ := hblocked
    obtain ⟨rfl, rfl⟩ := h.unique h'
    exact hblocked
  · intro hblocked
    exact ⟨p, data, h, hblocked⟩

end HasContainer

theorem hasContainer_of_build {module : Text} {chunks : Chunks} {data : Bytes}
    (hbuild : build options fs source = .ok (result, some (module, chunks)))
    (hdata : Container.encode host.hash chunks = .ok data) :
    HasContainer host options fs source (containerPath source module options) data := by
  obtain ⟨checked, hcheck, rfl, hchunks⟩ := Compile.build_eq_ok hbuild
  exact .intro hcheck (chunksOf_eq_ok_iff.1 hchunks) hdata

/-- A source that gives no container changes nothing. -/
theorem unit_of_not_hasContainer (hnone : ∀ p data, ¬ HasContainer host options fs source p data)
    (h : unit host options fs source = (.ok result, fs')) : fs' = fs ∧ result.artifact? = none := by
  rcases unit_cases h with ⟨hbuild, hsame⟩ | ⟨start, module, chunks, hbuild, hafter, hstored⟩
  · exact ⟨hsame, (isUnstored_of_build hbuild).artifact⟩
  · cases hdata : Container.encode host.hash chunks with
    | ok data => exact (hnone _ _ (hasContainer_of_build hbuild hdata)).elim
    | error e =>
      rw [Container.write_of_error hdata] at hafter hstored
      cases hstored
      exact ⟨hafter.symm, (isUnstored_of_build hbuild).artifact⟩

/-! ## Files -/

/-- A unit whose container is not put in place names none. -/
theorem artifact?_of_stored_error {p : Path} {verb : String} {e : StoreError} {result' : UnitResult}
    (h : stored result p verb (.error e) = .ok result') : result'.artifact? = result.artifact? := by
  rcases stored_cases h with ⟨hwritten, _⟩ | ⟨message, rfl⟩
  · cases hwritten
  · rfl

/-- A unit that comes to a result has no container and has changed nothing, or it names its
container just when that was put in place. -/
theorem outcome_of_unit (h : unit host options fs source = (.ok result, fs')) :
    (∀ p data, ¬ HasContainer host options fs source p data) ∧ fs' = fs ∧
        result.artifact? = none ∨
      ∃ p data written, HasContainer host options fs source p data ∧
        Container.Replaced host fs p data (written, fs') ∧
        result.artifact? = if written.isOk then some p else none := by
  by_cases hcontainer : ∃ p data, HasContainer host options fs source p data
  · obtain ⟨p, data, hcontainer⟩ := hcontainer
    obtain ⟨start, hstart, hunit⟩ := hcontainer.unit_eq
    obtain ⟨hstored, hafter⟩ := Prod.mk.inj ((hunit fs rfl).symm.trans h)
    have hreplaced := hcontainer.replaced
    generalize Container.replaceFile host fs p data = outcome at hreplaced hstored hafter
    obtain ⟨written, after⟩ := outcome
    subst hafter
    refine Or.inr ⟨p, data, written, hcontainer, hreplaced, ?_⟩
    cases written with
    | ok _ =>
      cases hstored
      rfl
    | error e => exact (artifact?_of_stored_error hstored).trans hstart
  · have hnone : ∀ p data, ¬ HasContainer host options fs source p data := by
      intro p data hcontainer'
      exact hcontainer ⟨p, data, hcontainer'⟩
    exact Or.inl ⟨hnone, unit_of_not_hasContainer hnone h⟩

/-- The container that a unit names is that of its source. -/
theorem exists_hasContainer {p : Path} (h : unit host options fs source = (.ok result, fs'))
    (hartifact : result.artifact? = some p) :
    ∃ data, HasContainer host options fs source p data := by
  rcases outcome_of_unit h with ⟨_, _, hnone⟩ | ⟨q, data, written, hcontainer, _, hnamed⟩
  · cases hnone.symm.trans hartifact
  · rw [hartifact] at hnamed
    split at hnamed
    · cases hnamed
      exact ⟨data, hcontainer⟩
    · cases hnamed

/-- A unit whose container is blocked comes to a result all the same. -/
theorem exists_unit_of_isBlocked (h : IsBlocked host options fs source) :
    ∃ result fs', unit host options fs source = (.ok result, fs') := by
  obtain ⟨p, data, hcontainer, hblocked⟩ := h
  obtain ⟨start, _, hunit⟩ := hcontainer.unit_eq
  replace hunit := hunit fs rfl
  have hreplaced := hcontainer.replaced
  generalize Container.replaceFile host fs p data = outcome at hreplaced hunit
  cases hreplaced with
  | stored hfree => exact (hfree hblocked).elim
  | refused hfree => exact (hfree hblocked).elim
  | left _ hos _ _ =>
    obtain ⟨cause, t, target?, rfl⟩ := hos
    exact ⟨_, _, hunit⟩

/-- What a unit that comes to a result has done to the files.  With a container, the file of
the container has its bytes, a temporary file is not there any longer, and all other files
are as before; without one, all files are, unless the container is blocked, and then the
temporary file has the bytes of the container. -/
theorem files_of_unit (h : unit host options fs source = (.ok result, fs')) :
    (result.isOk = true → ∃ p data a t,
      HasContainer host options fs source p data ∧ result.artifact? = some p ∧
      fs'.locate p = .ok a ∧ fs'.locate (Container.temporaryPath host p) = .ok t ∧
      ∀ b, fs'.file? b
        = if b = a then some data else if b = t then none else fs.file? b) ∧
    (result.isOk = false → result.artifact? = none ∧
      (¬ IsBlocked host options fs source → ∀ b, fs'.file? b = fs.file? b)) ∧
    (IsBlocked host options fs source → result.isOk = false ∧ ∃ p data t,
      HasContainer host options fs source p data ∧
      fs'.locate (Container.temporaryPath host p) = .ok t ∧
      ∀ b, fs'.file? b = if b = t then some data else fs.file? b) := by
  have hok : result.isOk = result.artifact?.isSome :=
    (isReported_of_unit (congrArg Prod.fst h)).isOk
  rcases outcome_of_unit h with ⟨hnone, rfl, hartifact⟩ |
    ⟨p, data, written, hcontainer, hreplaced, hartifact⟩
  · rw [hartifact] at hok
    refine ⟨fun htrue => ?_, fun _ => ⟨hartifact, fun _ _ => rfl⟩, fun hblocked => ?_⟩
    · cases hok.symm.trans htrue
    · obtain ⟨p, data, hcontainer, _⟩ := hblocked
      exact (hnone p data hcontainer).elim
  · rw [hcontainer.isBlocked_iff]
    cases hreplaced with
    | stored hfree hpath htemporary hfiles =>
      have hnamed : result.artifact? = some p := hartifact
      rw [hnamed] at hok
      refine ⟨fun _ => ⟨p, data, _, _, hcontainer, hnamed, hpath, htemporary, hfiles⟩,
        fun hfalse => ?_, fun hblocked => (hfree hblocked).elim⟩
      cases hok.symm.trans hfalse
    | left hblocked _ htemporary hfiles =>
      have hunnamed : result.artifact? = none := hartifact
      rw [hunnamed] at hok
      refine ⟨fun htrue => ?_, fun _ => ⟨hunnamed, fun hfree => (hfree hblocked).elim⟩, fun _ => ?_⟩
      · cases hok.symm.trans htrue
      · exact ⟨hok, p, data, _, hcontainer, htemporary, hfiles⟩
    | refused hfree hfiles =>
      have hunnamed : result.artifact? = none := hartifact
      rw [hunnamed] at hok
      refine ⟨fun htrue => ?_, fun _ => ⟨hunnamed, fun _ => hfiles⟩,
        fun hblocked => (hfree hblocked).elim⟩
      cases hok.symm.trans htrue

/-! ## A container in place, and one that is blocked -/

/-- The files of the sample, with a directory where its container should be. -/
def blockedFiles : FileSystem := sampleFiles.put [FileName.encode "m.dca"] .directory

theorem exists_unit_sampleFiles :
    ∃ result fs', unit sampleHost sampleOptions sampleFiles (Path.parse "m.src") = (.ok result, fs') ∧
      result.isOk = true ∧ result.artifact? = some (Path.parse "m.dca") := by
  obtain ⟨result, hresult, hparts⟩ := map_eq_ok_iff.1 unit_sampleFiles
  obtain ⟨hisOk, hartifact, -⟩ := by simpa using hparts
  exact ⟨result, _, Prod.ext hresult rfl, hisOk, hartifact⟩

theorem isBlocked_blockedFiles :
    IsBlocked sampleHost sampleOptions blockedFiles (Path.parse "m.src") := by
  obtain ⟨result, fs', hunit, _, hartifact⟩ := exists_unit_sampleFiles
  obtain ⟨data, hcontainer⟩ := exists_hasContainer hunit hartifact
  have hsame : check blockedFiles sampleOptions (Path.parse "m.src")
      = check sampleFiles sampleOptions (Path.parse "m.src") := by
    have hforms : Source.readForms blockedFiles (Path.parse "m.src") none
        = .ok (.ok sampleForms) := by cbv
    have hblocked := read_of_sampleForms hforms
    rw [check, check, hblocked, read_sampleFiles]
  refine ⟨_, data, hcontainer.of_check_eq hsame, blockedFiles, ?_, ?_, ?_⟩
  · cbv
  · cbv
  · cbv

/-- The sample is compiled to a container, and with a directory in its place only the
temporary file is written. -/
theorem files_of_unit_sampleFiles :
    (∃ result fs' p data a t,
      unit sampleHost sampleOptions sampleFiles (Path.parse "m.src") = (.ok result, fs') ∧
      result.isOk = true ∧ result.artifact? = some p ∧ fs'.locate p = .ok a ∧
      ∀ b, fs'.file? b = if b = a then some data else if b = t then none else sampleFiles.file? b) ∧
    ∃ result fs' data t,
      unit sampleHost sampleOptions blockedFiles (Path.parse "m.src") = (.ok result, fs') ∧
      result.isOk = false ∧
      ∀ b, fs'.file? b = if b = t then some data else blockedFiles.file? b := by
  constructor
  · obtain ⟨result, fs', hunit, hisOk, _⟩ := exists_unit_sampleFiles
    obtain ⟨p, data, a, t, _, hartifact, hpath, _, hfiles⟩ := (files_of_unit hunit).1 hisOk
    exact ⟨result, fs', p, data, a, t, hunit, hisOk, hartifact, hpath, hfiles⟩
  · obtain ⟨result, fs', hunit⟩ := exists_unit_of_isBlocked isBlocked_blockedFiles
    obtain ⟨hisOk, p, data, t, _, _, hfiles⟩ :=
      (files_of_unit hunit).2.2 isBlocked_blockedFiles
    exact ⟨result, fs', data, t, hunit, hisOk, hfiles⟩

end Compile

end ModuleDocs
