import Mathlib
import ModuleDocs.Proofs.Collector.Lines
import ModuleDocs.Proofs.Compile.Report
import ModuleDocs.Proofs.Source.Spans
import ModuleDocs.Proofs.Source.Unfolding

/-!
# What the places in a result are

The events of a unit are in the places of its forms, so that the line of an entry is that of a form
that declares the entity, and an error about documentation is in the place of a form or on such a
line (`isPlaced_of_isPlace`).  Errors of the later stages are about the whole source
(`HasPlaces.addDiagnostics`).

The line of a declaration is reported as one of the source, though it may be one of a file that the
source includes (`IsPlaced.declaration`).  Then it is not where the declaration is (`ofLine_eq_iff`).
-/

namespace ModuleDocs

open Result Source

namespace Compile

variable {host : Host} {options : CompileOptions} {fs : FileSystem} {includePaths : List Path}
  {source p : Path} {result result' : UnitResult} {checked : Checked} {checked? : Option Checked}
  {unit : SourceUnit} {diagnostics : List Diagnostic} {form : Form} {span : Span}

/-! ## Units -/

/-- Lines are counted from one. -/
theorem line_pos_of_isFormOf (h : IsFormOf fs includePaths source form) : 0 < form.at_.line := by
  obtain ⟨p, t, forms, _, _, hforms, hform⟩ := h
  obtain ⟨before, rest, _, hline, _⟩ :=
    ((Form.arePlaced_of_ofText hforms).signs form hform (CodePoint.ofChar '-')).2 rfl
  rw [hline]
  exact Nat.succ_pos _

/-- The events of a unit come from forms of its source. -/
theorem exists_isFormOf_of_read
    (h : SourceUnit.read fs includePaths source = .ok (some unit, diagnostics)) :
    ∀ event ∈ unit.events, ∃ form, IsFormOf fs includePaths source form ∧
      IsFrom unit.module form event := by
  obtain ⟨expansion, found, hload, _, hforms, _⟩ := read_eq_ok h
  intro event hevent
  obtain ⟨form, hform, hfrom⟩ := allFrom_of_ofForms hforms event hevent
  exact ⟨form, (comesFrom_of_load hload).forms form hform, hfrom⟩

/-- The declarations of a unit are forms of its source. -/
theorem exists_declares_of_read {ref : EntityRef}
    (h : SourceUnit.read fs includePaths source = .ok (some unit, diagnostics))
    (hevent : .declaration ref span ∈ unit.events) :
    ∃ form, IsFormOf fs includePaths source form ∧ Declares form ref ∧ span = form.span := by
  obtain ⟨expansion, found, hload, _, hforms, _⟩ := read_eq_ok h
  obtain ⟨form, hform, hdeclares, hspan⟩ := exists_declares hforms hevent
  exact ⟨form, (comesFrom_of_load hload).forms form hform, hdeclares, hspan⟩

theorem areDeclared_of_read
    (h : SourceUnit.read fs includePaths source = .ok (some unit, diagnostics)) :
    Event.AreDeclared (.ofModule unit.module) unit.events := by
  obtain ⟨expansion, found, hload, _, hforms, _⟩ := read_eq_ok h
  refine ⟨fun event hevent => ?_, ?_, fun event hevent => exists_declaration hforms hevent⟩
  · obtain ⟨form, hform, hfrom⟩ := exists_isFormOf_of_read h event hevent
    refine ⟨form.at_.line, ?_, by exact_mod_cast line_pos_of_isFormOf hform⟩
    rw [hfrom.span]
    rfl
  · obtain ⟨first, _, _, _, _, _, _, hevents, _, _⟩ := ofForms_eq_ok hforms
    refine ⟨first.span, ?_⟩
    rw [hevents]
    exact List.mem_cons_self

/-! ## Places -/

/-- A place of the source, or the line of a declaration as a line of the source. -/
inductive IsPlaced (fs : FileSystem) (includePaths : List Path) (source : Path) : Span → Prop
  | accounted {span : Span} (h : IsAccounted fs includePaths source span) :
      IsPlaced fs includePaths source span
  | declaration {form : Form} {ref : EntityRef} (hform : IsFormOf fs includePaths source form)
      (hdeclares : Declares form ref) :
      IsPlaced fs includePaths source (.ofLine (some source.toText) form.at_.line)

/-- Each diagnostic is in its place, and each line of the table is that of a form that declares the
entity. -/
structure HasPlaces (fs : FileSystem) (includePaths : List Path) (source : Path)
    (result : UnitResult) : Prop where
  own : result.source = source
  diagnostics : ∀ d ∈ result.diagnostics, IsPlaced fs includePaths source d.span
  lines : ∀ table, result.table? = some table → ∀ e ∈ table.module :: table.entries,
    ∃ form, IsFormOf fs includePaths source form ∧ Declares form e.ref ∧ e.line = form.at_.line

/-- The forms of a file name it. -/
theorem inFile_of_isFormOf (h : IsFormOf fs includePaths source form) (file? : Option Text) :
    form.span.inFile file? = form.span := by
  obtain ⟨p, t, forms, _, _, hforms, hform⟩ := h
  rw [Form.span, Form.file?_of_ofText hforms hform]
  rfl

/-- The line of a form as a line of the source is where the form is just if that is in the source
itself. -/
theorem ofLine_eq_iff (h : IsFormOf fs includePaths source form) :
    Span.ofLine (some source.toText) form.at_.line = { form.span with column? := none } ↔
      form.file? = some source.toText := by
  have hline : form.at_.line ≠ 0 := (line_pos_of_isFormOf h).ne'
  simp [Span.ofLine, Span.unknown, Form.span, Span.at_, hline, eq_comm]

/-- The places of the errors of a unit. -/
theorem isPlaced_of_isPlace
    (hread : SourceUnit.read fs includePaths source = .ok (some unit, diagnostics))
    (h : Event.IsPlace unit.events (some source.toText) span) :
    IsPlaced fs includePaths source (span.inFile (some source.toText)) := by
  rcases h with ⟨event, hevent, rfl⟩ | ⟨ref, place, line, hevent, hline, rfl⟩
  · obtain ⟨form, hform, hfrom⟩ := exists_isFormOf_of_read hread event hevent
    rw [hfrom.span, inFile_of_isFormOf hform]
    exact .accounted (.form hform)
  · obtain ⟨form, hform, hdeclares, rfl⟩ := exists_declares_of_read hread hevent
    cases hline
    exact .declaration hform hdeclares

/-! ## Stages -/

/-- What is said about the whole source is in its place. -/
theorem HasPlaces.addDiagnostics (h : HasPlaces fs includePaths source result) {d : Diagnostic}
    (hd : d.span = .ofFile source.toText) :
    HasPlaces fs includePaths source (result.addDiagnostics [d]) where
  own := h.own
  diagnostics := List.forall_mem_append.2 ⟨h.diagnostics,
    List.forall_mem_singleton.2 (hd ▸ .accounted .whole)⟩
  lines := h.lines

/-- The path of a unit is that of its source. -/
theorem path_of_read (h : SourceUnit.read fs includePaths source = .ok (some unit, diagnostics)) :
    unit.path = source := by
  obtain ⟨_, _, _, _, hforms, _⟩ := read_eq_ok h
  obtain ⟨_, _, _, _, _, _, hpath, _⟩ := ofForms_eq_ok hforms
  exact hpath

theorem hasPlaces_of_check (h : check fs options source = .ok (result, checked?)) :
    HasPlaces fs options.includePaths source result := by
  have hreported {unit? : Option SourceUnit} {diagnostics : List Diagnostic}
      (hread : SourceUnit.read fs options.includePaths source = .ok (unit?, diagnostics)) :
      ∀ d ∈ diagnostics, IsPlaced fs options.includePaths source d.span :=
    fun d hd => .accounted (isAccounted_of_read hread d hd)
  cases checks_of_check h with
  | unread hread => exact ⟨rfl, hreported hread, nofun⟩
  | wrong hread _ => exact ⟨rfl, hreported hread, nofun⟩
  | @refused unit diagnostics e hread htable =>
    rw [path_of_read hread] at htable ⊢
    have hplace : Event.IsPlace unit.events (some source.toText) e.span :=
      DocTable.ofEvents_failsIn (areDeclared_of_read hread) _ htable e rfl
    have hspan := isPlaced_of_isPlace hread hplace
    rw [← DocError.span_toDiagnostic] at hspan
    exact ⟨rfl, List.forall_mem_append.2 ⟨hreported hread, List.forall_mem_singleton.2 hspan⟩,
      nofun⟩
  | @checked unit diagnostics table hread _ htable =>
    refine ⟨rfl, hreported hread, fun table' htable' e he => ?_⟩
    cases htable'
    obtain ⟨place, hplace, hline⟩ :=
      DocTable.exists_declaration_of_ofEvents (areDeclared_of_read hread) htable e he
    obtain ⟨form, hform, hdeclares, rfl⟩ := exists_declares_of_read hread hplace
    exact ⟨form, hform, hdeclares, (Option.some.inj hline).symm⟩

theorem hasPlaces_of_build {built? : Option (Text × Chunks)}
    (h : build options fs source = .ok (result, built?)) :
    HasPlaces fs options.includePaths source result := by
  cases builds_of_build h with
  | unchecked hcheck => exact hasPlaces_of_check hcheck
  | unwritten hcheck hchunks =>
    obtain ⟨message, rfl⟩ := exists_stageError_of_chunksOf hchunks
    exact (hasPlaces_of_check hcheck).addDiagnostics rfl
  | built hcheck _ => exact hasPlaces_of_check hcheck

theorem hasPlaces_of_buildDocs {built? : Option (Text × Bytes)}
    (h : buildDocs options fs source = .ok (result, built?)) :
    HasPlaces fs options.includePaths source result := by
  unfold buildDocs at h
  obtain ⟨⟨start, checked?⟩, hcheck, h⟩ := bind_eq_ok_iff.1 h
  have hstart := hasPlaces_of_check hcheck
  cases checked? with
  | none =>
    cases h
    exact hstart
  | some checked =>
    simp only at h
    obtain ⟨chunks, hchunks, h⟩ := bind_eq_ok_iff.1 h
    cases chunks with
    | error d =>
      cases h
      obtain ⟨message, rfl⟩ := exists_stageError_of_docsChunk hchunks
      exact hstart.addDiagnostics rfl
    | ok chunks =>
      cases h
      exact hstart

theorem hasPlaces_of_stored {verb : String} {written : Except StoreError Unit}
    (hresult : HasPlaces fs includePaths source result)
    (h : stored result p verb written = .ok result') :
    HasPlaces fs includePaths source result' := by
  rcases stored_cases h with ⟨_, rfl⟩ | ⟨message, rfl⟩
  · exact ⟨hresult.own, hresult.diagnostics, hresult.lines⟩
  · rw [hresult.own]
    exact hresult.addDiagnostics rfl

theorem hasPlaces_of_unit (h : (Compile.unit host options fs source).1 = .ok result) :
    HasPlaces fs options.includePaths source result := by
  rcases unit_cases (Prod.ext h rfl) with ⟨hbuild, _⟩ | ⟨start, module, chunks, hbuild, _, hstored⟩
  · exact hasPlaces_of_build hbuild
  · exact hasPlaces_of_stored (hasPlaces_of_build hbuild) hstored

theorem hasPlaces_of_append (h : (append host options fs source p).1 = .ok result) :
    HasPlaces fs options.includePaths source result := by
  unfold append at h
  split at h
  · cases h
  · rename_i hbuild
    cases h
    exact hasPlaces_of_buildDocs hbuild
  · rename_i hbuild
    exact hasPlaces_of_stored (hasPlaces_of_buildDocs hbuild) h

/-! ## Sources -/

/-- The forms of a text stand in it where they say, and whatever is said about a source is in the
place of one of its forms, but for what is said about the line of an entry.  That is the line of a
declaration, as one of the source, and so it is where the declaration is just if that is in the
source itself. -/
theorem hasPlaces_of_sources (fs : FileSystem) (source : Path) :
    (∀ t file? forms, Form.ofText t file? = .ok forms → Form.ArePlaced t forms) ∧
    (∀ includePaths unit? diagnostics,
      SourceUnit.read fs includePaths source = .ok (unit?, diagnostics) →
        (∀ d ∈ diagnostics, IsAccounted fs includePaths source d.span) ∧
        ∀ unit, unit? = some unit → ∀ event ∈ unit.events,
          ∃ form, IsFormOf fs includePaths source form ∧ IsFrom unit.module form event) ∧
    (∀ includePaths form, IsFormOf fs includePaths source form →
      (Span.ofLine (some source.toText) form.at_.line = { form.span with column? := none } ↔
        form.file? = some source.toText)) ∧
    ∀ host options p result,
      (Compile.unit host options fs source).1 = .ok result ∨
        (append host options fs source p).1 = .ok result →
      HasPlaces fs options.includePaths source result := by
  refine ⟨fun t file? forms h => Form.arePlaced_of_ofText h, ?_,
    fun includePaths form => ofLine_eq_iff, ?_⟩
  · intro includePaths unit? diagnostics h
    refine ⟨isAccounted_of_read h, ?_⟩
    intro unit hunit
    subst hunit
    exact exists_isFormOf_of_read h
  · intro host options p result h
    rcases h with hunit | happend
    · exact hasPlaces_of_unit hunit
    · exact hasPlaces_of_append happend

/-- A key over two lines, an integer and a comment with minus signs, a text that is not UTF-8 on the
fourth line, and a declaration. -/
def includedSource : Text :=
  "-doc #\x7b\"a\n-b\" => -1\x7d. % -c\u2028-d\n\n -doc <<\"\\xff\">>. -fun f/1."

def includedForms (file? : Option Text) : List Form :=
  [⟨"doc", .map [(.text "a\n-b", .int (.negSucc 0))], ⟨1, 1⟩, file?⟩,
    ⟨"doc", .tagged [0xff] "utf8", ⟨4, 2⟩, file?⟩, ⟨"fun", .funRef "f" 1, ⟨4, 19⟩, file?⟩]

/-- A source of one line that includes it. -/
def misplacingFiles : FileSystem :=
  ((FileSystem.empty ⟨.single, []⟩).put [FileName.encode "m.src"]
    (.file (FileName.encode "-module(m). -include(\"a.src\")."))).put
    [FileName.encode "a.src"] (.file (FileName.encode includedSource))

theorem isRegular_misplacingFiles : misplacingFiles.IsRegular :=
  ((FileSystem.isRegular_empty .single).put [] rfl (by decide) _).put [] rfl (by decide) _

theorem load_misplacingFiles : load misplacingFiles [] (Path.parse "m.src") =
    .ok ⟨⟨"module", .atom "m", ⟨1, 1⟩, some "m.src"⟩ :: includedForms (some "/a.src"), [],
      [Path.parse "/a.src"]⟩ := by
  have hmain : readForms misplacingFiles (Path.parse "m.src") none =
      .ok (.ok [⟨"module", .atom "m", ⟨1, 1⟩, some "m.src"⟩,
        ⟨"include", .text "a.src", ⟨1, 13⟩, some "m.src"⟩]) := by cbv
  have hother : readForms misplacingFiles (Path.parse "/a.src") none
      = .ok (.ok (includedForms (some "/a.src"))) := by cbv
  have htarget : resolveInclude misplacingFiles [] (Path.parse "m.src") "a.src"
      = .ok (some (Path.parse "/a.src")) := by cbv
  have hinside : Unfolds misplacingFiles [] (Path.parse "/a.src") (includedForms (some "/a.src"))
      (includedForms (some "/a.src")) [] :=
    .keep (by decide) (by decide) (.keep (by decide) (by decide)
      (.keep (by decide) (by decide) .nil))
  exact (load_eq_ok_iff isRegular_misplacingFiles).2 ⟨_, hmain,
    .keep (by decide) (by decide) (.splice rfl htarget hother hinside .nil)⟩

def misplacedUnit : SourceUnit where
  module := "m"
  path := Path.parse "m.src"
  events :=
    [.declaration (.ofModule "m") (.at_ (some "m.src") 1 1),
      .entityMeta ⟨.function, "f", 1⟩ (.map [(.text "a\n-b", .int (.negSucc 0))])
        (.at_ (some "/a.src") 1 1),
      .entityDoc ⟨.function, "f", 1⟩ (.value (.tagged [0xff] "utf8")) (.at_ (some "/a.src") 4 2),
      .declaration ⟨.function, "f", 1⟩ (.at_ (some "/a.src") 4 19)]
  exports := []
  includes := [Path.parse "/a.src"]

theorem read_misplacingFiles :
    SourceUnit.read misplacingFiles sampleOptions.includePaths (Path.parse "m.src")
      = .ok (some misplacedUnit, []) := by
  rw [SourceUnit.read, sampleOptions, load_misplacingFiles]
  rfl

theorem unit_misplacingFiles :
    (Compile.unit sampleHost sampleOptions misplacingFiles (Path.parse "m.src")).1.map
        (fun result => result.diagnostics.map (·.span))
      = .ok [.ofLine (some "m.src") 4] := by
  rw [Compile.unit, build, check, read_misplacingFiles]
  cbv

/-- The forms and the events are placed in both files, and what is wrong on the fourth line of the
included one is reported on the fourth line of the source, which has only one. -/
theorem hasPlaces_misplacingFiles :
    Form.ArePlaced includedSource (includedForms none) ∧
    (∀ event ∈ misplacedUnit.events,
      ∃ form, IsFormOf misplacingFiles [] (Path.parse "m.src") form ∧ IsFrom "m" form event) ∧
    ∃ result,
      (Compile.unit sampleHost sampleOptions misplacingFiles (Path.parse "m.src")).1 = .ok result ∧
      result.diagnostics.map (·.span) = [.ofLine (some "m.src") 4] ∧
      HasPlaces misplacingFiles [] (Path.parse "m.src") result ∧
      ∀ form ∈ includedForms (some "/a.src"),
        Span.ofLine (some "m.src") form.at_.line ≠ { form.span with column? := none } := by
  obtain ⟨hforms, hread, hlines, hresult⟩ :=
    hasPlaces_of_sources misplacingFiles (Path.parse "m.src")
  obtain ⟨result, hunit, hspans⟩ := map_eq_ok_iff.1 unit_misplacingFiles
  have hincluded : Form.ofText includedSource none = .ok (includedForms none) := by cbv
  refine ⟨hforms _ _ _ hincluded, (hread _ _ _ read_misplacingFiles).2 _ rfl, result, hunit,
    hspans, hresult _ _ (Path.parse "m.dca") _ (.inl hunit), fun form hform => ?_⟩
  have hformOf := (comesFrom_of_load load_misplacingFiles).forms form (List.mem_cons_of_mem _ hform)
  have hfiles : ∀ form ∈ includedForms (some "/a.src"),
      form.file? ≠ some (Path.parse "m.src").toText := by decide
  exact (hlines _ form hformOf).not.2 (hfiles form hform)

end Compile

end ModuleDocs
