import Mathlib
import ModuleDocs.Proofs.Compile.Report
import ModuleDocs.Proofs.Compile.Stops

/-!
# Batches

With one job the units of a batch are compiled one behind the other, each with the files that
the ones before it have left (`steps`).  Such a batch has results just when each of its steps
has one (`inOrder_eq_ok_iff`).  A step writes nothing but a container, so that the limits of the
first files hold for all steps (`forall_steps`), and a batch whose files are within the limits
reports on all its sources just when no step is stopped (`batch_reports_iff`).
-/

namespace ModuleDocs

open Result

namespace Compile

/-! ## Steps -/

section

variable {ε : Type} (compileOne : FileSystem → Path → Except ε UnitResult × FileSystem)

/-- The sources of a batch, each with the files that it finds. -/
def steps (fs : FileSystem) : List Path → List (FileSystem × Path)
  | [] => []
  | source :: rest => (fs, source) :: steps (compileOne fs source).2 rest

variable {fs : FileSystem} {sources : List Path} {results : List UnitResult}

theorem inOrder_eq_ok_iff : (inOrder compileOne fs sources).1 = .ok results ↔
    List.Forall₂ (fun step result => (compileOne step.1 step.2).1 = .ok result)
      (steps compileOne fs sources) results := by
  induction sources generalizing fs results with
  | nil => simp [inOrder, steps, eq_comm]
  | cons source rest ih =>
    rw [inOrder, steps, List.forall₂_cons_left_iff]
    split
    · rename_i e fs' hfirst
      simp [hfirst]
    · rename_i result fs' hfirst
      rw [hfirst]
      simp only [map_eq_ok_iff, Except.ok.injEq, ih]
      constructor
      · rintro ⟨others, hothers, rfl⟩
        exact ⟨result, others, rfl, hothers, rfl⟩
      · rintro ⟨_, others, rfl, hothers, rfl⟩
        exact ⟨others, hothers, rfl⟩

/-- One job, or as good as one, compiles the sources in their order. -/
theorem allOf_eq_inOrder {jobs : Int} (h : jobs ≤ 1 ∨ sources.length ≤ 1) :
    allOf compileOne jobs fs sources = inOrder compileOne fs sources := if_pos h

/-- Sources that all have results leave the files that the last of them leaves. -/
theorem inOrder_snd (h : (inOrder compileOne fs sources).1 = .ok results) :
    (inOrder compileOne fs sources).2 = (each compileOne fs sources).2 := by
  induction sources generalizing fs results with
  | nil => rfl
  | cons source rest ih =>
    rw [inOrder] at h ⊢
    rw [each]
    split at h
    · cases h
    · rename_i first fs' hfirst
      obtain ⟨others, hothers, -⟩ := map_eq_ok_iff.1 h
      simp only [hfirst, ih hothers]

section Failures

variable {compileOne} {P : ε → Prop}

theorem inOrder_failsWith (h : ∀ fs source, FailsWith P (compileOne fs source).1) :
    FailsWith P (inOrder compileOne fs sources).1 := by
  induction sources generalizing fs with
  | nil => exact FailsWith.ok []
  | cons source rest ih =>
    rw [inOrder]
    split
    · rename_i e fs' hfirst
      exact FailsWith.error (h fs source e (congrArg Prod.fst hfirst))
    · exact ih.map

theorem each_failsWith (h : ∀ fs source, FailsWith P (compileOne fs source).1) :
    FailsWith P ((each compileOne fs sources).1.mapM id) := by
  induction sources generalizing fs with
  | nil => exact FailsWith.ok []
  | cons source rest ih =>
    rw [each]
    dsimp only
    rw [List.mapM_cons]
    exact (h fs source).bind fun result _ => ih.bind fun others _ => FailsWith.pure _

/-- A batch fails as the compilations of its sources do. -/
theorem allOf_failsWith (h : ∀ fs source, FailsWith P (compileOne fs source).1) {jobs : Int} :
    FailsWith P (allOf compileOne jobs fs sources).1 := by
  unfold allOf
  split
  · exact inOrder_failsWith h
  · exact each_failsWith h

end Failures

/-- What holds of the files before each compilation, and is kept by it, holds in all steps. -/
theorem forall_steps {I : FileSystem → Prop}
    (hkeep : ∀ fs source, I fs → I (compileOne fs source).2) (hfs : I fs) :
    ∀ step ∈ steps compileOne fs sources, I step.1 ∧ step.2 ∈ sources := by
  induction sources generalizing fs with
  | nil => simp [steps]
  | cons source rest ih =>
    rw [steps]
    refine List.forall_mem_cons.2 ⟨⟨hfs, List.mem_cons_self⟩, fun step hstep => ?_⟩
    obtain ⟨hI, hmem⟩ := ih (hkeep fs source hfs) step hstep
    exact ⟨hI, List.mem_cons_of_mem source hmem⟩

theorem map_snd_steps : (steps compileOne fs sources).map (·.2) = sources := by
  induction sources generalizing fs with
  | nil => rfl
  | cons source rest ih => rw [steps, List.map_cons, ih]

end

/-! ## Units -/

variable {host : Host} {options : CompileOptions} {home : Path} {fs : FileSystem}
  {sources : List Path}

theorem batch_one : batch host options 1 fs sources = inOrder (unit host options) fs sources :=
  allOf_eq_inOrder _ (Or.inl le_rfl)

/-- A unit leaves files with limited tokens behind. -/
theorem holds_of_unit (source : Path) (h : fs.Holds home Source.HasLimitedTokens) :
    (unit host options fs source).2.Holds home Source.HasLimitedTokens := by
  rcases snd_unit_cases host options fs source with hsame | ⟨p, chunks, data, hencode, hafter⟩
  · rwa [hsame]
  · rw [hafter]
    exact h.replaceFile host p (Source.hasLimitedTokens_of_container hencode)

/-- The results of a batch that is compiled by one job are those of its steps, one for each
source and in the order of the sources, and a step that went wrong has an error.  If its files
are within the limits, it has results just when none of its steps is stopped by what is no
diagnostic: a path that the system does not take, or a count of 2 ^ 32 members. -/
theorem batch_reports_iff (htag : host.processTag.all FileName.canHold = true)
    (hschema : ∃ lines, Schema.extend Schema.default lines = .ok options.schema)
    (hhome : fs.workingDirectory.IsNameable)
    (hfiles : ∀ a data, fs.get? a = some (.file data) → Source.IsLimitedFile data)
    (hsources : ∀ source ∈ sources, source.IsNameable) {jobs : Int}
    (hjobs : jobs ≤ 1 ∨ sources.length ≤ 1) :
    (∃ results, (batch host options jobs fs sources).1 = .ok results ∧
      List.Forall₂ IsReported sources results) ↔
        ∀ step ∈ steps (unit host options) fs sources, ¬ Stops host options step.1 step.2 := by
  obtain ⟨lines, hschema⟩ := hschema
  have hknown := Schema.isKnown_of_extend Schema.isKnown_default hschema
  have hfirst : fs.Holds fs.workingDirectory Source.HasLimitedTokens :=
    ⟨rfl, fun a data ha => (hfiles a data ha).hasLimitedTokens⟩
  have hsteps : ∀ step ∈ steps (unit host options) fs sources,
      step.1.Holds fs.workingDirectory Source.HasLimitedTokens ∧ step.2 ∈ sources :=
    forall_steps (unit host options) (fun _ source hfs => holds_of_unit source hfs) hfirst
  have hstep : ∀ step ∈ steps (unit host options) fs sources,
      (¬ Stops host options step.1 step.2 ↔ ∃ r, (unit host options step.1 step.2).1 = .ok r) := by
    intro step hmem
    obtain ⟨hfs, hsource⟩ := hsteps step hmem
    rw [← unit_fails_iff htag hknown hfs hhome (hsources _ hsource), not_fails_iff]
  rw [batch, allOf_eq_inOrder _ hjobs]
  constructor
  · rintro ⟨results, hresults, _⟩ step hmem
    have hall := (inOrder_eq_ok_iff (unit host options)).1 hresults
    obtain ⟨r, _, hr⟩ := Lists.exists_right hall step hmem
    exact (hstep step hmem).2 ⟨r, hr⟩
  · intro hnone
    obtain ⟨results, hresults⟩ := Lists.exists_forall₂ fun step hmem =>
      (hstep step hmem).1 (hnone step hmem)
    refine ⟨results, (inOrder_eq_ok_iff (unit host options)).2 hresults, ?_⟩
    have hreported := hresults.imp fun step r hr => isReported_of_unit hr
    rwa [← List.forall₂_map_left_iff, map_snd_steps] at hreported

/-- A source with documentation that is not UTF-8. -/
def brokenSource : Text := "-module(n). -moduledoc <<\"\\xff\"/utf8>>."

/-- The sample beside that source. -/
def pairFiles : FileSystem :=
  sampleFiles.put [FileName.encode "n.src"] (.file (FileName.encode brokenSource))

def brokenUnit : Source.SourceUnit where
  module := "n"
  path := Path.parse "n.src"
  events :=
    [.declaration (.ofModule "n") (.at_ (some "n.src") 1 1),
      .moduleDoc (.value (.tagged [0xFF] "utf8")) (.at_ (some "n.src") 1 13)]
  exports := []
  includes := []

theorem read_broken :
    Source.SourceUnit.read pairFiles sampleOptions.includePaths (Path.parse "n.src")
      = .ok (some brokenUnit, []) := by
  have hread : Source.readForms pairFiles (Path.parse "n.src") none
      = .ok (.ok [⟨"module", .atom "n", ⟨1, 1⟩, some "n.src"⟩,
        ⟨"moduledoc", .tagged [0xFF] "utf8", ⟨1, 13⟩, some "n.src"⟩]) := by cbv
  rw [Source.read_of_plain hread (by decide)]
  rfl

/-- The documentation of the one source cannot be normalized, and nothing is written. -/
theorem build_broken : (build sampleOptions pairFiles (Path.parse "n.src")).map
    (fun built => (built.1.diagnostics.map (·.code?), built.2))
      = .ok ([some (Text.ofString "E-DOC-ENCODING")], none) := by
  rw [build, check, read_broken]
  cbv

/-- The other source is compiled as it is on its own. -/
theorem unit_made : (unit sampleHost sampleOptions pairFiles (Path.parse "m.src")).1.map
    (fun result => (result.isOk, result.artifact?)) = .ok (true, some (Path.parse "m.dca")) := by
  rw [unit, build, check, read_of_sampleForms (by cbv)]
  cbv

theorem isLimitedFile_of_decode {data : Bytes} {t : Text} (hdecode : Utf8.decode data = .ok t)
    (hlines : t.unifyLineEnds.count (CodePoint.ofChar '\n') + 1 < 2 ^ 32)
    (hdigits : ((Source.Tokens.ofText t.unifyLineEnds).tokens.all fun token =>
      decide (token.text.length ≤ Decimal.maxDigits)) = true) : Source.IsLimitedFile data := by
  intro t' ht'
  cases hdecode.symm.trans ht'
  refine ⟨hlines, fun nodes _ token htoken _ => ?_⟩
  simpa using List.all_eq_true.1 hdigits token htoken

/-- The first source has an error and the second a container, and nothing stops the batch. -/
theorem batch_pairFiles :
    (∃ broken made, (batch sampleHost sampleOptions 1 pairFiles
        [Path.parse "n.src", Path.parse "m.src"]).1 = .ok [broken, made] ∧
      broken.diagnostics.map (·.code?) = [some (Text.ofString "E-DOC-ENCODING")] ∧
      made.artifact? = some (Path.parse "m.dca")) ∧
    ∀ step ∈ steps (unit sampleHost sampleOptions) pairFiles
        [Path.parse "n.src", Path.parse "m.src"],
      ¬ Stops sampleHost sampleOptions step.1 step.2 := by
  have hfiles : ∀ a data, pairFiles.get? a = some (.file data) → Source.IsLimitedFile data := by
    intro a data ha
    rw [pairFiles, FileSystem.get?_put _ (by simp), sampleFiles,
      FileSystem.get?_put _ (by simp)] at ha
    split at ha
    · cases ha
      exact isLimitedFile_of_decode (t := brokenSource) (by cbv) (by cbv) (by cbv)
    split at ha
    · cases ha
      exact isLimitedFile_of_decode (t := sampleSource) (by cbv) (by cbv) (by cbv)
    · cases a <;> cases ha
  have hhome : pairFiles.workingDirectory.IsNameable := Path.isNameable_iff.2 (by decide)
  have hsources : ∀ source ∈ [Path.parse "n.src", Path.parse "m.src"], source.IsNameable := by
    intro source hsource
    rw [List.mem_pair] at hsource
    rcases hsource with rfl | rfl <;> exact Path.isNameable_iff_toText.2 (by decide)
  obtain ⟨⟨broken, _⟩, hbuild, hcode⟩ := map_eq_ok_iff.1 build_broken
  obtain ⟨hcode, rfl⟩ := Prod.mk.inj hcode
  have hbroken : unit sampleHost sampleOptions pairFiles (Path.parse "n.src")
      = (.ok broken, pairFiles) := by rw [unit, hbuild]
  obtain ⟨made, hmade, hparts⟩ := map_eq_ok_iff.1 unit_made
  have hbatch : (batch sampleHost sampleOptions 1 pairFiles
      [Path.parse "n.src", Path.parse "m.src"]).1 = .ok [broken, made] := by
    rw [batch_one, inOrder_eq_ok_iff]
    refine .cons (by rw [hbroken]) (.cons ?_ .nil)
    rw [hbroken]
    exact hmade
  have hreported : List.Forall₂ IsReported [Path.parse "n.src", Path.parse "m.src"]
      [broken, made] :=
    .cons (isReported_of_unit (congrArg Prod.fst hbroken)) (.cons (isReported_of_unit hmade) .nil)
  refine ⟨⟨broken, made, hbatch, hcode, (Prod.mk.inj hparts).2⟩, ?_⟩
  exact (batch_reports_iff (by decide) ⟨[], rfl⟩ hhome hfiles hsources (Or.inl le_rfl)).1
    ⟨_, hbatch, hreported⟩

/-- A file of a module whose name holds a zero. -/
def zeroFiles : FileSystem :=
  (FileSystem.empty ⟨.single, []⟩).put [FileName.encode "m.src"]
    (.file (FileName.encode "-module('a\\0')."))

example : (unit sampleHost sampleOptions zeroFiles (Path.parse "m.src")).1
    = .error (.file .nullByte) := by
  have hread : Source.readForms zeroFiles (Path.parse "m.src") none
      = .ok (.ok [⟨"module", .atom ['a', CodePoint.ofNat 0], ⟨1, 1⟩, some "m.src"⟩]) := by cbv
  rw [unit, build, check, Source.read_of_plain hread (by decide)]
  cbv

end Compile

end ModuleDocs
