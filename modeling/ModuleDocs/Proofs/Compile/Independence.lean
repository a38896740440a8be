import Mathlib
import ModuleDocs.Proofs.Compile.Batch
import ModuleDocs.Proofs.Compile.Emit
import ModuleDocs.Proofs.Container.Writes
import ModuleDocs.Proofs.Source.Footprint

/-!
# Independent units

Units are independent if each comes to a result on its own, no container or temporary file is
in the way of another one, and what a source looks at shows the same behind the units that
were compiled before it (`Independent`).  They may share directories, which are made by
whichever of them comes first.

A unit writes the same to all files that look alike to it, and comes to the same result
(`exists_isCarriedOut`).  So what is written behind some units is what each of them writes on
its own (`Overlaid`), and this is kept by a step (`Overlaid.step`) and then by a whole batch
(`Overlaid.run`).  `batch_of_independent` is the conclusion for all orders of the sources.

One thing depends on the order.  Where the directories of a container cannot be made, the
reason of the system depends on how many of them are there already
(`batch_ne_alone_sharedFiles`).
-/

namespace ModuleDocs

namespace Compile

open Result FileSystem

variable {host : Host} {options : CompileOptions} {fs g g' : FileSystem} {source other : Path}
  {result : UnitResult} {p q : Path} {data data' : Bytes}

/-! ## Independence -/

/-- Neither of the containers and temporary files is that of the other one, or a directory
that its path leads over. -/
structure AreApart (host : Host) (fs : FileSystem) (p q : Path) : Prop where
  claimed : ∀ a ∈ Container.claimed host fs p, a ∉ Container.claimed host fs q
  left : ∀ a ∈ Container.claimed host fs p, a ∉ fs.way q.parent
  right : ∀ a ∈ Container.claimed host fs q, a ∉ fs.way p.parent

/-- The containers of two sources, if they have any, are apart. -/
def HaveApart (host : Host) (options : CompileOptions) (fs : FileSystem) (source other : Path) :
    Prop :=
  ∀ p data q data', HasContainer host options fs source p data →
    HasContainer host options fs other q data' → AreApart host fs p q

theorem AreApart.symm (h : AreApart host fs p q) : AreApart host fs q p :=
  ⟨fun a ha hmem => h.claimed a hmem ha, h.right, h.left⟩

theorem HaveApart.symm (h : HaveApart host options fs source other) :
    HaveApart host options fs other source :=
  fun p data q data' hp hq => (h q data' p data hq hp).symm

/-- Sources whose units do not get in each other's way. -/
structure Independent (host : Host) (options : CompileOptions) (fs : FileSystem)
    (sources : List Path) : Prop where
  /-- Each of them, compiled on its own, comes to a result. -/
  alone : ∀ source ∈ sources, ∃ result, (unit host options fs source).1 = .ok result
  /-- No container or temporary file is in the way of another one. -/
  apart : sources.Pairwise (HaveApart host options fs)
  /-- What a source looks at is not changed by the units that are compiled before it. -/
  unchanged : ∀ order : List Path, order.Perm sources →
    ∀ step ∈ steps (unit host options) fs order, ∀ look,
      Source.SourceLooks fs options.includePaths step.2 look → look.SameIn fs step.1

/-! ## Results -/

/-- A result with the reason why the container could not be written. -/
def refusal (start : UnitResult) (p : Path) (e : FileError) : UnitResult :=
  start.addDiagnostics [stageError "artifact" "E-DOC-ARTIFACT" start.source
    (("cannot write artifact " : Text) ++ p.toText ++ (": " : Text) ++ e.message)]

/-- The result of a source is the one that it has on its own.  Where the directories of the
container cannot be made, the reason of the system may be another one. -/
inductive IsAsAlone (host : Host) (options : CompileOptions) (fs : FileSystem) (source : Path) :
    UnitResult → Prop
  | same {result : UnitResult} (halone : (unit host options fs source).1 = .ok result) :
    IsAsAlone host options fs source result
  | refused {start : UnitResult} {p : Path} {data : Bytes} {e e' : FileError}
    (hcontainer : HasContainer host options fs source p data)
    (hmake : (fs.makeDirectories p.parent).1 = .error e)
    (halone : (unit host options fs source).1 = .ok (refusal start p e)) (hos : e'.IsOs) :
    IsAsAlone host options fs source (refusal start p e')

theorem stored_of_isOs {e : FileError} (he : e.IsOs) (start : UnitResult) (p : Path) :
    stored start p "cannot write" (.error (.file e)) = .ok (refusal start p e) := by
  obtain ⟨cause, t, target?, rfl⟩ := he
  rfl

/-! ## Units among files that look alike -/

/-- To the compilation of a source the second file system looks like the first. -/
structure LooksAlike (host : Host) (options : CompileOptions) (fs g : FileSystem) (source : Path) :
    Prop where
  regular : g.IsRegular
  workingDirectory : g.workingDirectory = fs.workingDirectory
  check : check g options source = check fs options source
  container : ∀ p data, HasContainer host options fs source p data → Container.Agrees host fs g p

theorem LooksAlike.refl (hfs : fs.IsRegular) : LooksAlike host options fs fs source :=
  ⟨hfs, rfl, rfl, fun p _ _ => .refl hfs host p⟩

/-- Among all files that look alike the unit of a source makes these writes, which are those
of its container and its directories, and comes to the result that it has on its own. -/
structure IsCarriedOut (host : Host) (options : CompileOptions) (fs : FileSystem) (source : Path)
    (w : Writes) : Prop where
  within : ∀ b node?, w b = some node? → ∃ p data, HasContainer host options fs source p data ∧
    (b ∈ Container.claimed host fs p ∨
      b ∈ fs.way p.parent ∧ node? = some .directory ∧ fs.file? b = none)
  turns : ∀ g, LooksAlike host options fs g source → w.Turns g (unit host options g source).2
  result : ∀ g, LooksAlike host options fs g source → ∃ result,
    (unit host options g source).1 = .ok result ∧ IsAsAlone host options fs source result

theorem check_congr (h : Source.SourceUnit.read g options.includePaths source
    = Source.SourceUnit.read fs options.includePaths source) :
    check g options source = check fs options source := by
  rw [check, check, h]

/-- A source without a container comes to the same among all files that give the same checks,
and leaves them as they are. -/
theorem unit_congr_of_not_hasContainer
    (hnone : ∀ p data, ¬ HasContainer host options fs source p data)
    (hcheck : check g options source = check fs options source) :
    unit host options g source = ((unit host options fs source).1, g) := by
  rw [unit, unit, build_congr hcheck]
  rcases hbuild : build options fs source with e | ⟨result, _ | ⟨module, chunks⟩⟩
  · rfl
  · rfl
  · cases hdata : Container.encode host.hash chunks with
    | ok data => exact (hnone _ _ (hasContainer_of_build hbuild hdata)).elim
    | error e =>
      dsimp only
      rw [Container.write_of_error hdata, Container.write_of_error hdata]

/-- The path of a container is read from the unit of its source. -/
theorem HasContainer.path_eq {unit : Source.SourceUnit} {diagnostics : List Diagnostic}
    (h : HasContainer host options fs source p data)
    (hread : Source.SourceUnit.read fs options.includePaths source = .ok (some unit, diagnostics)) :
    p = containerPath source unit.module options := by
  cases h with
  | intro hcheck _ _ =>
    obtain ⟨_, hread', -⟩ := check_eq_ok hcheck
    cases hread.symm.trans hread'
    rfl

/-- The directories of the container of a unit that comes to a result have a path that can be
given to the system. -/
theorem HasContainer.isNameable_parent (h : HasContainer host options fs source p data)
    (halone : (unit host options fs source).1 = .ok result) : p.parent.IsNameable := by
  by_contra hp
  obtain ⟨e, hmake, hos⟩ := (makeDirectories_escapes_iff fs p.parent).2 hp
  obtain ⟨start, -, hunit⟩ := h.unit_eq
  have hfails : Fails (unit host options fs source).1 := by
    rw [hunit fs rfl, Container.replaceFile_of_error (Prod.ext hmake rfl)]
    exact stored_fails_iff.2 ⟨e, rfl, hos⟩
  rw [halone] at hfails
  exact not_fails_ok _ hfails

theorem exists_isCarriedOut_of_hasContainer (hfs : fs.IsRegular)
    (h : HasContainer host options fs source p data)
    (halone : (unit host options fs source).1 = .ok result) :
    ∃ w, IsCarriedOut host options fs source w := by
  have hparent := h.isNameable_parent halone
  obtain ⟨start, -, hunit⟩ := h.unit_eq
  have hname : p.names ≠ [] ∧ FileName.encode p.name ≠ [0x2E, 0x2E] := by
    cases h with
    | intro _ _ _ => exact ⟨names_containerPath _ _ _, encode_name_containerPath _ _ _⟩
  obtain ⟨w, hwithin, hall⟩ :=
    Container.exists_writes_replaceFile host hfs hname.1 hname.2 hparent data
  refine ⟨w, ⟨fun b node? hb => ⟨p, data, h, hwithin b node? hb⟩, fun g hg => ?_, fun g hg => ?_⟩⟩
  · rw [hunit g hg.check]
    exact (hall g (hg.container p data h)).1
  · have hthere := (hall g (hg.container p data h)).2
    have hhere := (hall fs (.refl hfs host p)).2
    have hos : ∀ {fs' : FileSystem} {e : FileError},
        (fs'.makeDirectories p.parent).1 = .error e → e.IsOs := fun hmake =>
      failsWith_of_not_escapes (mt (makeDirectories_escapes_iff _ _).1 (not_not.2 hparent)) _ hmake
    by_cases hmade : (fs.makeDirectories p.parent).1.isOk = true
    · rw [if_pos hmade] at hthere
      refine ⟨result, ?_, .same halone⟩
      rw [hunit g hg.check, hthere, ← halone, hunit fs rfl]
    · -- The directories cannot be made, here or there.
      rw [if_neg hmade] at hthere hhere
      obtain ⟨e', hmake', hreplace'⟩ := hthere
      obtain ⟨e, hmake, hreplace⟩ := hhere
      refine ⟨refusal start p e', ?_, .refused h hmake ?_ (hos hmake')⟩
      · rw [hunit g hg.check, hreplace']
        exact stored_of_isOs (hos hmake') start p
      · rw [hunit fs rfl, hreplace]
        exact stored_of_isOs (hos hmake) start p

/-- A unit that comes to a result on its own writes the same to all files that look alike, and
comes to the same. -/
theorem exists_isCarriedOut (hfs : fs.IsRegular)
    (halone : (unit host options fs source).1 = .ok result) :
    ∃ w, IsCarriedOut host options fs source w := by
  by_cases hcontainer : ∃ p data, HasContainer host options fs source p data
  · obtain ⟨p, data, h⟩ := hcontainer
    exact exists_isCarriedOut_of_hasContainer hfs h halone
  · have hnone : ∀ p data, ¬ HasContainer host options fs source p data :=
      fun p data h => hcontainer ⟨p, data, h⟩
    have hunit := fun g (hg : LooksAlike host options fs g source) =>
      unit_congr_of_not_hasContainer hnone hg.check
    refine ⟨.nothing, ⟨fun b node? hb => (by cases hb), fun g hg => ?_, fun g hg => ?_⟩⟩
    · rw [hunit g hg]
      exact Writes.turns_nothing g
    · rw [hunit g hg]
      exact ⟨result, halone, .same halone⟩

/-! ## What is written behind several units -/

/-- The second file system is the first with what the units of some sources write. -/
structure Overlaid (writes : Path → Writes) (fs : FileSystem) (done : List Path) (g : FileSystem) :
    Prop where
  regular : g.IsRegular
  workingDirectory : g.workingDirectory = fs.workingDirectory
  written : ∀ source ∈ done, ∀ b node?, writes source b = some node? → g.get? b = node?
  unwritten : ∀ b, (∀ source ∈ done, writes source b = none) → g.get? b = fs.get? b

variable {writes : Path → Writes} {done done' rest sources : List Path}

theorem isRegular_unit (hg : g.IsRegular) (source : Path) :
    (unit host options g source).2.IsRegular := by
  rcases snd_unit_cases host options g source with hsame | ⟨p, chunks, data, _, hafter⟩
  · rwa [hsame]
  · rw [hafter]
    exact hg.replaceFile host p data

namespace Overlaid

theorem nil (writes : Path → Writes) (hfs : fs.IsRegular) : Overlaid writes fs [] fs :=
  ⟨hfs, rfl, nofun, fun _ _ => rfl⟩

/-- What is at a location was written by one of the units, or was there before. -/
theorem written_or_kept (h : Overlaid writes fs done g) (b : Location) :
    (∃ source ∈ done, ∃ node?, writes source b = some node? ∧ g.get? b = node?) ∨
      (∀ source ∈ done, writes source b = none) ∧ g.get? b = fs.get? b := by
  by_cases hwritten : ∃ source ∈ done, ∃ node?, writes source b = some node?
  · obtain ⟨source, hsource, node?, hnode⟩ := hwritten
    exact Or.inl ⟨source, hsource, node?, hnode, h.written source hsource b node? hnode⟩
  · have hnone : ∀ source ∈ done, writes source b = none := by
      intro source hsource
      by_contra hsome
      exact hwritten ⟨source, hsource, Option.ne_none_iff_exists'.1 hsome⟩
    exact Or.inr ⟨hnone, h.unwritten b hnone⟩

/-- What is written does not depend on the order of the units. -/
theorem get?_eq (h : Overlaid writes fs done g) (h' : Overlaid writes fs done' g')
    (hmem : ∀ source, source ∈ done ↔ source ∈ done') (b : Location) : g.get? b = g'.get? b := by
  rcases h.written_or_kept b with ⟨source, hsource, node?, hnode, hb⟩ | ⟨hnone, hb⟩
  · rw [hb, h'.written source ((hmem source).1 hsource) b node? hnode]
  · rw [hb, h'.unwritten b fun source hsource => hnone source ((hmem source).2 hsource)]

section

variable (h : Overlaid writes fs done g)
  (hdone : ∀ other ∈ done, IsCarriedOut host options fs other (writes other))
  (hapart : ∀ other ∈ done, HaveApart host options fs other source)

include h hdone hapart

/-- The units have changed nothing that storing a container looks at which is apart from
theirs. -/
theorem agrees (hcontainer : HasContainer host options fs source p data) :
    Container.Agrees host fs g p := by
  refine ⟨h.regular, h.workingDirectory, fun b hb => ?_, fun b hb => ?_⟩
  · rcases h.written_or_kept b with ⟨other, hother, node?, hnode, hthere⟩ | ⟨-, hsame⟩
    · obtain ⟨q, data', hq, hclaimed | ⟨-, rfl, hfile⟩⟩ := (hdone other hother).within b node? hnode
      · exact ((hapart other hother q data' p data hq hcontainer).left b hclaimed hb).elim
      · rw [hfile, file?, hthere]
    · rw [file?, file?, hsame]
  · rcases h.written_or_kept b with ⟨other, hother, node?, hnode, -⟩ | ⟨-, hsame⟩
    · obtain ⟨q, data', hq, hwritten⟩ := (hdone other hother).within b node? hnode
      have hpq := hapart other hother q data' p data hq hcontainer
      rcases hwritten with hclaimed | ⟨hway, -⟩
      · exact (hpq.claimed b hclaimed hb).elim
      · exact (hpq.right b hb hway).elim
    · exact hsame

/-- What a unit writes is kept by one whose container is apart. -/
theorem step (hsource : IsCarriedOut host options fs source (writes source))
    (hlooks : LooksAlike host options fs g source) :
    Overlaid writes fs (done ++ [source]) (unit host options g source).2 := by
  have hturns := hsource.turns g hlooks
  refine ⟨isRegular_unit h.regular source, hturns.workingDirectory.trans h.workingDirectory,
    fun other hother b node? hnode => ?_, fun b hnone => ?_⟩
  · rw [hturns.get?]
    rcases List.mem_append.1 hother with hother | hother
    · rw [← h.written other hother b node? hnode]
      cases hagain : writes source b with
      | none => rfl
      | some again =>
        -- Two units write at one location only if both make a directory there.
        obtain ⟨q, data', hq, hthere⟩ := (hdone other hother).within b node? hnode
        obtain ⟨p, data, hp, hhere⟩ := hsource.within b again hagain
        have hpq := hapart other hother q data' p data hq hp
        rcases hthere with hclaimed | ⟨hway, rfl, -⟩
        · rcases hhere with hclaimed' | ⟨hway', -⟩
          · exact (hpq.claimed b hclaimed hclaimed').elim
          · exact (hpq.left b hclaimed hway').elim
        · rcases hhere with hclaimed' | ⟨-, rfl, -⟩
          · exact (hpq.right b hclaimed' hway).elim
          · rw [h.written other hother b _ hnode]
            rfl
    · obtain rfl := List.mem_singleton.1 hother
      rw [hnode]
      rfl
  · obtain ⟨hdone, hsource⟩ := List.forall_mem_append.1 hnone
    rw [hturns.get?, List.forall_mem_singleton.1 hsource, h.unwritten b hdone]
    rfl

end

/-- All units behind some others come to the results that they have on their own, and add what
they write. -/
theorem run (hfs : fs.IsRegular) (h : Overlaid writes fs done g)
    (hwrites : ∀ source ∈ done ++ rest, IsCarriedOut host options fs source (writes source))
    (hapart : (done ++ rest).Pairwise (HaveApart host options fs))
    (hunchanged : ∀ step ∈ steps (unit host options) g rest, ∀ look,
      Source.SourceLooks fs options.includePaths step.2 look → look.SameIn fs step.1) :
    (∀ step ∈ steps (unit host options) g rest, ∃ result,
      (unit host options step.1 step.2).1 = .ok result ∧
        IsAsAlone host options fs step.2 result) ∧
      Overlaid writes fs (done ++ rest) (each (unit host options) g rest).2 := by
  induction rest generalizing done g with
  | nil =>
    rw [List.append_nil]
    exact ⟨nofun, h⟩
  | cons source rest ih =>
    obtain ⟨hfirst, hrest⟩ := List.forall_mem_cons.1 hunchanged
    have hdone : ∀ other ∈ done, HaveApart host options fs other source :=
      fun other hother => (List.pairwise_append.1 hapart).2.2 other hother source List.mem_cons_self
    have hbefore : ∀ other ∈ done, IsCarriedOut host options fs other (writes other) :=
      fun other hother => hwrites other (List.mem_append_left _ hother)
    have hsource := hwrites source (List.mem_append_right _ List.mem_cons_self)
    have hlooks : LooksAlike host options fs g source :=
      ⟨h.regular, h.workingDirectory,
        check_congr (Source.SourceUnit.read_congr hfs h.regular h.workingDirectory hfirst),
        fun p data hcontainer => h.agrees hbefore hdone hcontainer⟩
    rw [List.append_cons] at hwrites hapart ⊢
    obtain ⟨hresults, hoverlaid⟩ :=
      ih (h.step hbefore hdone hsource hlooks) hwrites hapart hrest
    exact ⟨List.forall_mem_cons.2 ⟨hsource.result g hlooks, hresults⟩, hoverlaid⟩

end Overlaid

/-- Independent units give every source the result that it has on its own, in whatever order
one job compiles them, but for the reason why directories cannot be made.  All orders end with
the same files. -/
theorem batch_of_independent (hfs : fs.IsRegular) (h : Independent host options fs sources)
    {order : List Path} (horder : order.Perm sources) :
    (∃ results, (batch host options 1 fs order).1 = .ok results ∧
      List.Forall₂ (IsAsAlone host options fs) order results) ∧
    ∀ other : List Path, other.Perm sources →
      (batch host options 1 fs other).2.workingDirectory
        = (batch host options 1 fs order).2.workingDirectory ∧
      ∀ b, (batch host options 1 fs other).2.get? b = (batch host options 1 fs order).2.get? b := by
  have hcarried : ∀ source, ∃ w, source ∈ sources → IsCarriedOut host options fs source w := by
    intro source
    by_cases hsource : source ∈ sources
    · obtain ⟨result, halone⟩ := h.alone source hsource
      obtain ⟨w, hw⟩ := exists_isCarriedOut hfs halone
      exact ⟨w, fun _ => hw⟩
    · exact ⟨.nothing, fun hmem => (hsource hmem).elim⟩
  choose writes hwrites using hcarried
  have hrun : ∀ order : List Path, order.Perm sources →
      (∃ results, (batch host options 1 fs order).1 = .ok results ∧
        List.Forall₂ (IsAsAlone host options fs) order results) ∧
      Overlaid writes fs order (batch host options 1 fs order).2 := by
    intro order horder
    obtain ⟨hsteps, hoverlaid⟩ := (Overlaid.nil writes hfs).run hfs
      (fun source hsource => hwrites source (horder.subset hsource))
      (horder.symm.pairwise h.apart fun hab => hab.symm) (h.unchanged order horder)
    obtain ⟨results, hresults⟩ := Lists.exists_forall₂ hsteps
    have hbatch : (inOrder (unit host options) fs order).1 = .ok results :=
      (inOrder_eq_ok_iff _).2 (hresults.imp fun step result hresult => hresult.1)
    rw [batch_one]
    refine ⟨⟨results, hbatch, ?_⟩, ?_⟩
    · have halone := hresults.imp fun step result hresult => hresult.2
      rwa [← List.forall₂_map_left_iff, map_snd_steps] at halone
    · rw [inOrder_snd _ hbatch]
      exact hoverlaid
  obtain ⟨hresults, hoverlaid⟩ := hrun order horder
  refine ⟨hresults, fun other hother => ?_⟩
  have hoverlaid' := (hrun other hother).2
  refine ⟨hoverlaid'.workingDirectory.trans hoverlaid.workingDirectory.symm, fun b => ?_⟩
  exact hoverlaid'.get?_eq hoverlaid (fun source => (hother.trans horder.symm).mem_iff) b

/-! ## An order that shows -/

/-- Two sources and an empty file.  The container of the second is to go into a directory
below the file, on a way over a directory that the first makes. -/
def sharedFiles : FileSystem :=
  (((FileSystem.empty ⟨.single, []⟩).put [FileName.encode "a.src"]
    (.file (FileName.encode "-module('d/a')."))).put [FileName.encode "b.src"]
    (.file (FileName.encode "-module('d/../f/x/m')."))).put [FileName.encode "f"] (.file [])

def firstForms : List Source.Form := [⟨"module", .atom "d/a", ⟨1, 1⟩, some "a.src"⟩]

def secondForms : List Source.Form := [⟨"module", .atom "d/../f/x/m", ⟨1, 1⟩, some "b.src"⟩]

/-- The files behind the first source, whose container has the bytes. -/
def filesBehindFirst (data : Bytes) : FileSystem :=
  (((sharedFiles.put [FileName.encode "d"] .directory).put
    [FileName.encode "d", FileName.encode "a.dca.tmp.1"] (.file data)).remove
    [FileName.encode "d", FileName.encode "a.dca.tmp.1"]).put
    [FileName.encode "d", FileName.encode "a.dca"] (.file data)

theorem readForms_first :
    Source.readForms sharedFiles (Path.parse "a.src") none = .ok (.ok firstForms) := by cbv

theorem readForms_second :
    Source.readForms sharedFiles (Path.parse "b.src") none = .ok (.ok secondForms) := by cbv

theorem isRegular_sharedFiles : sharedFiles.IsRegular :=
  (((isRegular_empty .single).put [] rfl (by decide) _).put [] rfl (by decide) _).put [] rfl
    (by decide) _

/-- The first source has its container, in a directory that is made for it. -/
theorem exists_unit_first : ∃ result data,
    unit sampleHost sampleOptions sharedFiles (Path.parse "a.src")
      = (.ok result, filesBehindFirst data) := by
  have hunit : (unit sampleHost sampleOptions sharedFiles (Path.parse "a.src")).1.map
      (·.artifact?) = .ok (some (Path.parse "d/a.dca")) := by
    rw [unit, build, check, Source.read_of_plain readForms_first (by decide)]
    cbv
  obtain ⟨result, hresult, hartifact⟩ := map_eq_ok_iff.1 hunit
  obtain ⟨data, hcontainer⟩ := exists_hasContainer (Prod.ext hresult rfl) hartifact
  obtain ⟨start, -, hunit⟩ := hcontainer.unit_eq
  refine ⟨result, data, Prod.ext hresult ?_⟩
  rw [hunit sharedFiles rfl]
  cbv

set_option maxRecDepth 4000 in
/-- The second source on its own makes a directory before it comes to the file. -/
theorem unit_second :
    (unit sampleHost sampleOptions sharedFiles (Path.parse "b.src")).1.map
        (·.diagnostics.map (·.message))
      = .ok ["cannot write artifact d/../f/x/m.dca: [Errno 17] File exists: 'd/../f'"] ∧
    (unit sampleHost sampleOptions sharedFiles (Path.parse "b.src")).2
      = sharedFiles.put [FileName.encode "d"] .directory := by
  rw [unit, build, check, Source.read_of_plain readForms_second (by decide)]
  constructor
  · cbv
  · cbv

set_option maxRecDepth 4000 in
/-- Behind the first source it comes to the file at once. -/
theorem unit_second_behind (data : Bytes) :
    (unit sampleHost sampleOptions (filesBehindFirst data) (Path.parse "b.src")).1.map
        (·.diagnostics.map (·.message))
      = .ok ["cannot write artifact d/../f/x/m.dca: [Errno 20] Not a directory: 'd/../f/x'"] := by
  have hread : Source.readForms (filesBehindFirst data) (Path.parse "b.src") none
      = .ok (.ok secondForms) := by cbv
  rw [unit, build, check, Source.read_of_plain hread (by decide)]
  cbv

theorem independent_sharedFiles : Independent sampleHost sampleOptions sharedFiles
    [Path.parse "a.src", Path.parse "b.src"] where
  alone := by
    obtain ⟨result, data, hfirst⟩ := exists_unit_first
    obtain ⟨result', hsecond, -⟩ := map_eq_ok_iff.1 unit_second.1
    rw [List.forall_mem_cons, List.forall_mem_singleton]
    exact ⟨⟨result, by rw [hfirst]⟩, ⟨result', hsecond⟩⟩
  apart := by
    rw [List.pairwise_pair]
    intro p data q data' hp hq
    obtain rfl := hp.path_eq (Source.read_of_plain readForms_first (by decide))
    obtain rfl := hq.path_eq (Source.read_of_plain readForms_second (by decide))
    constructor <;> decide
  unchanged := by
    obtain ⟨result, data, hfirst⟩ := exists_unit_first
    -- A source looks at itself alone, and that is not written.
    have hlooks : ∀ step ∈ [(sharedFiles, Path.parse "a.src"),
        (filesBehindFirst data, Path.parse "b.src"), (sharedFiles, Path.parse "b.src"),
        (sharedFiles.put [FileName.encode "d"] .directory, Path.parse "a.src")], ∀ look,
        Source.SourceLooks sharedFiles sampleOptions.includePaths step.2 look →
          look.SameIn sharedFiles step.1 := by
      simp only [List.forall_mem_cons]
      refine ⟨?_, ?_, ?_, ?_, nofun⟩
      · intro look hlook
        exact look.sameIn_refl sharedFiles
      · intro look hlook
        obtain rfl := Source.eq_opens_of_plain readForms_second (by decide) hlook
        change FileSystem.read _ _ = FileSystem.read _ _
        cbv
      · intro look hlook
        exact look.sameIn_refl sharedFiles
      · intro look hlook
        obtain rfl := Source.eq_opens_of_plain readForms_first (by decide) hlook
        change FileSystem.read _ _ = FileSystem.read _ _
        cbv
    intro order horder step hstep
    refine hlooks step ?_
    rcases List.perm_pair.1 horder with rfl | rfl
    · rw [steps, steps, steps, hfirst] at hstep
      exact List.mem_append_left _ hstep
    · rw [steps, steps, steps, unit_second.2] at hstep
      exact List.mem_append_right [_, _] hstep

/-- Independent units need not report the same in every order: which directories are there
already shows in the reason why others cannot be made. -/
theorem batch_ne_alone_sharedFiles : sharedFiles.IsRegular ∧
    Independent sampleHost sampleOptions sharedFiles [Path.parse "a.src", Path.parse "b.src"] ∧
    ∃ alone first second,
      (unit sampleHost sampleOptions sharedFiles (Path.parse "b.src")).1 = .ok alone ∧
      (batch sampleHost sampleOptions 1 sharedFiles [Path.parse "a.src", Path.parse "b.src"]).1
        = .ok [first, second] ∧ second ≠ alone ∧
      alone.diagnostics.map (·.message)
        = ["cannot write artifact d/../f/x/m.dca: [Errno 17] File exists: 'd/../f'"] ∧
      second.diagnostics.map (·.message)
        = ["cannot write artifact d/../f/x/m.dca: [Errno 20] Not a directory: 'd/../f/x'"] := by
  obtain ⟨first, data, hfirst⟩ := exists_unit_first
  obtain ⟨alone, halone, hmessage⟩ := map_eq_ok_iff.1 unit_second.1
  obtain ⟨second, hsecond, hmessage'⟩ := map_eq_ok_iff.1 (unit_second_behind data)
  refine ⟨isRegular_sharedFiles, independent_sharedFiles, alone, first, second, halone, ?_, ?_,
    hmessage, hmessage'⟩
  · rw [batch_one, inOrder_eq_ok_iff]
    refine .cons (by rw [hfirst]) (.cons ?_ .nil)
    rw [hfirst]
    exact hsecond
  · rintro rfl
    rw [hmessage] at hmessage'
    revert hmessage'
    decide

/-- The sources are compiled in both orders, and leave the same files. -/
theorem batch_of_independent_sharedFiles : sharedFiles.IsRegular ∧
    Independent sampleHost sampleOptions sharedFiles [Path.parse "a.src", Path.parse "b.src"] ∧
    (∃ results, (batch sampleHost sampleOptions 1 sharedFiles
        [Path.parse "b.src", Path.parse "a.src"]).1 = .ok results ∧
      List.Forall₂ (IsAsAlone sampleHost sampleOptions sharedFiles)
        [Path.parse "b.src", Path.parse "a.src"] results) ∧
    ∀ b, (batch sampleHost sampleOptions 1 sharedFiles
        [Path.parse "a.src", Path.parse "b.src"]).2.get? b
      = (batch sampleHost sampleOptions 1 sharedFiles
        [Path.parse "b.src", Path.parse "a.src"]).2.get? b := by
  obtain ⟨hresults, hsame⟩ := batch_of_independent isRegular_sharedFiles independent_sharedFiles
    (List.Perm.swap _ _ [])
  exact ⟨isRegular_sharedFiles, independent_sharedFiles, hresults, (hsame _ (List.Perm.refl _)).2⟩

end Compile

end ModuleDocs
