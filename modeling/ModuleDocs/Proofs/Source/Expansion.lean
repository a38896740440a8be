import Mathlib
import ModuleDocs.Proofs.Source.Unfolding

/-!
# Exact expansion

In a regular file system every run of the loader on a file ends, whatever the includes
are.  It reports a cycle just when there is one, provided nothing else is wrong, and if it
reports nothing its forms are those of the unfolded file.
-/

namespace ModuleDocs.Source

/-- The loader ends on every file, finds the cycles and unfolds what it does not report. -/
theorem load_expands {fs : FileSystem} (hfs : fs.IsRegular) (includePaths : List Path)
    (p : Path) :
    (∀ result, LoadsFile fs includePaths [p.resolve fs.workingDirectory] p none result ↔
      load fs includePaths p = result) ∧
    (IsComplete fs includePaths p → ∃ e, load fs includePaths p = .ok e ∧
      ((∃ d ∈ e.diagnostics, IsCycleReport d) ↔ LeadsIntoCycle fs includePaths p)) ∧
    ∀ unfolded included, load fs includePaths p = .ok ⟨unfolded, [], included⟩ ↔
      IsUnfolding fs includePaths p unfolded included := by
  refine ⟨?_, ?_, ?_⟩
  · intro result
    exact loadsFile_iff hfs
  · exact exists_isCycleReport_iff hfs
  · intro unfolded included
    exact load_eq_ok_iff hfs

/-! ## A source with includes -/

/-- A source that includes `a.src` twice, and that file. -/
def includingFiles (t : Text) : FileSystem :=
  ((FileSystem.empty ⟨.single, []⟩).put [FileName.encode "m.src"]
    (.file (FileName.encode "-include(\"a.src\"). -x(1). -include(\"a.src\")."))).put
    [FileName.encode "a.src"] (.file (FileName.encode t))

theorem isRegular_includingFiles (t : Text) : (includingFiles t).IsRegular := by
  have hmain : FileSystem.IsRegular ((FileSystem.empty ⟨.single, []⟩).put [FileName.encode "m.src"]
      (.file (FileName.encode "-include(\"a.src\"). -x(1). -include(\"a.src\")."))) :=
    (FileSystem.isRegular_empty .single).put [] rfl (by decide) _
  exact hmain.put [] rfl (by decide) _

/-- The forms of the source under a path. -/
def includingForms (file : Text) : List Form :=
  [⟨"include", .text "a.src", ⟨1, 1⟩, some file⟩, ⟨"x", .int 1, ⟨1, 20⟩, some file⟩,
    ⟨"include", .text "a.src", ⟨1, 27⟩, some file⟩]

/-- The included file has a form of its own. -/
def plainFiles : FileSystem := includingFiles "-y(2)."

/-- The included file includes the source. -/
def cyclicFiles : FileSystem := includingFiles "-include(\"m.src\")."

def plainForms : List Form := [⟨"y", .int 2, ⟨1, 1⟩, some "/a.src"⟩]

theorem isUnfolding_plainFiles :
    IsUnfolding plainFiles [] (Path.parse "m.src")
      (plainForms ++ ⟨"x", .int 1, ⟨1, 20⟩, some "m.src"⟩ :: plainForms)
      [Path.parse "/a.src", Path.parse "/a.src"] := by
  have hmain : readForms plainFiles (Path.parse "m.src") none
      = .ok (.ok (includingForms "m.src")) := by cbv
  have hother : readForms plainFiles (Path.parse "/a.src") none = .ok (.ok plainForms) := by cbv
  have htarget : resolveInclude plainFiles [] (Path.parse "m.src") "a.src"
      = .ok (some (Path.parse "/a.src")) := by cbv
  have hinside : Unfolds plainFiles [] (Path.parse "/a.src") plainForms plainForms [] :=
    .keep (by decide) (by decide) .nil
  exact ⟨_, hmain, .splice rfl htarget hother hinside
    (.keep (by decide) (by decide) (.splice rfl htarget hother hinside .nil))⟩

theorem isComplete_cyclicFiles :
    IsComplete cyclicFiles [] (Path.parse "m.src") ∧
      LeadsIntoCycle cyclicFiles [] (Path.parse "m.src") := by
  have hmain : readForms cyclicFiles (Path.parse "m.src") none
      = .ok (.ok (includingForms "m.src")) := by cbv
  have hother : readForms cyclicFiles (Path.parse "/a.src") none
      = .ok (.ok [⟨"include", .text "m.src", ⟨1, 1⟩, some "/a.src"⟩]) := by cbv
  have hagain : readForms cyclicFiles (Path.parse "/m.src") none
      = .ok (.ok (includingForms "/m.src")) := by cbv
  have hfirst : resolveInclude cyclicFiles [] (Path.parse "m.src") "a.src"
      = .ok (some (Path.parse "/a.src")) := by cbv
  have hsecond : resolveInclude cyclicFiles [] (Path.parse "/a.src") "m.src"
      = .ok (some (Path.parse "/m.src")) := by cbv
  have hthird : resolveInclude cyclicFiles [] (Path.parse "/m.src") "a.src"
      = .ok (some (Path.parse "/a.src")) := by cbv
  have hx : Text.ofString "x" ≠ Text.ofString "include" := by decide
  constructor
  · refine isComplete_of_closed
      [Path.parse "m.src", Path.parse "/a.src", Path.parse "/m.src"] ?_ List.mem_cons_self
    simp only [List.forall_mem_cons]
    refine ⟨⟨_, hmain, ?_⟩, ⟨_, hother, ?_⟩, ⟨_, hagain, ?_⟩, by simp⟩
    · simp [includingForms, Term.chars?, hx, hfirst]
    · simp [Term.chars?, hsecond]
    · simp [includingForms, Term.chars?, hx, hthird]
  · have hthere : Includes cyclicFiles [] (Path.parse "m.src") (Path.parse "/a.src") :=
      ⟨_, _, _, hmain, List.mem_cons_self, rfl, hfirst⟩
    have hback : Includes cyclicFiles [] (Path.parse "/a.src") (Path.parse "/m.src") :=
      ⟨_, _, _, hother, List.mem_cons_self, rfl, hsecond⟩
    have hresolve : (Path.parse "m.src").resolve cyclicFiles.workingDirectory
        = Path.parse "/m.src" := by cbv
    have hsame := sameFile_resolve (isRegular_includingFiles _) (sameFile_of_readForms hmain)
      (hresolve ▸ hagain)
    exact ⟨_, _, .refl, .tail (.single hthere) hback, hresolve ▸ hsame⟩

/-- The one source is unfolded, the other reported. -/
theorem load_includingFiles :
    load plainFiles [] (Path.parse "m.src")
      = .ok ⟨plainForms ++ ⟨"x", .int 1, ⟨1, 20⟩, some "m.src"⟩ :: plainForms, [],
        [Path.parse "/a.src", Path.parse "/a.src"]⟩ ∧
    ∃ e, load cyclicFiles [] (Path.parse "m.src") = .ok e ∧
      LoadsFile cyclicFiles [] [Path.parse "/m.src"] (Path.parse "m.src") none (.ok e) ∧
      ∃ d ∈ e.diagnostics, IsCycleReport d := by
  obtain ⟨-, -, hunfolds⟩ :=
    load_expands (isRegular_includingFiles "-y(2).") [] (Path.parse "m.src")
  obtain ⟨hends, hreports, -⟩ :=
    load_expands (isRegular_includingFiles "-include(\"m.src\").") [] (Path.parse "m.src")
  obtain ⟨hcomplete, hcycle⟩ := isComplete_cyclicFiles
  obtain ⟨e, hload, hreport⟩ := hreports hcomplete
  exact ⟨(hunfolds _ _).2 isUnfolding_plainFiles, e, hload, (hends _).2 hload, hreport.2 hcycle⟩

end ModuleDocs.Source
