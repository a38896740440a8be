import Mathlib
import ModuleDocs.Compile
import ModuleDocs.Proofs.File.Path
import ModuleDocs.Proofs.Source.Unit

/-!
# Where containers go

The path of a container is read from the name of the module, so a slash in the name is a
slash of the path.  `containerPath_eq_child` takes the name apart at its last slash: what
stands in front leads from the output directory to another one (`moduleDirectory`), and
what stands behind names the file.

`isChildOf_containerPath_iff` says which containers stay in the output directory, and
`containerPath_eq_iff` which modules share a container.  `exists_containerPath_eq` gives a
second module for the container of any module whose name is not one of the longest.
-/

namespace ModuleDocs

namespace Compile

variable {source source' : Path} {module other : Text} {options options' : CompileOptions}

/-- The directory that the containers of a source are for. -/
def outputDirectory (source : Path) (options : CompileOptions) : Path :=
  options.outDir?.getD source.parent

/-- The directory to which the name of a module leads from another one. -/
def moduleDirectory (dir : Path) (module : Text) : Path :=
  dir.join (Path.parse (Path.directoryText module))

theorem not_mem_containerEnding : CodePoint.ofChar '/' ∉ containerEnding := by decide

/-- The name of a container is what stands behind the last slash of the name of the
module, with its ending. -/
theorem containerPath_eq_child (source : Path) (module : Text) (options : CompileOptions) :
    containerPath source module options
      = (moduleDirectory (outputDirectory source options) module).child
          (Path.baseText module ++ containerEnding) := by
  unfold containerPath moduleDirectory outputDirectory
  rw [Path.parse_append_ending module not_mem_containerEnding (by decide), Path.join_child]

/-- The path of a container ends with a name. -/
theorem names_containerPath (source : Path) (module : Text) (options : CompileOptions) :
    (containerPath source module options).names ≠ [] := by
  rw [containerPath_eq_child]
  exact List.concat_ne_nil _ _

/-! ## Staying in the output directory -/

theorem moduleDirectory_of_not_mem {dir : Path} (h : CodePoint.ofChar '/' ∉ module) :
    moduleDirectory dir module = dir := by
  unfold moduleDirectory
  rw [Path.directoryText_of_not_mem h]
  exact Path.join_eq_self_iff.2 (Or.inl rfl)

/-- A container stays in the output directory just when the name of its module up to the
last slash is an empty path, or the path of that directory from the root. -/
theorem isChildOf_containerPath_iff :
    (containerPath source module options).IsChildOf (outputDirectory source options) ↔
      Path.parse (Path.directoryText module) = .here ∨
        (Path.parse (Path.directoryText module)).root ≠ .relative ∧
          Path.parse (Path.directoryText module) = outputDirectory source options := by
  rw [containerPath_eq_child, Path.isChildOf_child_iff]
  exact Path.join_eq_self_iff

-- A name can lead out of the output directory.
example : moduleDirectory (Path.parse "out") "../m" = Path.parse "out/.." := by decide

/-! ## Sharing a container -/

theorem containerPath_eq_iff :
    containerPath source' other options' = containerPath source module options ↔
      moduleDirectory (outputDirectory source' options') other
          = moduleDirectory (outputDirectory source options) module ∧
        Path.baseText other = Path.baseText module := by
  rw [containerPath_eq_child, containerPath_eq_child, Path.child_inj, List.append_left_inj]

theorem encodeAll_withDot (module : Text) : ∃ front back,
    Utf8.encodeAll module = front ++ back ∧
      Utf8.encodeAll (Path.withDot module) = front ++ 0x2E :: 0x2F :: back := by
  have hparts := congrArg Utf8.encodeAll (Path.directoryText_append_baseText module)
  refine ⟨Utf8.encodeAll (Path.directoryText module), Utf8.encodeAll (Path.baseText module),
    ?_, ?_⟩
  · rw [← hparts, Utf8.encodeAll, List.flatMap_append]
    rfl
  · rw [Path.withDot, Utf8.encodeAll, List.flatMap_append]
    rfl

/-- Every module whose name leaves room for two bytes shares its container with another. -/
theorem exists_containerPath_eq (hmodule : Source.IsModuleName module)
    (hroom : (Utf8.encodeAll module).length + 2 ≤ Source.maxName) :
    ∃ other, other ≠ module ∧ Source.IsModuleName other ∧ ∀ source options,
      containerPath source other options = containerPath source module options := by
  obtain ⟨hencodable, hne, _⟩ :=
    Source.nameProblem?_eq_none_iff.1 (Source.isModuleName_iff.1 hmodule)
  obtain ⟨front, back, hmodule, hother⟩ := encodeAll_withDot module
  refine ⟨Path.withDot module, ?_, ?_, ?_⟩
  · intro hsame
    have hlength := congrArg List.length hother
    rw [hsame, hmodule] at hlength
    simp only [List.length_append, List.length_cons] at hlength
    omega
  · refine Source.isModuleName_iff.2 (Source.nameProblem?_eq_none_iff.2 ⟨?_, ?_, ?_⟩)
    · rw [← Path.directoryText_append_baseText module, Utf8.isEncodable_append,
        Bool.and_eq_true] at hencodable
      rw [Path.withDot, Utf8.isEncodable_append, hencodable.1, Bool.true_and]
      exact hencodable.2
    · rw [hother]
      simp
    · rw [hmodule] at hroom
      rw [hother]
      simp only [List.length_append, List.length_cons] at hroom ⊢
      omega
  · intro source options
    refine containerPath_eq_iff.2 ⟨?_, Path.baseText_withDot module⟩
    rw [moduleDirectory, moduleDirectory, Path.parse_directoryText_withDot]

/-! ## Names without slashes -/

/-- The container of a module stays in the output directory just when the name up to its
last slash leads back there, and two modules share a container just when these parts lead
to one directory and the parts behind are the same.  So a container whose module has a
name without slashes is in the output directory, and there it is that of no other such
module. -/
theorem containerPath_identifies (source : Path) (options : CompileOptions) (module : Text) :
    ((containerPath source module options).IsChildOf (outputDirectory source options) ↔
      Path.parse (Path.directoryText module) = .here ∨
        (Path.parse (Path.directoryText module)).root ≠ .relative ∧
          Path.parse (Path.directoryText module) = outputDirectory source options) ∧
    (∀ source' options' other,
      containerPath source' other options' = containerPath source module options ↔
        moduleDirectory (outputDirectory source' options') other
            = moduleDirectory (outputDirectory source options) module ∧
          Path.baseText other = Path.baseText module) ∧
    (CodePoint.ofChar '/' ∉ module →
      (containerPath source module options).IsChildOf (outputDirectory source options) ∧
      ∀ source' options' other, CodePoint.ofChar '/' ∉ other →
        outputDirectory source' options' = outputDirectory source options →
        (containerPath source' other options' = containerPath source module options ↔
          other = module)) := by
  refine ⟨isChildOf_containerPath_iff, fun _ _ _ => containerPath_eq_iff, fun hmodule => ?_⟩
  constructor
  · rw [isChildOf_containerPath_iff, Path.directoryText_of_not_mem hmodule]
    exact Or.inl rfl
  · intro source' options' other hother hdir
    rw [containerPath_eq_iff, moduleDirectory_of_not_mem hother,
      moduleDirectory_of_not_mem hmodule, Path.baseText_of_not_mem hother,
      Path.baseText_of_not_mem hmodule]
    exact and_iff_right hdir

end Compile

end ModuleDocs
