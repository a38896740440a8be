import Mathlib
import ModuleDocs.Proofs.Compile.Load

/-!
# What the result of a unit reports

A unit that comes to a result has a container or an error: every way in which a source
gets no container without stopping the compilation leaves an error diagnostic
(`isReported_of_unit`).
-/

namespace ModuleDocs

open Result

theorem hasErrors_append (front back : List Diagnostic) :
    hasErrors (front ++ back) = (hasErrors front || hasErrors back) := List.any_append

theorem hasErrors_singleton {d : Diagnostic} (h : d.isError = true) : hasErrors [d] = true := by
  simp [hasErrors, h]

theorem DocError.isError_toDiagnostic (e : DocError) : e.toDiagnostic.isError = true := by
  cases e <;> rfl

/-- A source without a unit has an error. -/
theorem Source.hasErrors_of_read {fs : FileSystem} {includePaths : List Path} {path : Path}
    {diagnostics : List Diagnostic}
    (h : SourceUnit.read fs includePaths path = .ok (none, diagnostics)) :
    hasErrors diagnostics = true := by
  cases readsUnit_of_read h with
  | broken _ herrors => exact herrors
  | @made expansion _ _ _ _ hunit =>
    rw [hasErrors_append]
    refine Bool.or_eq_true_iff.2 (Or.inr ?_)
    generalize expansion.forms = forms at hunit
    cases hunit with
    | empty => rfl
    | unnamed hmodule =>
      obtain ⟨message, rfl⟩ := exists_error_of_moduleName hmodule
      rfl

namespace Compile

variable {host : Host} {options : CompileOptions} {fs : FileSystem} {source : Path}
  {result : UnitResult} {checked : Checked}

/-! ## Results -/

/-- The result is about the source, and has an error if it names no container. -/
structure IsReported (source : Path) (result : UnitResult) : Prop where
  source : result.source = source
  isOk : result.isOk = result.artifact?.isSome

/-- A result without a container and with an error. -/
theorem isReported_of_hasErrors (h : IsUnstored source result)
    (herrors : hasErrors result.diagnostics = true) : IsReported source result := by
  refine ⟨h.source, ?_⟩
  rw [h.artifact, UnitResult.isOk, herrors]
  rfl

theorem hasErrors_of_check (h : check fs options source = .ok (result, none)) :
    hasErrors result.diagnostics = true := by
  cases checks_of_check h with
  | unread hread => exact Source.hasErrors_of_read hread
  | wrong _ herrors => exact herrors
  | refused =>
    rw [hasErrors_append]
    exact Bool.or_eq_true_iff.2 (Or.inr (hasErrors_singleton (DocError.isError_toDiagnostic _)))

/-- A table that cannot be written is an error about the whole source. -/
theorem exists_stageError_of_docsChunk {table : DocTable} {d : Diagnostic}
    (h : docsChunk options source table = .ok (.error d)) :
    ∃ message, d = stageError "encode" "E-DOC-ENCODE" source message := by
  unfold docsChunk at h
  split at h
  · obtain ⟨encoded, hencoded, hsame⟩ := bind_pure_eq_ok_iff.1 h
    have hencoded := map_eq_error_iff.1 hsame ▸ hencoded
    unfold encodeTable at hencoded
    split at hencoded
    · cases hencoded
    split at hencoded
    · cases hencoded
    · cases hencoded
      exact ⟨_, rfl⟩
  · cases h

theorem exists_stageError_of_chunksOf {d : Diagnostic}
    (h : chunksOf options source checked = .ok (.error d)) :
    ∃ message, d = stageError "encode" "E-DOC-ENCODE" source message := by
  obtain ⟨interface, _, h⟩ := bind_eq_ok_iff.1 h
  obtain ⟨chunks, hchunks, h⟩ := bind_pure_eq_ok_iff.1 h
  exact exists_stageError_of_docsChunk (map_eq_error_iff.1 h ▸ hchunks)

theorem hasErrors_of_build (h : build options fs source = .ok (result, none)) :
    hasErrors result.diagnostics = true := by
  cases builds_of_build h with
  | unchecked hcheck => exact hasErrors_of_check hcheck
  | unwritten _ hchunks =>
    obtain ⟨message, rfl⟩ := exists_stageError_of_chunksOf hchunks
    rw [UnitResult.addDiagnostics, hasErrors_append, hasErrors_singleton rfl, Bool.or_true]

/-- The result of a unit is about its source, and has an error if there is no container. -/
theorem isReported_of_unit (h : (unit host options fs source).1 = .ok result) :
    IsReported source result := by
  rcases unit_cases (Prod.ext h rfl) with ⟨hbuild, _⟩ | ⟨start, module, chunks, hbuild, _, hstored⟩
  · exact isReported_of_hasErrors (isUnstored_of_build hbuild) (hasErrors_of_build hbuild)
  · have hunstored := isUnstored_of_build hbuild
    obtain ⟨checked, hcheck, _, _⟩ := build_eq_ok hbuild
    obtain ⟨_, _, hclean, _, hstart⟩ := check_eq_ok hcheck
    rcases stored_cases hstored with ⟨_, rfl⟩ | ⟨message, rfl⟩
    · refine ⟨hunstored.source, ?_⟩
      rw [hstart, UnitResult.isOk, hclean]
      rfl
    · refine isReported_of_hasErrors ⟨hunstored.source, hunstored.artifact⟩ ?_
      rw [UnitResult.addDiagnostics, hasErrors_append, hasErrors_singleton rfl, Bool.or_true]

end Compile

end ModuleDocs
