import Mathlib
import ModuleDocs.Proofs.Container.Put
import ModuleDocs.Proofs.File.Nameable

/-!
# Containers that cannot be put in place

Putting a container under a path fails with an error that is not of the system just when
the path cannot be given to the system, unless the directories around it could not be made
before that (`write_escapes_iff`).  The temporary file is no further cause, as the ending of
its name is plain.
-/

namespace ModuleDocs

open FileError FileSystem Result

variable {host : Host} {fs : FileSystem} {p : Path} {data : Bytes} {chunks : Chunks}

namespace Container

/-- The temporary file can be given to the system just when the container can. -/
theorem isNameable_temporaryPath_iff (htag : host.processTag.all FileName.canHold = true)
    (hp : p.names ≠ []) : (temporaryPath host p).IsNameable ↔ p.IsNameable := by
  have hending : (temporaryEnding host).all FileName.canHold = true := by
    rw [temporaryEnding, List.all_append, htag]
    decide
  have hname : (p.name ++ temporaryEnding host).all FileName.canHold
      = p.name.all FileName.canHold := by
    rw [List.all_append, hending, Bool.and_true]
  conv_rhs => rw [← Path.child_parent_name hp]
  rw [temporaryPath, Path.isNameable_child_iff, Path.isNameable_child_iff, hname]

theorem replaceFile_escapes_iff (htag : host.processTag.all FileName.canHold = true)
    (hp : p.names ≠ []) (data : Bytes) : Escapes (replaceFile host fs p data).1 ↔
      ¬ p.IsNameable ∧ (p.parent.IsNameable → (fs.makeDirectories p.parent).1 = .ok ()) := by
  have hsame := isNameable_temporaryPath_iff htag hp
  have hdirectories := makeDirectories_escapes_iff fs p.parent
  have hputs := puts_replaceFile host fs p data
  generalize replaceFile host fs p data = outcome at hputs ⊢
  cases hputs with
  | @unmade e made hmade =>
    have hfirst : (fs.makeDirectories p.parent).1 = .error e := congrArg Prod.fst hmade
    rw [hfirst] at hdirectories ⊢
    have hnever : (Except.error e : Except FileError Unit) ≠ .ok () := by simp
    rw [hdirectories]
    refine ⟨fun hparent => ⟨mt Path.isNameable_parent hparent, fun h => (hparent h).elim⟩, ?_⟩
    exact fun h hparent => hnever (h.2 hparent)
  | unnamed _ hnone => exact absurd hnone hp
  | @unwritten e made _ hmade _ hwritten =>
    have hwrite := FileSystem.write_escapes_iff made (temporaryPath host p) data
    rw [hsame, hwritten] at hwrite
    simpa only [hmade, implies_true, and_true] using hwrite
  | @renamed made written _ hmade _ hwritten hrename =>
    have hwrite := FileSystem.write_escapes_iff made (temporaryPath host p) data
    rw [hsame, hwritten] at hwrite
    have hnameable : p.IsNameable := by
      by_contra hp'
      obtain ⟨e, he, _⟩ := hwrite.2 hp'
      cases he
    rw [← hrename, escapes_iff_not_failsWith]
    exact iff_of_false (not_not.2 (rename_failsWith (hsame.2 hnameable) hnameable))
      fun h => h.1 hnameable

/-- A container is not put in place, and the system does not say why, just when its path
cannot be given to the system and nothing failed before. -/
theorem write_escapes_iff (htag : host.processTag.all FileName.canHold = true)
    (hp : p.names ≠ []) (hdata : encode host.hash chunks = .ok data) :
    (∃ e, (write host fs p chunks).1 = .error (.file e) ∧ ¬ e.IsOs) ↔
      ¬ p.IsNameable ∧ (p.parent.IsNameable → (fs.makeDirectories p.parent).1 = .ok ()) := by
  rw [← replaceFile_escapes_iff htag hp data, write_of_encode hdata]
  simp [mapError_eq_error_iff, Escapes]

end Container

end ModuleDocs
