import Mathlib
import ModuleDocs.Proofs.Container.Replace
import ModuleDocs.Proofs.File.Files

/-!
# Which files storing a container changes

Bytes are put under a path by way of a temporary file.  `Replaced` lists what can come of
it: the bytes are there and the temporary file is not (`stored`), nothing has changed
(`refused`), or the path is that of a directory, which nothing finds out before the
temporary file is written, and then the temporary file stays (`left`).
`replaced_replaceFile` says that nothing else happens.
-/

namespace ModuleDocs

namespace Container

open FileSystem

variable {host : Host} {fs : FileSystem} {p : Path} {data : Bytes}

/-- The directories around the path are there or can be made, and the temporary file can
be written, but the path is that of a directory. -/
def IsBlocked (host : Host) (fs : FileSystem) (p : Path) (data : Bytes) : Prop :=
  ∃ made, fs.makeDirectories p.parent = (.ok (), made) ∧
    (made.write (temporaryPath host p) data).1 = .ok () ∧ made.isDirectory p = .ok true

/-- What can come of putting bytes under a path, and what each file then holds. -/
inductive Replaced (host : Host) (fs : FileSystem) (p : Path) (data : Bytes) :
    Change Unit → Prop
  /-- The file has the bytes, and a temporary file is not there, or no longer. -/
  | stored {fs' : FileSystem} {a t : Location} (hfree : ¬ IsBlocked host fs p data)
    (hpath : fs'.locate p = .ok a)
    (htemporary : fs'.locate (temporaryPath host p) = .ok t)
    (hfiles : ∀ b, fs'.file? b
      = if b = a then some data else if b = t then none else fs.file? b) :
    Replaced host fs p data (.ok (), fs')
  /-- The temporary file has the bytes and stays. -/
  | left {fs' : FileSystem} {e : FileError} {t : Location} (hblocked : IsBlocked host fs p data)
    (hos : e.IsOs) (htemporary : fs'.locate (temporaryPath host p) = .ok t)
    (hfiles : ∀ b, fs'.file? b = if b = t then some data else fs.file? b) :
    Replaced host fs p data (.error e, fs')
  /-- No file has changed. -/
  | refused {fs' : FileSystem} {e : FileError} (hfree : ¬ IsBlocked host fs p data)
    (hfiles : ∀ b, fs'.file? b = fs.file? b) :
    Replaced host fs p data (.error e, fs')

theorem length_encode_temporaryEnding (host : Host) :
    2 < (FileName.encode (temporaryEnding host)).length := by
  rw [temporaryEnding, length_encode_append]
  exact Nat.lt_add_right _ (by decide)

/-- Once the temporary file is written, a path is blocked by the directory that it leads to. -/
theorem isBlocked_iff_directory {made : FileSystem} {a : Location}
    (hmade : fs.makeDirectories p.parent = (.ok (), made))
    (hwrite : (made.write (temporaryPath host p) data).1 = .ok ()) (ha : made.locate p = .ok a) :
    IsBlocked host fs p data ↔ made.get? a = some .directory := by
  constructor
  · intro hblocked
    obtain ⟨made', hmade', _, hdirectory⟩ := hblocked
    cases hmade.symm.trans hmade'
    obtain ⟨a', ha', hdirectory⟩ := isDirectory_eq_true_iff.1 hdirectory
    cases ha.symm.trans ha'
    exact hdirectory
  · intro hdirectory
    exact ⟨made, hmade, hwrite, isDirectory_eq_true_iff.2 ⟨a, ha, hdirectory⟩⟩

/-- The temporary file takes the place of the file that may be there, or stays beside a
directory. -/
theorem replaced_rename {made written : FileSystem} (hp : p.names ≠ [])
    (hname : FileName.encode p.name ≠ [0x2E, 0x2E])
    (hmade : fs.makeDirectories p.parent = (.ok (), made))
    (hwrite : made.write (temporaryPath host p) data = (.ok (), written))
    (hfiles : ∀ b, made.file? b = fs.file? b) :
    Replaced host fs p data (written.rename (temporaryPath host p) p) := by
  obtain ⟨t, a, ht, ha, hne, hfree, rfl, hrename⟩ :=
    rename_of_write (length_encode_temporaryEnding host) hname hwrite
  rw [Path.child_parent_name hp] at ha hrename
  have hblocked := isBlocked_iff_directory hmade (congrArg Prod.fst hwrite) ha
  have hput := keeps_put hfree (.file data)
  split at hrename
  · rename_i hdirectory
    rw [temporaryPath, hrename]
    refine .left (hblocked.2 hdirectory) (isOs_os _ _ _) (locate_of_keeps hput ht) fun b => ?_
    rw [file?_put_file hfree, hfiles]
  · rename_i hplain
    rw [temporaryPath, hrename]
    have hold : (made.put t (.file data)).get? t ≠ some .directory := by
      rw [get?_put made (ne_nil_of_get? hfree), if_pos rfl]
      simp
    have hnew : ((made.put t (.file data)).remove t).get? a ≠ some .directory := by
      rw [get?_remove _ (ne_nil_of_get? hold), if_neg hne,
        get?_put made (ne_nil_of_get? hfree), if_neg hne]
      exact hplain
    have hkeeps := (hput.trans (keeps_remove hold)).trans (keeps_put hnew (.file data))
    refine .stored (hblocked.not.2 hplain) (locate_of_keeps hkeeps ha) (locate_of_keeps hkeeps ht)
      fun b => ?_
    rw [file?_put_file hnew, file?_remove hold, file?_put_file hfree, hfiles]
    by_cases hb : b = t
    · simp [hb]
    · simp [hb]

/-- Putting bytes under a path comes to one of these. -/
theorem replaced_replaceFile (hp : p.names ≠ []) (hname : FileName.encode p.name ≠ [0x2E, 0x2E])
    (data : Bytes) : Replaced host fs p data (replaceFile host fs p data) := by
  have hfiles := file?_makeDirectories fs p.parent
  have hputs := puts_replaceFile host fs p data
  generalize replaceFile host fs p data = outcome at hputs ⊢
  cases hputs with
  | unmade hmade =>
    rw [hmade] at hfiles
    refine .refused (fun hblocked => ?_) hfiles
    obtain ⟨made', hmade', _⟩ := hblocked
    cases hmade.symm.trans hmade'
  | unnamed _ hnone => exact absurd hnone hp
  | unwritten hmade _ hwrite =>
    rw [hmade] at hfiles
    obtain rfl := eq_of_write_eq_error hwrite
    refine .refused (fun hblocked => ?_) hfiles
    obtain ⟨made', hmade', hwritten, _⟩ := hblocked
    cases hmade.symm.trans hmade'
    rw [hwrite] at hwritten
    cases hwritten
  | renamed hmade _ hwrite hrename =>
    rw [hmade] at hfiles
    exact hrename ▸ replaced_rename hp hname hmade hwrite hfiles

end Container

end ModuleDocs
