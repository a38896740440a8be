import Mathlib
import ModuleDocs.Container.Store
import ModuleDocs.Proofs.File.Path
import ModuleDocs.Proofs.Result

/-!
# How bytes are put under a path

Bytes come under a path in steps: the directories around it are made, a temporary file beside it is
written, and this is renamed.  `Container.Puts` says which of the steps are made, and with what
outcome, and `Container.puts_replaceFile` that nothing else is done.  A container whose chunks have
bytes is written by putting these under its path (`Container.write_of_encode`).
-/

namespace ModuleDocs.Container

variable {host : Host} {fs fs' : FileSystem} {p : Path} {chunks : Chunks} {data : Bytes}

/-- The path of the temporary file beside a container. -/
def temporaryPath (host : Host) (p : Path) : Path :=
  p.parent.child (p.name ++ temporaryEnding host)

theorem withName?_temporaryEnding (hp : p.names ≠ []) :
    p.withName? (p.name ++ temporaryEnding host) = some (temporaryPath host p) := by
  conv_lhs => rw [← Path.child_parent_name hp, Path.name_child]
  exact Path.withName?_child _ _ _

/-- The steps in which bytes are put under a path, up to the first that fails. -/
inductive Puts (host : Host) (fs : FileSystem) (p : Path) (data : Bytes) :
    FileSystem.Change Unit → Prop
  | unmade {e : FileError} {made : FileSystem}
    (hmade : fs.makeDirectories p.parent = (.error e, made)) : Puts host fs p data (.error e, made)
  /-- The path has no name beside which there could be another. -/
  | unnamed {made : FileSystem} (hmade : fs.makeDirectories p.parent = (.ok (), made))
    (hp : p.names = []) : Puts host fs p data (.error (.noName p.toText), made)
  | unwritten {e : FileError} {made written : FileSystem}
    (hmade : fs.makeDirectories p.parent = (.ok (), made)) (hp : p.names ≠ [])
    (hwrite : made.write (temporaryPath host p) data = (.error e, written)) :
    Puts host fs p data (.error e, written)
  | renamed {made written : FileSystem} {outcome : FileSystem.Change Unit}
    (hmade : fs.makeDirectories p.parent = (.ok (), made)) (hp : p.names ≠ [])
    (hwrite : made.write (temporaryPath host p) data = (.ok (), written))
    (hrename : written.rename (temporaryPath host p) p = outcome) : Puts host fs p data outcome

theorem puts_replaceFile (host : Host) (fs : FileSystem) (p : Path) (data : Bytes) :
    Puts host fs p data (replaceFile host fs p data) := by
  unfold replaceFile
  split
  · rename_i hmade
    exact .unmade hmade
  rename_i made hmade
  by_cases hp : p.names = []
  · rw [Path.withName?, if_pos (List.isEmpty_iff.2 hp)]
    exact .unnamed hmade hp
  rw [withName?_temporaryEnding hp]
  dsimp only
  split
  · rename_i hwrite
    exact .unwritten hmade hp hwrite
  · rename_i hwrite
    exact .renamed hmade hp hwrite rfl

theorem write_of_error {e : ContainerError} (he : encode host.hash chunks = .error e) :
    write host fs p chunks = (.error (.container e), fs) := by
  rw [write, he]

theorem write_of_encode (hdata : encode host.hash chunks = .ok data) :
    write host fs p chunks
      = ((replaceFile host fs p data).1.mapError .file, (replaceFile host fs p data).2) := by
  rw [write, hdata]

theorem replaceFile_of_write (h : write host fs p chunks = (.ok (), fs')) :
    ∃ data, encode host.hash chunks = .ok data ∧ replaceFile host fs p data = (.ok (), fs') := by
  cases hencode : encode host.hash chunks with
  | error e => cases (write_of_error hencode).symm.trans h
  | ok data =>
    rw [write_of_encode hencode] at h
    obtain ⟨hresult, hafter⟩ := Prod.mk.inj h
    exact ⟨data, rfl, Prod.ext (Result.mapError_eq_ok_iff.1 hresult) hafter⟩

end ModuleDocs.Container
