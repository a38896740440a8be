import Mathlib
import ModuleDocs.Chunk.Load
import ModuleDocs.Proofs.Container.Canonical
import ModuleDocs.Proofs.Container.Put
import ModuleDocs.Proofs.File.Locate

/-!
# What was stored is loaded

Making directories and writing a temporary file take no directory away, and renaming
takes only the temporary file; so the path under which a container was stored leads to
its bytes (`read_of_replaceFile`), and the container there has the chunks that were
stored (`load_of_write`), each under its name (`Chunk.load_of_write`).
-/

namespace ModuleDocs

namespace FileSystem

variable {fs fs' : FileSystem}

theorem read_of_locate {p : Path} {a : Location} {data : Bytes} (hlocate : fs.locate p = .ok a)
    (hnode : fs.get? a = some (.file data)) : fs.read p = .ok data := by
  have hnodeAt : fs.nodeAt p = .ok (.file data) := by
    refine Result.bind_eq_ok_iff.2 ⟨a, hlocate, ?_⟩
    rw [hnode]
    rfl
  exact Result.bind_eq_ok_iff.2 ⟨_, hnodeAt, rfl⟩

/-- What was written to a file and the file then renamed is read under the new path. -/
theorem read_of_rename {written : FileSystem} {source target : Path} {data : Bytes}
    (hwrite : fs.write source data = (.ok (), written))
    (hrename : written.rename source target = (.ok (), fs')) : fs'.read target = .ok data := by
  obtain ⟨at_, hlocate, hfree, rfl⟩ := write_eq_ok hwrite
  obtain ⟨old, new, node, hsource, htarget, hold, hnew, rfl⟩ := rename_eq_ok hrename
  have hkeeps := keeps_put hfree (.file data)
  -- The file is still where it was written.
  have hsame : old = at_ := Except.ok.inj (hsource.symm.trans (locate_of_keeps hkeeps hlocate))
  subst hsame
  have hne : old ≠ [] := by
    rintro rfl
    exact hfree rfl
  rw [get?_put _ hne, if_pos rfl, Option.some.injEq] at hold
  subst hold
  have hnewFree := hnew (by simp)
  have hnewNe : new ≠ [] := by
    rintro rfl
    exact hnewFree rfl
  have holdFree : (fs.put old (.file data)).get? old ≠ some .directory := by
    rw [get?_put _ hne, if_pos rfl]
    simp
  have hremovedFree : ((fs.put old (.file data)).remove old).get? new ≠ some .directory := by
    rw [get?_remove _ hne]
    split
    · simp
    · exact hnewFree
  have hkept := (keeps_remove holdFree).trans (keeps_put hremovedFree (.file data))
  refine read_of_locate (locate_of_keeps hkept htarget) ?_
  rw [get?_put _ hnewNe, if_pos rfl]

end FileSystem

namespace Container

open FileSystem

variable {host : Host} {fs fs' : FileSystem} {p : Path} {chunks : Chunks} {data : Bytes}

/-- What was put under a path is read there. -/
theorem read_of_replaceFile (h : replaceFile host fs p data = (.ok (), fs')) :
    fs'.read p = .ok data := by
  have hputs := puts_replaceFile host fs p data
  rw [h] at hputs
  cases hputs with
  | renamed _ _ hwrite hrename => exact read_of_rename hwrite hrename

/-- The chunks that were stored are loaded in the order of their names. -/
theorem load_of_write (hdistinct : (chunks.map (·.1)).Nodup)
    (h : write host fs p chunks = (.ok (), fs')) :
    ∃ c, load host fs' p = .ok c ∧ c.chunks = chunks.sorted := by
  obtain ⟨data, hdata, hreplace⟩ := replaceFile_of_write h
  obtain ⟨c, hdecode, hchunks, -⟩ := exists_decode_of_encode hdistinct hdata
  have hread := read_of_replaceFile hreplace
  refine ⟨c, Result.bind_eq_ok_iff.2 ⟨data, Result.mapError_eq_ok_iff.2 hread, ?_⟩, hchunks⟩
  exact Result.mapError_eq_ok_iff.2 hdecode

end Container

/-- A chunk of several with different names is found by its name. -/
theorem Chunks.get?_sorted {chunks : Chunks} {name : Text} {data : Bytes}
    (hdistinct : (chunks.map (·.1)).Nodup) (h : (name, data) ∈ chunks) :
    Chunks.get? name chunks.sorted = some data := by
  rw [get?_eq_of_perm (sorted_perm chunks) hdistinct]
  exact (get?_eq_some_iff hdistinct).2 h

/-- A chunk that was stored in a container is loaded from it as its bytes say. -/
theorem Chunk.load_of_write {host : Host} {fs fs' : FileSystem} {p : Path} {chunks : Chunks}
    {name : Text} {data : Bytes} (hdistinct : (chunks.map (·.1)).Nodup) (hmem : (name, data) ∈ chunks)
    (h : Container.write host fs p chunks = (.ok (), fs')) :
    Chunk.load host.hash fs' p name = .ok (Chunk.ofBytes data) := by
  obtain ⟨c, hload, hchunks⟩ := Container.load_of_write hdistinct h
  obtain ⟨bytes, hread, hdecode⟩ := Result.bind_eq_ok_iff.1 hload
  refine Result.bind_pure_eq_ok_iff.2 ⟨bytes, Result.mapError_eq_ok_iff.1 hread, ?_⟩
  rw [Chunk.ofContainerBytes, Result.mapError_eq_ok_iff.1 hdecode]
  simp only [Chunk.ofContainer, hchunks, Chunks.get?_sorted hdistinct hmem]

end ModuleDocs
