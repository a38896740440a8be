import Mathlib
import ModuleDocs.Proofs.Container.Put
import ModuleDocs.Proofs.File.Locate

/-!
# What all files hold

`FileSystem.Holds home Q` says that the working directory is `home` and that the bytes of
every file have the property `Q`.  Every operation keeps it so, if the bytes that it writes
have the property (`Holds.write`, `Holds.replaceFile` and their like), also when it fails.
-/

namespace ModuleDocs

theorem Tree.set_nil (node? : Option Node) (t : Tree) : t.set node? [] = t := by
  cases t <;> rfl

namespace FileSystem

/-- All files have the property, and the working directory is the given one. -/
structure Holds (home : Path) (Q : Bytes → Prop) (fs : FileSystem) : Prop where
  workingDirectory : fs.workingDirectory = home
  files : ∀ a data, fs.get? a = some (.file data) → Q data

variable {home : Path} {Q : Bytes → Prop} {fs fs' : FileSystem} {p : Path} {data : Bytes}

namespace Holds

/-! ## Single locations -/

theorem put (h : fs.Holds home Q) {node : Node} (hnode : ∀ data, node = .file data → Q data)
    (a : Location) : (fs.put a node).Holds home Q := by
  refine ⟨h.workingDirectory, fun b data hb => ?_⟩
  by_cases ha : a = []
  · rw [ha, FileSystem.put, Tree.set_nil] at hb
    exact h.files b data hb
  · rw [get?_put fs ha] at hb
    split at hb
    · exact hnode data (Option.some.inj hb)
    · exact h.files b data hb

theorem remove (h : fs.Holds home Q) (a : Location) : (fs.remove a).Holds home Q := by
  refine ⟨h.workingDirectory, fun b data hb => ?_⟩
  by_cases ha : a = []
  · rw [ha, FileSystem.remove, Tree.set_nil] at hb
    exact h.files b data hb
  · rw [get?_remove fs ha] at hb
    split at hb
    · cases hb
    · exact h.files b data hb

/-! ## Operations -/

theorem makeDirectory (h : fs.Holds home Q) (p : Path) : (fs.makeDirectory p).2.Holds home Q := by
  rcases makeDirectory_cases fs p with ⟨e, he⟩ | ⟨a, _, _, hmade⟩
  · rwa [he]
  · rw [hmade]
    exact h.put (by simp) a

theorem makeDirectories (h : fs.Holds home Q) (p : Path) :
    (fs.makeDirectories p).2.Holds home Q :=
  makeDirectories_induction (fun _ p hfs => hfs.makeDirectory p) p h

theorem write (h : fs.Holds home Q) (p : Path) (hdata : Q data) :
    (fs.write p data).2.Holds home Q := by
  rcases write_cases fs p data with ⟨e, he⟩ | ⟨a, _, _, hwrite⟩
  · rwa [he]
  · rw [hwrite]
    refine h.put (fun data' hsame => ?_) a
    cases hsame
    exact hdata

theorem rename (h : fs.Holds home Q) (source target : Path) :
    (fs.rename source target).2.Holds home Q := by
  rcases rename_cases fs source target with ⟨e, he⟩ | ⟨old, new, node, _, _, hold, _, hrename⟩
  · rwa [he]
  · rw [hrename]
    refine (h.remove old).put (fun data hsame => ?_) new
    cases hsame
    exact h.files _ data hold

/-- Bytes that are put under a path, and the files that were there. -/
theorem replaceFile (h : fs.Holds home Q) (host : Host) (p : Path) (hdata : Q data) :
    (Container.replaceFile host fs p data).2.Holds home Q := by
  have hdirectories := h.makeDirectories p.parent
  have hputs := Container.puts_replaceFile host fs p data
  generalize Container.replaceFile host fs p data = outcome at hputs
  cases hputs with
  | unmade hmade | unnamed hmade _ => rwa [hmade] at hdirectories
  | unwritten hmade _ hwrite =>
    rw [hmade] at hdirectories
    have hwritten := hdirectories.write (Container.temporaryPath host p) hdata
    rwa [hwrite] at hwritten
  | renamed hmade _ hwrite hrename =>
    rw [hmade] at hdirectories
    have hwritten := hdirectories.write (Container.temporaryPath host p) hdata
    rw [hwrite] at hwritten
    rw [← hrename]
    exact hwritten.rename (Container.temporaryPath host p) p

end Holds

/-- A file that is read has the property. -/
theorem Holds.read (h : fs.Holds home Q) (hread : fs.read p = .ok data) : Q data := by
  obtain ⟨node, hnode, hdata⟩ := Result.bind_eq_ok_iff.1 hread
  obtain ⟨a, _, hat⟩ := Result.bind_eq_ok_iff.1 hnode
  split at hat
  · rename_i node' hget
    cases hat
    split at hdata
    · cases hdata
      exact h.files a data hget
    · cases hdata
  · cases hat

end FileSystem

end ModuleDocs
