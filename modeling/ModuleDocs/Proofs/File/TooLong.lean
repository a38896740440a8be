import Mathlib
import ModuleDocs.Proofs.File.Files
import ModuleDocs.Proofs.File.Nameable
import ModuleDocs.Proofs.File.Regular

/-!
# Paths that are too long

A walk stops at a name that is too long, if there are directories up to it
(`walk_eq_nameTooLong_iff`).  Whether a path names anything is known of all paths but those that
the system does not follow for their length: `exists_fails_iff`.
-/

namespace ModuleDocs.FileSystem

open Result

variable {fs : FileSystem} {p : Path} {a : Location} {names : List FileName}

theorem walk_eq_nameTooLong_iff : walk (.reach fs.tree a) names = .error .nameTooLong ↔
    ∃ before name after b, names = before ++ name :: after ∧
      walk (.reach fs.tree a) before = .ok b ∧ fs.get? b = some .directory ∧
      name ≠ [0x2E, 0x2E] ∧ maxName < name.length := by
  constructor
  · intro h
    induction names generalizing a with
    | nil => cases h
    | cons name rest ih =>
      have hstep := h
      rw [walk_reach_cons] at h
      split at h
      · cases h
      · cases h
      rename_i ha
      by_cases hlong : name ≠ [0x2E, 0x2E] ∧ maxName < name.length
      · exact ⟨[], name, rest, a, rfl, walk_reach_nil fs a, ha, hlong⟩
      · have hlength : name ≠ [0x2E, 0x2E] → name.length ≤ maxName := fun hdots =>
          Nat.not_lt.1 fun hmore => hlong ⟨hdots, hmore⟩
        rw [walk_of_step ha hlength] at hstep
        obtain ⟨before, long, after, c, rfl, hwalk, hc⟩ := ih hstep
        exact ⟨name :: before, long, after, c, rfl,
          walk_cons_eq_ok_iff.2 ⟨ha, hlength, hwalk⟩, hc⟩
  · rintro ⟨before, name, after, b, rfl, hwalk, hdirectory, hdots, hlong⟩
    rw [walk_append hwalk, walk_reach_cons, hdirectory]
    exact (if_neg hdots).trans (if_pos hlong)

/-- The path can be given to the system, but is not followed: it is too long itself, or behind
directories comes a name that is. -/
structure IsTooLong (fs : FileSystem) (p : Path) : Prop where
  nameable : p.IsNameable
  long : maxPath ≤ (FileName.encode p.toText).length ∨
    ∃ before name after a, p.names.map FileName.encode = before ++ name :: after ∧
      walk (.reach fs.tree (fs.start p)) before = .ok a ∧ fs.get? a = some .directory ∧
      name ≠ [0x2E, 0x2E] ∧ maxName < name.length

theorem locate_eq_nameTooLong_iff :
    (∃ t target?, fs.locate p = .error (.os .nameTooLong t target?)) ↔ fs.IsTooLong p := by
  by_cases hp : p.IsNameable
  · rw [locate_of_isNameable hp]
    split
    · rename_i hlength
      exact iff_of_true ⟨_, _, rfl⟩ ⟨hp, Or.inl hlength⟩
    · rename_i hlength
      have hwalk : fs.IsTooLong p ↔ walk (.reach fs.tree (fs.start p))
          (p.names.map FileName.encode) = .error .nameTooLong := by
        rw [walk_eq_nameTooLong_iff]
        exact ⟨fun h => h.long.resolve_left hlength, fun h => ⟨hp, Or.inr h⟩⟩
      rw [hwalk]
      cases walk (.reach fs.tree (fs.start p)) (p.names.map FileName.encode) with
      | ok a => simp [Except.mapError]
      | error cause => simp [Except.mapError]
  · obtain ⟨e, he, hos⟩ := locate_of_not_isNameable fs hp
    refine iff_of_false ?_ fun h => hp h.nameable
    rintro ⟨t, target?, hlocate⟩
    cases he.symm.trans hlocate
    exact hos (isOs_os _ _ _)

theorem nodeAt_eq_nameTooLong_iff {t : Text} {target? : Option Text} :
    fs.nodeAt p = .error (.os .nameTooLong t target?) ↔
      fs.locate p = .error (.os .nameTooLong t target?) := by
  unfold nodeAt
  rw [bind_eq_error_iff]
  refine or_iff_left ?_
  rintro ⟨a, -, hnode⟩
  split at hnode
  · cases hnode
  · cases hnode

/-- Whether a path names anything is known, unless it is too long. -/
theorem exists_fails_iff : Fails (fs.exists_ p) ↔ fs.IsTooLong p := by
  rw [exists_, fails_bind_pure_iff, ← locate_eq_nameTooLong_iff]
  constructor
  · rintro ⟨e, he⟩
    obtain ⟨t, target?, rfl, hnode⟩ := status_failsWith e he
    exact ⟨t, target?, nodeAt_eq_nameTooLong_iff.1 hnode⟩
  · rintro ⟨t, target?, hlocate⟩
    rw [status, nodeAt_eq_nameTooLong_iff.2 hlocate]
    exact ⟨_, rfl⟩

theorem exists_eq_true_iff : fs.exists_ p = .ok true ↔ ∃ node, fs.nodeAt p = .ok node := by
  rw [exists_, bind_pure_eq_ok_iff]
  constructor
  · rintro ⟨node?, hstatus, hsome⟩
    obtain ⟨node, rfl⟩ := Option.isSome_iff_exists.1 hsome
    exact ⟨node, status_eq_some_iff.1 hstatus⟩
  · rintro ⟨node, hnode⟩
    exact ⟨some node, status_eq_some_iff.2 hnode, rfl⟩

theorem exists_of_read {data : Bytes} (h : fs.read p = .ok data) : fs.exists_ p = .ok true := by
  obtain ⟨node, hnode, -⟩ := bind_eq_ok_iff.1 h
  exact exists_eq_true_iff.2 ⟨node, hnode⟩

theorem isNameable_of_exists (h : fs.exists_ p = .ok true) : p.IsNameable := by
  obtain ⟨node, hnode⟩ := exists_eq_true_iff.1 h
  obtain ⟨a, hlocate, -⟩ := nodeAt_eq_ok_iff.1 hnode
  exact (locate_eq_ok_iff.1 hlocate).1

end ModuleDocs.FileSystem
