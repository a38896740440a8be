import Mathlib
import ModuleDocs.Proofs.File.Regular

/-!
# Open ways

A name is in the way of a directory if it is too long or the name of a file
(`FileSystem.IsObstacle`).  The locations that names lead to in front of the first obstacle
are `FileSystem.openWay`, and a way without obstacles is open (`FileSystem.IsOpen`).

Which names are in the way is seen from the files along them alone (`openWay_congr`).  Where
all is a directory as far as the way is open, a walk comes to its end just when no name is in
the way (`walk_directory_iff`); a walk finds nothing only where a directory is missing on the
open part (`walk_eq_notFound_iff`).
-/

namespace ModuleDocs

/-! ## Ways -/

namespace Location

/-- The locations that names lead over, with the first and the last. -/
def way : Location → List FileName → List Location
  | a, [] => [a]
  | a, name :: rest => a :: way (a.step name) rest

theorem mem_way_self (a : Location) (names : List FileName) : a ∈ a.way names := by
  cases names <;> exact List.mem_cons_self

end Location

namespace FileSystem

variable {fs fs' : FileSystem} {p : Path} {a b : Location} {name last : FileName}
  {names more : List FileName}

/-- No directory can be made under the name in a directory, nor is one there. -/
def IsObstacle (fs : FileSystem) (a : Location) (name : FileName) : Prop :=
  name ≠ [0x2E, 0x2E] ∧ (maxName < name.length ∨ (fs.file? (a ++ [name])).isSome = true)

instance (fs : FileSystem) (a : Location) (name : FileName) : Decidable (fs.IsObstacle a name) :=
  inferInstanceAs (Decidable (_ ∧ _))

/-- The locations that names lead to in front of the first obstacle. -/
def openWay (fs : FileSystem) : Location → List FileName → List Location
  | _, [] => []
  | a, name :: rest =>
    if fs.IsObstacle a name then [] else a.step name :: fs.openWay (a.step name) rest

/-- None of the names is an obstacle. -/
def IsOpen (fs : FileSystem) : Location → List FileName → Prop
  | _, [] => True
  | a, name :: rest => ¬ fs.IsObstacle a name ∧ fs.IsOpen (a.step name) rest

theorem isOpen_append :
    fs.IsOpen a (names ++ more) ↔ fs.IsOpen a names ∧ fs.IsOpen (a.follow names) more := by
  induction names generalizing a with
  | nil => simp [IsOpen, Location.follow]
  | cons name rest ih =>
    rw [List.cons_append, IsOpen, IsOpen, ih, and_assoc]
    rfl

theorem openWay_append_of_isOpen (h : fs.IsOpen a names) :
    fs.openWay a (names ++ more) = fs.openWay a names ++ fs.openWay (a.follow names) more := by
  induction names generalizing a with
  | nil => rfl
  | cons name rest ih =>
    obtain ⟨hname, hrest⟩ := h
    rw [List.cons_append, openWay, openWay, if_neg hname, if_neg hname, ih hrest]
    rfl

/-- Behind an obstacle nothing is led to. -/
theorem openWay_append_of_not_isOpen (h : ¬ fs.IsOpen a names) :
    fs.openWay a (names ++ more) = fs.openWay a names := by
  induction names generalizing a with
  | nil => exact (h trivial).elim
  | cons name rest ih =>
    rw [List.cons_append, openWay, openWay]
    by_cases hname : fs.IsObstacle a name
    · rw [if_pos hname, if_pos hname]
    · rw [if_neg hname, if_neg hname, ih fun hrest => h ⟨hname, hrest⟩]

theorem openWay_singleton :
    fs.openWay a [last] = if fs.IsObstacle a last then [] else [a.step last] := rfl

theorem mem_way_of_mem_openWay (h : b ∈ fs.openWay a names) : b ∈ a.way names := by
  induction names generalizing a with
  | nil => cases h
  | cons name rest ih =>
    rw [openWay] at h
    split at h
    · cases h
    · refine List.mem_cons_of_mem _ ?_
      rcases List.mem_cons.1 h with rfl | h
      · exact Location.mem_way_self _ _
      · exact ih h

/-- Only the files along the names decide which of them are in the way. -/
theorem openWay_congr (h : ∀ b ∈ a.way names, fs'.file? b = fs.file? b) :
    fs'.openWay a names = fs.openWay a names ∧ (fs'.IsOpen a names ↔ fs.IsOpen a names) := by
  induction names generalizing a with
  | nil => exact ⟨rfl, Iff.rfl⟩
  | cons name rest ih =>
    have hobstacle : fs'.IsObstacle a name ↔ fs.IsObstacle a name := by
      refine and_congr_right fun hdots => ?_
      have hstep := h (a.step name) (List.mem_cons_of_mem _ (Location.mem_way_self _ _))
      rw [Location.step, if_neg hdots] at hstep
      rw [hstep]
    obtain ⟨hrest, hopen⟩ := ih fun b hb => h b (List.mem_cons_of_mem _ hb)
    rw [openWay, openWay, IsOpen, IsOpen, hrest, hopen]
    simp only [hobstacle, and_self]

/-! ## Walks along open ways -/

/-- In a regular file system a step out of a directory leads into one. -/
theorem IsRegular.get?_dropLast (hfs : fs.IsRegular) (ha : fs.get? a = some .directory) :
    fs.get? a.dropLast = some .directory := by
  rcases List.eq_nil_or_concat a with rfl | ⟨front, name, rfl⟩
  · exact ha
  · rw [List.concat_eq_append] at ha ⊢
    rw [List.dropLast_concat]
    exact hfs.inDirectory front name (by simp [ha])

theorem IsRegular.get?_start (hfs : fs.IsRegular) (p : Path) :
    fs.get? (fs.start p) = some .directory := by
  unfold start
  split
  · exact hfs.home
  · rfl

theorem walk_of_not_isObstacle (ha : fs.get? a = some .directory) (h : ¬ fs.IsObstacle a name)
    (rest : List FileName) :
    walk (.reach fs.tree a) (name :: rest) = walk (.reach fs.tree (a.step name)) rest := by
  refine walk_of_step ha (fun hdots => ?_) rest
  exact Nat.not_lt.1 fun hlong => h ⟨hdots, Or.inl hlong⟩

/-- A walk goes on from a directory over a name that is not in the way. -/
theorem walk_append_of_not_isObstacle (hwalk : walk (.reach fs.tree a) names = .ok b)
    (hb : fs.get? b = some .directory) (h : ¬ fs.IsObstacle b last) :
    walk (.reach fs.tree a) (names ++ [last]) = .ok (b.step last) := by
  rw [walk_append hwalk, walk_of_not_isObstacle hb h, walk_reach_nil]

/-- A walk over an obstacle ends at a name that is too long, or in front of a file. -/
theorem walk_of_isObstacle (ha : fs.get? a = some .directory) (h : fs.IsObstacle a name) :
    (∀ rest, walk (.reach fs.tree a) (name :: rest) = .error .nameTooLong) ∨
      (fs.file? (a ++ [name])).isSome = true ∧ ∀ rest,
        walk (.reach fs.tree a) (name :: rest) = walk (.reach fs.tree (a ++ [name])) rest := by
  obtain ⟨hdots, hobstacle⟩ := h
  by_cases hlong : maxName < name.length
  · refine Or.inl fun rest => ?_
    rw [walk_reach_cons, ha]
    simp only [hdots, hlong, if_false, if_true]
  · refine Or.inr ⟨hobstacle.resolve_left hlong, fun rest => ?_⟩
    rw [walk_of_step ha fun _ => Nat.not_lt.1 hlong, Location.step, if_neg hdots]

theorem get?_eq_file_of_isSome (h : (fs.file? a).isSome = true) :
    ∃ data, fs.get? a = some (.file data) := by
  unfold file? at h
  split at h
  · exact ⟨_, ‹_›⟩
  · cases h

/-- What an open name leads to is no file. -/
theorem file?_step (hfs : fs.IsRegular) (ha : fs.get? a = some .directory)
    (h : ¬ fs.IsObstacle a name) : fs.file? (a.step name) = none := by
  unfold Location.step
  split
  · rw [file?, hfs.get?_dropLast ha]
  · rename_i hdots
    by_contra hfile
    exact h ⟨hdots, Or.inr (Option.isSome_iff_ne_none.2 hfile)⟩

theorem eq_none_or_directory (h : fs.file? a = none) :
    fs.get? a = none ∨ fs.get? a = some .directory := by
  unfold file? at h
  split at h
  · cases h
  · rename_i hnode
    cases hget : fs.get? a with
    | none => exact Or.inl rfl
    | some node =>
      cases node with
      | file data => exact (hnode data hget).elim
      | directory => exact Or.inr rfl

/-- Where all is a directory as far as the way is open, a walk leads into a directory just
when no name is in the way. -/
theorem walk_directory_iff (ha : fs.get? a = some .directory)
    (hmade : ∀ c ∈ fs.openWay a names, fs.get? c = some .directory) :
    walk (.reach fs.tree a) names = .ok b ∧ fs.get? b = some .directory ↔
      fs.IsOpen a names ∧ b = a.follow names := by
  induction names generalizing a with
  | nil =>
    rw [walk_reach_nil, Except.ok.injEq]
    constructor
    · rintro ⟨rfl, -⟩
      exact ⟨trivial, rfl⟩
    · rintro ⟨-, rfl⟩
      exact ⟨rfl, ha⟩
  | cons name rest ih =>
    by_cases hname : fs.IsObstacle a name
    · refine iff_of_false ?_ fun h => h.1.1 hname
      rintro ⟨hwalk, hdirectory⟩
      rcases walk_of_isObstacle ha hname with hlong | ⟨hfile, hstep⟩
      · rw [hlong] at hwalk
        cases hwalk
      · obtain ⟨data, hdata⟩ := get?_eq_file_of_isSome hfile
        rw [hstep] at hwalk
        cases rest with
        | nil =>
          rw [walk_reach_nil, Except.ok.injEq] at hwalk
          rw [← hwalk, hdata] at hdirectory
          cases hdirectory
        | cons next rest =>
          rw [walk_reach_cons, hdata] at hwalk
          cases hwalk
    · rw [openWay, if_neg hname] at hmade
      obtain ⟨hstep, hrest⟩ := List.forall_mem_cons.1 hmade
      rw [walk_of_not_isObstacle ha hname, ih hstep hrest, IsOpen, and_iff_right hname]
      rfl

/-- A walk that goes on behind names finds nothing there just when a directory is missing
as far as the way is open. -/
theorem walk_eq_notFound_iff (hfs : fs.IsRegular) (ha : fs.get? a = some .directory)
    (last : FileName) :
    walk (.reach fs.tree a) (names ++ [last]) = .error .notFound ↔
      ∃ c ∈ fs.openWay a names, fs.get? c ≠ some .directory := by
  induction names generalizing a with
  | nil =>
    refine iff_of_false ?_ (by simp [openWay])
    rw [List.nil_append, walk_reach_cons, ha]
    dsimp only
    split
    · simp [walk]
    · split <;> simp [walk]
  | cons name rest ih =>
    rw [List.cons_append, openWay]
    by_cases hname : fs.IsObstacle a name
    · rw [if_pos hname]
      refine iff_of_false ?_ (by simp)
      rcases walk_of_isObstacle ha hname with hlong | ⟨hfile, hstep⟩
      · simp [hlong]
      · obtain ⟨data, hdata⟩ := get?_eq_file_of_isSome hfile
        obtain ⟨next, rest', hrest⟩ := List.exists_cons_of_ne_nil (List.concat_ne_nil last rest)
        rw [hstep, hrest, walk_reach_cons, hdata]
        simp
    · rw [if_neg hname, List.exists_mem_cons_iff, walk_of_not_isObstacle ha hname]
      rcases eq_none_or_directory (file?_step hfs ha hname) with hmissing | hdirectory
      · refine iff_of_true ?_ (Or.inl (by simp [hmissing]))
        obtain ⟨next, rest', hrest⟩ := List.exists_cons_of_ne_nil (List.concat_ne_nil last rest)
        rw [hrest, walk_reach_cons, hmissing]
      · rw [ih hdirectory, or_iff_right (not_not.2 hdirectory)]

end FileSystem

end ModuleDocs
