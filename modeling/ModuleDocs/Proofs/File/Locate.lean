import Mathlib
import ModuleDocs.File.System
import ModuleDocs.Proofs.Result

/-!
# Following paths

A walk looks at directories only: it goes on from one over a name that is not too long, to
`Location.step` (`walk_cons_eq_ok_iff`).  So a path that leads somewhere leads to the same
place as long as no directory goes away (`locate_of_keeps`), whatever else changes.

What an operation changes is in `makeDirectory_cases`, `write_cases` and `rename_cases`: one node,
or nothing if it fails.
-/

namespace ModuleDocs

/-- A path that can be given to the system: all its code points can be part of a file
name, and none of them is zero. -/
structure Path.IsNameable (p : Path) : Prop where
  encodable : FileName.firstUnencodable? p.toText = none
  noZero : p.toText.contains (CodePoint.ofNat 0) = false

/-- An error of the system. -/
def FileError.IsOs (e : FileError) : Prop := ∃ cause t target?, e = .os cause t target?

/-- Where one name leads from a location. -/
def Location.step (a : Location) (name : FileName) : Location :=
  if name = [0x2E, 0x2E] then a.dropLast else a ++ [name]

namespace FileSystem

variable {fs fs' : FileSystem} {a b : Location} {name : FileName} {names rest : List FileName}

/-! ## Walks -/

/-- One step of a walk: into a directory, or out of it again. -/
theorem walk_reach_cons (fs : FileSystem) (a : Location) (name : FileName)
    (rest : List FileName) :
    walk (.reach fs.tree a) (name :: rest)
      = match fs.get? a with
        | none => .error .notFound
        | some (.file _) => .error .notDirectory
        | some .directory =>
          if name = [0x2E, 0x2E] then walk (.reach fs.tree a.dropLast) rest
          else if maxName < name.length then .error .nameTooLong
          else walk (.reach fs.tree (a ++ [name])) rest := by
  have hup : (Place.reach fs.tree a).up = .reach fs.tree a.dropLast := by
    rcases List.eq_nil_or_concat a with rfl | ⟨front, last, rfl⟩
    · rfl
    · rw [List.concat_eq_append, Place.up_reach_concat, List.dropLast_concat]
  rewrite [walk, node?_reach, hup, ← Place.reach_concat]
  rfl

/-- A walk over no names ends where it starts. -/
theorem walk_reach_nil (fs : FileSystem) (a : Location) : walk (.reach fs.tree a) [] = .ok a := by
  rw [walk, Place.location_reach]

/-- A walk goes on from a directory over a name that is not too long. -/
theorem walk_of_step (ha : fs.get? a = some .directory)
    (hlength : name ≠ [0x2E, 0x2E] → name.length ≤ maxName) (rest : List FileName) :
    walk (.reach fs.tree a) (name :: rest) = walk (.reach fs.tree (a.step name)) rest := by
  rw [walk_reach_cons, ha]
  dsimp only
  by_cases hdots : name = [0x2E, 0x2E]
  · rw [if_pos hdots, Location.step, if_pos hdots]
  · rw [if_neg hdots, if_neg (Nat.not_lt.2 (hlength hdots)), Location.step, if_neg hdots]

/-- A walk leads somewhere only from directories, and over names that are not too long. -/
theorem walk_cons_eq_ok_iff : walk (.reach fs.tree a) (name :: rest) = .ok b ↔
    fs.get? a = some .directory ∧ (name ≠ [0x2E, 0x2E] → name.length ≤ maxName) ∧
      walk (.reach fs.tree (a.step name)) rest = .ok b := by
  constructor
  · intro hwalk
    have h := hwalk
    rw [walk_reach_cons] at h
    split at h
    · cases h
    · cases h
    rename_i ha
    have hlength : name ≠ [0x2E, 0x2E] → name.length ≤ maxName := by
      intro hdots
      rw [if_neg hdots] at h
      split at h
      · cases h
      · omega
    exact ⟨ha, hlength, walk_of_step ha hlength rest ▸ hwalk⟩
  · rintro ⟨ha, hlength, hrest⟩
    rwa [walk_of_step ha hlength]

/-- A walk ends with one step from a directory. -/
theorem walk_concat (fs : FileSystem) (a b : Location) (names : List FileName) (name : FileName) :
    walk (.reach fs.tree a) (names ++ [name]) = .ok b ↔
      ∃ dir, walk (.reach fs.tree a) names = .ok dir ∧ fs.get? dir = some .directory ∧
        (name = [0x2E, 0x2E] ∧ b = dir.dropLast ∨
          name ≠ [0x2E, 0x2E] ∧ name.length ≤ maxName ∧ b = dir ++ [name]) := by
  induction names generalizing a with
  | nil =>
    rw [List.nil_append, walk_cons_eq_ok_iff]
    simp only [walk_reach_nil, Except.ok.injEq, exists_eq_left', Location.step]
    by_cases hdots : name = [0x2E, 0x2E] <;> simp [hdots, eq_comm]
  | cons first rest ih =>
    rw [List.cons_append, walk_cons_eq_ok_iff, ih]
    simp only [walk_cons_eq_ok_iff, and_assoc, exists_and_left]

/-- Directories of one file system that are directories of another, too. -/
structure Keeps (fs fs' : FileSystem) : Prop where
  directory : ∀ a, fs.get? a = some .directory → fs'.get? a = some .directory
  workingDirectory : fs'.workingDirectory = fs.workingDirectory

theorem Keeps.refl (fs : FileSystem) : Keeps fs fs := ⟨fun _ h => h, rfl⟩

theorem Keeps.trans {fs'' : FileSystem} (h : Keeps fs fs') (h' : Keeps fs' fs'') :
    Keeps fs fs'' :=
  ⟨fun a ha => h'.directory a (h.directory a ha), h'.workingDirectory.trans h.workingDirectory⟩

theorem walk_of_keeps (h : Keeps fs fs') (hwalk : walk (.reach fs.tree a) names = .ok b) :
    walk (.reach fs'.tree a) names = .ok b := by
  induction names generalizing a with
  | nil => simpa [walk] using hwalk
  | cons name rest ih =>
    obtain ⟨ha, hlength, hrest⟩ := walk_cons_eq_ok_iff.1 hwalk
    exact walk_cons_eq_ok_iff.2 ⟨h.directory a ha, hlength, ih hrest⟩

/-! ## Paths -/

/-- Where the walk along a path starts. -/
def start (fs : FileSystem) (p : Path) : Location := if p.root = .relative then fs.home else []

/-- A path that can be given to the system is refused or followed. -/
theorem locate_of_isNameable {p : Path} (h : p.IsNameable) :
    fs.locate p =
      if maxPath ≤ (FileName.encode p.toText).length then .error (.os .nameTooLong p.toText none)
      else (walk (.reach fs.tree (fs.start p)) (p.names.map FileName.encode)).mapError fun cause =>
        .os cause p.toText none := by
  unfold locate
  simp only [h.encodable, h.noZero, Bool.false_eq_true, if_false]
  rfl

/-- Any other path is an error of another kind. -/
theorem locate_of_not_isNameable (fs : FileSystem) {p : Path} (h : ¬ p.IsNameable) :
    ∃ e, fs.locate p = .error e ∧ ¬ e.IsOs := by
  unfold locate
  cases hencodable : FileName.firstUnencodable? p.toText with
  | some run => exact ⟨.unencodable run, by simp only [hencodable], by simp [FileError.IsOs]⟩
  | none =>
    refine ⟨.nullByte, ?_, by simp [FileError.IsOs]⟩
    have hzero : p.toText.contains (CodePoint.ofNat 0) = true := by
      by_contra hzero
      exact h ⟨hencodable, by simpa using hzero⟩
    simp only [hencodable, hzero, if_true]

theorem locate_eq_ok_iff {p : Path} {a : Location} :
    fs.locate p = .ok a ↔ p.IsNameable ∧ (FileName.encode p.toText).length < maxPath ∧
      walk (.reach fs.tree (fs.start p)) (p.names.map FileName.encode) = .ok a := by
  by_cases h : p.IsNameable
  · rw [locate_of_isNameable h]
    by_cases hlength : maxPath ≤ (FileName.encode p.toText).length
    · simp [hlength]
    · rw [if_neg hlength, Result.mapError_eq_ok_iff]
      simp [h, Nat.lt_of_not_le hlength]
  · obtain ⟨e, he, -⟩ := locate_of_not_isNameable fs h
    simp [he, h]

/-- A path that leads somewhere leads there as long as no directory goes away. -/
theorem locate_of_keeps (h : Keeps fs fs') {p : Path} {a : Location}
    (hlocate : fs.locate p = .ok a) : fs'.locate p = .ok a := by
  obtain ⟨hnameable, hlength, hwalk⟩ := locate_eq_ok_iff.1 hlocate
  refine locate_eq_ok_iff.2 ⟨hnameable, hlength, ?_⟩
  have hstart : fs'.start p = fs.start p := by rw [start, start, home, home, h.workingDirectory]
  rw [hstart]
  exact walk_of_keeps h hwalk

/-! ## Changes -/

/-- A new node takes the place of nothing, or of a file. -/
theorem keeps_put {a : Location} (ha : fs.get? a ≠ some .directory) (node : Node) :
    Keeps fs (fs.put a node) where
  directory := fun b hb => by
    have hne : a ≠ [] := by
      rintro rfl
      exact ha rfl
    rw [get?_put fs hne, if_neg (by rintro rfl; exact ha hb)]
    exact hb
  workingDirectory := rfl

theorem keeps_remove {a : Location} (ha : fs.get? a ≠ some .directory) :
    Keeps fs (fs.remove a) where
  directory := fun b hb => by
    have hne : a ≠ [] := by
      rintro rfl
      exact ha rfl
    rw [get?_remove fs hne, if_neg (by rintro rfl; exact ha hb)]
    exact hb
  workingDirectory := rfl

/-- What making one directory keeps, making several keeps, also when it fails. -/
theorem makeDirectoriesFrom_induction {P : FileSystem → Prop}
    (hP : ∀ fs p, P fs → P (fs.makeDirectory p).2) (root : Root) (names : List Text) (h : P fs) :
    P (makeDirectoriesFrom root fs names).2 := by
  induction names generalizing fs with
  | nil =>
    have hmake := hP fs ⟨root, []⟩ h
    rw [makeDirectoriesFrom]
    split
    · rename_i hfirst
      rwa [hfirst] at hmake
    · exact hmake
  | cons name above ih =>
    have hmake := hP fs ⟨root, (name :: above).reverse⟩ h
    rw [makeDirectoriesFrom]
    split
    · rename_i hfirst
      rw [hfirst] at hmake
      have hrest := ih hmake
      split
      · rename_i habove
        rwa [habove] at hrest
      · rename_i habove
        rw [habove] at hrest
        have hagain := hP _ ⟨root, (name :: above).reverse⟩ hrest
        split
        · rename_i hsecond
          rwa [hsecond] at hagain
        · rename_i hsecond
          rwa [hsecond] at hagain
        · exact hagain
    · rename_i hfirst
      rwa [hfirst] at hmake
    · exact hmake

theorem makeDirectories_induction {P : FileSystem → Prop}
    (hP : ∀ fs p, P fs → P (fs.makeDirectory p).2) (p : Path) (h : P fs) :
    P (fs.makeDirectories p).2 :=
  makeDirectoriesFrom_induction hP p.root p.names.reverse h

/-- A directory is made where nothing is, or nothing has changed. -/
theorem makeDirectory_cases (fs : FileSystem) (p : Path) :
    (∃ e, fs.makeDirectory p = (.error e, fs)) ∨ ∃ a, fs.locate p = .ok a ∧ fs.get? a = none ∧
      fs.makeDirectory p = (.ok (), fs.put a .directory) := by
  unfold makeDirectory
  split
  · exact .inl ⟨_, rfl⟩
  rename_i a hlocate
  split
  · exact .inl ⟨_, rfl⟩
  · rename_i hnone
    exact .inr ⟨a, hlocate, hnone, rfl⟩

/-- A file is written where no directory is, or nothing has changed. -/
theorem write_cases (fs : FileSystem) (p : Path) (data : Bytes) :
    (∃ e, fs.write p data = (.error e, fs)) ∨ ∃ a, fs.locate p = .ok a ∧
      fs.get? a ≠ some .directory ∧ fs.write p data = (.ok (), fs.put a (.file data)) := by
  unfold write
  split
  · exact .inl ⟨_, rfl⟩
  rename_i a hlocate
  split
  · exact .inl ⟨_, rfl⟩
  · rename_i hfree
    exact .inr ⟨a, hlocate, hfree, rfl⟩

/-- What is under a path comes under another, where no directory is if it is a file, or nothing
has changed. -/
theorem rename_cases (fs : FileSystem) (source target : Path) :
    (∃ e, fs.rename source target = (.error e, fs)) ∨ ∃ old new node,
      fs.locate source = .ok old ∧ fs.locate target = .ok new ∧ fs.get? old = some node ∧
      (node ≠ .directory → fs.get? new ≠ some .directory) ∧
      fs.rename source target = (.ok (), (fs.remove old).put new node) := by
  unfold rename
  split
  · exact .inl ⟨_, rfl⟩
  · exact .inl ⟨_, rfl⟩
  rename_i old new hsource htarget
  split
  · exact .inl ⟨_, rfl⟩
  split
  · exact .inl ⟨_, rfl⟩
  · exact .inl ⟨_, rfl⟩
  rename_i node hold hnew
  refine .inr ⟨old, new, node, hsource, htarget, hold, fun hfile hdirectory => ?_, rfl⟩
  cases node with
  | directory => exact hfile rfl
  | file data => exact hnew data hdirectory rfl

/-- What is written is there. -/
theorem write_eq_ok {p : Path} {data : Bytes} (h : fs.write p data = (.ok (), fs')) :
    ∃ a, fs.locate p = .ok a ∧ fs.get? a ≠ some .directory ∧ fs' = fs.put a (.file data) := by
  rcases write_cases fs p data with ⟨e, he⟩ | ⟨a, hlocate, hfree, hwrite⟩
  · cases he.symm.trans h
  · cases hwrite.symm.trans h
    exact ⟨a, hlocate, hfree, rfl⟩

/-- A file that is given another path. -/
theorem rename_eq_ok {source target : Path} (h : fs.rename source target = (.ok (), fs')) :
    ∃ old new node, fs.locate source = .ok old ∧ fs.locate target = .ok new ∧
      fs.get? old = some node ∧ (node ≠ .directory → fs.get? new ≠ some .directory) ∧
      fs' = (fs.remove old).put new node := by
  rcases rename_cases fs source target with
    ⟨e, he⟩ | ⟨old, new, node, hsource, htarget, hold, hnew, hrename⟩
  · cases he.symm.trans h
  · cases hrename.symm.trans h
    exact ⟨old, new, node, hsource, htarget, hold, hnew, rfl⟩

/-- A change that fails is none. -/
theorem eq_of_makeDirectory_eq_error {p : Path} {e : FileError}
    (h : fs.makeDirectory p = (.error e, fs')) : fs' = fs := by
  rcases makeDirectory_cases fs p with ⟨e', he⟩ | ⟨a, _, _, hmade⟩
  · cases he.symm.trans h
    rfl
  · cases hmade.symm.trans h

theorem eq_of_write_eq_error {p : Path} {data : Bytes} {e : FileError}
    (h : fs.write p data = (.error e, fs')) : fs' = fs := by
  rcases write_cases fs p data with ⟨e', he⟩ | ⟨a, _, _, hwrite⟩
  · cases he.symm.trans h
    rfl
  · cases hwrite.symm.trans h

theorem eq_of_rename_eq_error {source target : Path} {e : FileError}
    (h : fs.rename source target = (.error e, fs')) : fs' = fs := by
  rcases rename_cases fs source target with ⟨e', he⟩ | ⟨_, _, _, _, _, _, _, hrename⟩
  · cases he.symm.trans h
    rfl
  · cases hrename.symm.trans h

end FileSystem

end ModuleDocs
