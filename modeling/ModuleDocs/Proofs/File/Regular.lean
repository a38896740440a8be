import Mathlib
import ModuleDocs.Proofs.Container.Put
import ModuleDocs.Proofs.File.Dots
import ModuleDocs.Proofs.File.Files

/-!
# Where paths lead

In a file system as a host has it, everything is in a directory (`FileSystem.IsRegular`).
A path that leads somewhere there leads to where its names do once each double dot is
dropped with the name before it (`location_resolve_of_locate`), and the parent of the path
of a file leads to the directory of the file (`exists_directory_of_locate`).  So which file
a path names from beside another file depends on where that file is, and not on the path
that led there (`isFile_join_congr`).  All operations that write files keep a file system
regular (`replaceFile`).
-/

namespace ModuleDocs

/-! ## Regular file systems -/

namespace FileSystem

/-- Whatever is there is in a directory, and the working directory is one, known by its
path without double dots. -/
structure IsRegular (fs : FileSystem) : Prop where
  inDirectory : ∀ a name, (fs.get? (a ++ [name])).isSome = true → fs.get? a = some .directory
  home : fs.get? fs.home = some .directory
  plainHome : Text.ofString ".." ∉ fs.workingDirectory.names

/-- Two paths that lead to one file. -/
def SameFile (fs : FileSystem) (p q : Path) : Prop :=
  ∃ a data, fs.locate p = .ok a ∧ fs.locate q = .ok a ∧ fs.get? a = some (.file data)

variable {fs : FileSystem} {p q r : Path} {a b : Location} {data : Bytes}

theorem isRegular_empty (root : Root) : (empty ⟨root, []⟩).IsRegular where
  inDirectory := fun a name h => by simp [get?, empty, Tree.get?] at h
  home := rfl
  plainHome := List.not_mem_nil

/-- A node that is put into a directory, in place of nothing or of a file. -/
theorem IsRegular.put (hfs : fs.IsRegular) (dir : Location) (hdir : fs.get? dir = some .directory)
    {name : FileName} (hfree : fs.get? (dir ++ [name]) ≠ some .directory) (node : Node) :
    (fs.put (dir ++ [name]) node).IsRegular := by
  have hkeeps := keeps_put hfree node
  refine ⟨fun a other hthere => ?_, hkeeps.directory _ hfs.home, hfs.plainHome⟩
  rw [get?_put fs (ne_nil_of_get? hfree)] at hthere
  split at hthere
  · rename_i hsame
    rw [(List.append_inj' hsame rfl).1]
    exact hkeeps.directory dir hdir
  · exact hkeeps.directory a (hfs.inDirectory a other hthere)

/-! ## Walks -/

theorem eq_follow_of_walk {names : List FileName}
    (h : walk (.reach fs.tree a) names = .ok b) : b = a.follow names := by
  induction names generalizing a with
  | nil =>
    cases (walk_reach_nil fs a).symm.trans h
    rfl
  | cons name rest ih =>
    obtain ⟨_, _, hrest⟩ := walk_cons_eq_ok_iff.1 h
    exact ih hrest

theorem walk_append {names : List FileName} (h : walk (.reach fs.tree a) names = .ok b)
    (more : List FileName) :
    walk (.reach fs.tree a) (names ++ more) = walk (.reach fs.tree b) more := by
  induction names generalizing a with
  | nil =>
    cases (walk_reach_nil fs a).symm.trans h
    rfl
  | cons name rest ih =>
    obtain ⟨ha, hlength, hrest⟩ := walk_cons_eq_ok_iff.1 h
    rw [List.cons_append, walk_of_step ha hlength]
    exact ih hrest

/-! ## Paths without double dots -/

theorem IsRegular.location_resolve (hfs : fs.IsRegular) (p : Path) :
    (p.resolve fs.workingDirectory).location
      = (fs.start p).follow (p.names.map FileName.encode) := by
  show (Path.cancelDots [] _).map FileName.encode = _
  rw [Path.map_encode_cancelDots]
  unfold Path.join start
  split
  · rw [List.map_append, Location.follow_append, List.reverse_nil, List.map_nil,
      Location.follow_of_not_mem _ hfs.plainHome]
    rfl
  · rfl

/-- A path leads to where its names do without double dots. -/
theorem IsRegular.location_resolve_of_locate (hfs : fs.IsRegular) (h : fs.locate p = .ok a) :
    (p.resolve fs.workingDirectory).location = a := by
  rw [hfs.location_resolve, eq_follow_of_walk (locate_eq_ok_iff.1 h).2.2]

/-- What was found is there also under its path without double dots, if that can be
followed at all. -/
theorem IsRegular.eq_of_locate_resolve (hfs : fs.IsRegular) (h : fs.locate p = .ok a)
    (hresolved : fs.locate (p.resolve fs.workingDirectory) = .ok b) : b = a := by
  rw [← hfs.location_resolve_of_locate h, eq_follow_of_walk (locate_eq_ok_iff.1 hresolved).2.2,
    Location.follow_of_not_mem _ (Path.dots_not_mem_resolve p fs.workingDirectory)]
  rfl

/-! ## Files -/

theorem isFile_eq_true_iff : fs.isFile p = .ok true ↔
    ∃ a data, fs.locate p = .ok a ∧ fs.get? a = some (.file data) := by
  have hstatus : fs.isFile p = .ok true ↔ ∃ data, fs.status p = .ok (some (.file data)) := by
    rw [isFile, Result.bind_eq_ok_iff]
    constructor
    · rintro ⟨node?, hnode, htrue⟩
      split at htrue
      · exact ⟨_, hnode⟩
      · cases htrue
    · rintro ⟨data, hdata⟩
      exact ⟨_, hdata, rfl⟩
  rw [hstatus, exists_comm]
  exact exists_congr fun data => by rw [status_eq_some_iff, nodeAt_eq_ok_iff]

/-- A path that leads to no directory leads to a name in one, and its parent there. -/
theorem IsRegular.exists_directory_of_locate (hfs : fs.IsRegular) (h : fs.locate p = .ok a)
    (hfree : fs.get? a ≠ some .directory) :
    ∃ dir name, a = dir ++ [name] ∧ fs.get? dir = some .directory ∧
      walk (.reach fs.tree (fs.start p)) (p.parent.names.map FileName.encode) = .ok dir := by
  have hwalk := (locate_eq_ok_iff.1 h).2.2
  have hstart : fs.get? (fs.start p) = some .directory := by
    unfold start
    split
    · exact hfs.home
    · rfl
  rcases List.eq_nil_or_concat p.names with hnone | ⟨front, last, hnames⟩
  · rw [hnone, List.map_nil, walk_reach_nil, Except.ok.injEq] at hwalk
    exact (hfree (hwalk ▸ hstart)).elim
  have hparent : p.parent.names = front := by
    rw [Path.parent, hnames, List.concat_eq_append, List.dropLast_concat]
  rw [hnames, List.concat_eq_append, List.map_append, List.map_singleton, walk_concat] at hwalk
  obtain ⟨dir, hdir, hdirectory, ⟨-, rfl⟩ | ⟨-, -, rfl⟩⟩ := hwalk
  · -- A step out of a directory leads into one.
    exfalso
    rcases List.eq_nil_or_concat dir with rfl | ⟨above, name, rfl⟩
    · exact hfree rfl
    · rw [List.concat_eq_append] at hfree hdirectory
      rw [List.dropLast_concat] at hfree
      exact hfree (hfs.inDirectory above name (by simp [hdirectory]))
  · exact ⟨dir, _, rfl, hdirectory, by rwa [hparent]⟩

/-- Whether a path names a file is seen from the walk along it, unless it is too long. -/
theorem isFile_eq_true_iff_walk {found : Bool} (h : fs.isFile p = .ok found) :
    found = true ↔ p.IsNameable ∧ ∃ a data,
      walk (.reach fs.tree (fs.start p)) (p.names.map FileName.encode) = .ok a ∧
        fs.get? a = some (.file data) := by
  have hfound : found = true ↔ fs.isFile p = .ok true := by rw [h, Except.ok.injEq]
  rw [hfound, isFile_eq_true_iff]
  constructor
  · rintro ⟨a, data, hlocate, hfile⟩
    obtain ⟨hnameable, -, hwalk⟩ := locate_eq_ok_iff.1 hlocate
    exact ⟨hnameable, a, data, hwalk, hfile⟩
  · rintro ⟨hnameable, a, data, hwalk, hfile⟩
    refine ⟨a, data, locate_eq_ok_iff.2 ⟨hnameable, ?_, hwalk⟩, hfile⟩
    by_contra hlong
    have hnode : fs.nodeAt p = .error (.os .nameTooLong p.toText none) := by
      rw [nodeAt, locate_of_isNameable hnameable, if_pos (Nat.le_of_not_lt hlong)]
      rfl
    have hfails : fs.isFile p = .error (.os .nameTooLong p.toText none) := by
      rw [isFile, status, hnode]
      rfl
    rw [hfails] at h
    cases h

/-- From beside a file a path is followed from the directory of the file. -/
theorem IsRegular.walk_join (hfs : fs.IsRegular) (h : fs.locate q = .ok a)
    (hfile : fs.get? a = some (.file data)) (hrelative : p.root = .relative) :
    walk (.reach fs.tree (fs.start (q.parent.join p)))
        ((q.parent.join p).names.map FileName.encode)
      = walk (.reach fs.tree a.dropLast) (p.names.map FileName.encode) := by
  obtain ⟨dir, name, rfl, -, hdir⟩ := hfs.exists_directory_of_locate h (by simp [hfile])
  rw [Path.join, if_pos hrelative, List.map_append, List.dropLast_concat]
  exact walk_append hdir _

/-- Whether a path names a file from beside a file does not depend on the path that
leads to that file, unless a path is too long. -/
theorem IsRegular.isFile_join_congr (hfs : fs.IsRegular) (hsame : fs.SameFile q r)
    {foundThere foundHere : Bool} (hthere : fs.isFile (q.parent.join p) = .ok foundThere)
    (hhere : fs.isFile (r.parent.join p) = .ok foundHere) : foundThere = foundHere := by
  obtain ⟨a, data, hq, hr, hfile⟩ := hsame
  by_cases hrelative : p.root = .relative
  · have hnames {s : Path} (hs : fs.locate s = .ok a) :
        (s.parent.join p).IsNameable ↔ p.IsNameable := by
      refine ⟨fun h => Path.isNameable_of_subset h ?_, fun h => Path.isNameable_join ?_ h⟩
      · rw [Path.join, if_pos hrelative]
        exact List.subset_append_right _ _
      · exact Path.isNameable_parent (locate_eq_ok_iff.1 hs).1
    rw [Bool.eq_iff_iff, isFile_eq_true_iff_walk hthere, isFile_eq_true_iff_walk hhere,
      hfs.walk_join hq hfile hrelative, hfs.walk_join hr hfile hrelative, hnames hq, hnames hr]
  · rw [Path.join, if_neg hrelative] at hthere hhere
    rw [hthere] at hhere
    exact Except.ok.inj hhere

/-- Where a path leads from beside a file does not depend on the path of that file. -/
theorem IsRegular.eq_of_locate_join (hfs : fs.IsRegular) (hsame : fs.SameFile q r)
    (hthere : fs.locate (q.parent.join p) = .ok a) (hhere : fs.locate (r.parent.join p) = .ok b) :
    a = b := by
  obtain ⟨c, data, hq, hr, hfile⟩ := hsame
  have hthereWalk := (locate_eq_ok_iff.1 hthere).2.2
  have hhereWalk := (locate_eq_ok_iff.1 hhere).2.2
  by_cases hrelative : p.root = .relative
  · rw [hfs.walk_join hq hfile hrelative] at hthereWalk
    rw [hfs.walk_join hr hfile hrelative, hthereWalk] at hhereWalk
    exact Except.ok.inj hhereWalk
  · rw [Path.join, if_neg hrelative] at hthere hhere
    exact Except.ok.inj (hthere.symm.trans hhere)

/-! ## Operations -/

namespace IsRegular

theorem remove (hfs : fs.IsRegular) (ha : fs.get? a ≠ some .directory) :
    (fs.remove a).IsRegular := by
  have hkeeps := keeps_remove ha
  refine ⟨fun b name hthere => ?_, hkeeps.directory _ hfs.home, hfs.plainHome⟩
  rw [get?_remove fs (ne_nil_of_get? ha)] at hthere
  split at hthere
  · cases hthere
  · exact hkeeps.directory b (hfs.inDirectory b name hthere)

theorem put_of_locate (hfs : fs.IsRegular) (h : fs.locate p = .ok a)
    (hfree : fs.get? a ≠ some .directory) (node : Node) : (fs.put a node).IsRegular := by
  obtain ⟨dir, name, rfl, hdir, -⟩ := hfs.exists_directory_of_locate h hfree
  exact hfs.put dir hdir hfree node

theorem makeDirectory (hfs : fs.IsRegular) (p : Path) : (fs.makeDirectory p).2.IsRegular := by
  rcases makeDirectory_cases fs p with ⟨e, he⟩ | ⟨a, hlocate, hnone, hmade⟩
  · rwa [he]
  · rw [hmade]
    exact hfs.put_of_locate hlocate (by simp [hnone]) _

theorem makeDirectories (hfs : fs.IsRegular) (p : Path) : (fs.makeDirectories p).2.IsRegular :=
  makeDirectories_induction (fun _ p hfs => hfs.makeDirectory p) p hfs

theorem write (hfs : fs.IsRegular) (p : Path) (data : Bytes) :
    (fs.write p data).2.IsRegular := by
  rcases write_cases fs p data with ⟨e, he⟩ | ⟨a, hlocate, hfree, hwrite⟩
  · rwa [he]
  · rw [hwrite]
    exact hfs.put_of_locate hlocate hfree _

/-- A file that is given another path. -/
theorem rename (hfs : fs.IsRegular) (hsource : fs.locate p = .ok a)
    (hfile : fs.get? a = some (.file data)) (q : Path) : (fs.rename p q).2.IsRegular := by
  rcases rename_cases fs p q with ⟨e, he⟩ | ⟨old, new, node, hold, hnew, hnode, hfree, hrename⟩
  · rwa [he]
  rw [hrename]
  cases hsource.symm.trans hold
  cases hfile.symm.trans hnode
  have hremoved : fs.get? a ≠ some .directory := by simp [hfile]
  have hnewFree : (fs.remove a).get? new ≠ some .directory := by
    rw [get?_remove fs (ne_nil_of_get? hremoved)]
    split
    · simp
    · exact hfree (by simp)
  exact (hfs.remove hremoved).put_of_locate (locate_of_keeps (keeps_remove hremoved) hnew)
    hnewFree _

/-- Bytes that are put under a path by way of a temporary file. -/
theorem replaceFile (hfs : fs.IsRegular) (host : Host) (p : Path) (data : Bytes) :
    (Container.replaceFile host fs p data).2.IsRegular := by
  have hdirectories := hfs.makeDirectories p.parent
  have hputs := Container.puts_replaceFile host fs p data
  generalize Container.replaceFile host fs p data = outcome at hputs
  cases hputs with
  | unmade hmade | unnamed hmade _ => rwa [hmade] at hdirectories
  | unwritten hmade _ hwrite =>
    rw [hmade] at hdirectories
    have hwritten := hdirectories.write (Container.temporaryPath host p) data
    rwa [hwrite] at hwritten
  | @renamed made _ _ hmade _ hwrite hrename =>
    rw [hmade] at hdirectories
    have hwritten := hdirectories.write (Container.temporaryPath host p) data
    rw [hwrite] at hwritten
    rw [← hrename]
    obtain ⟨a, hlocate, hfree, rfl⟩ := write_eq_ok hwrite
    have hwrittenFile : (made.put a (.file data)).get? a = some (.file data) := by
      rw [get?_put _ (ne_nil_of_get? hfree), if_pos rfl]
    exact hwritten.rename (locate_of_keeps (keeps_put hfree _) hlocate) hwrittenFile p

end IsRegular

end FileSystem

end ModuleDocs
