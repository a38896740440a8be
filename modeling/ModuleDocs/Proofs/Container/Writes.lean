import Mathlib
import ModuleDocs.Proofs.Container.Files
import ModuleDocs.Proofs.File.Directories

/-!
# What storing a container writes

`Writes` say what is at each location that an operation writes, and nothing about the others.
Putting bytes under a path writes the same in all file systems that agree on what it looks at
(`Container.Agrees`): the files along its directories, and what is at the path and at that of
the temporary file (`exists_writes_replaceFile`).  It comes to the same, too, unless the
directories cannot be made: then the reason may be another one, as it depends on how many of
them are there already.
-/

namespace ModuleDocs

open FileSystem

/-! ## Writes -/

/-- What is afterwards at the locations that are written. -/
abbrev Writes := Location → Option (Option Node)

namespace Writes

variable {w w' : Writes} {fs fs' fs'' : FileSystem} {a : Location} {made : List Location}

/-- The writes make the second file system from the first. -/
structure Turns (w : Writes) (fs fs' : FileSystem) : Prop where
  get? : ∀ b, fs'.get? b = (w b).getD (fs.get? b)
  workingDirectory : fs'.workingDirectory = fs.workingDirectory

/-- Nothing is written. -/
def nothing : Writes := fun _ => none

/-- One location is written. -/
def one (a : Location) (node? : Option Node) : Writes :=
  fun b => if b = a then some node? else none

/-- Directories are made. -/
def directories (made : List Location) : Writes :=
  fun b => if b ∈ made then some (some .directory) else none

/-- Writes behind others. -/
def andThen (w w' : Writes) : Writes := fun b => (w' b).or (w b)

theorem turns_nothing (fs : FileSystem) : nothing.Turns fs fs := ⟨fun _ => rfl, rfl⟩

theorem Turns.andThen (h : w.Turns fs fs') (h' : w'.Turns fs' fs'') :
    (w.andThen w').Turns fs fs'' where
  get? := fun b => by
    rw [h'.get?, h.get?, Writes.andThen]
    cases w' b <;> rfl
  workingDirectory := h'.workingDirectory.trans h.workingDirectory

theorem turns_put (fs : FileSystem) (ha : a ≠ []) (node : Node) :
    (one a (some node)).Turns fs (fs.put a node) where
  get? := fun b => by
    rw [get?_put fs ha, one]
    split <;> rfl
  workingDirectory := rfl

theorem turns_remove (fs : FileSystem) (ha : a ≠ []) : (one a none).Turns fs (fs.remove a) where
  get? := fun b => by
    rw [get?_remove fs ha, one]
    split <;> rfl
  workingDirectory := rfl

theorem turns_of_makes {P : Prop} {outcome : Change Unit} (h : fs.Makes made P outcome) :
    (directories made).Turns fs outcome.2 where
  get? := fun b => by
    rw [h.get?, directories]
    split <;> rfl
  workingDirectory := h.workingDirectory

end Writes

/-! ## Where paths lead -/

namespace FileSystem

variable {fs fs' : FileSystem} {p : Path} {a : Location} {name : Text}

/-- Where a path leads if nothing is in the way. -/
def destination (fs : FileSystem) (p : Path) : Location := (fs.start p).follow (fileNames p)

theorem eq_destination_of_locate (h : fs.locate p = .ok a) : a = fs.destination p :=
  eq_follow_of_walk (locate_eq_ok_iff.1 h).2.2

/-- Where all directories could be made, the path leads to the last of them. -/
theorem IsRegular.walk_of_makeDirectories (hfs : fs.IsRegular) (hp : p.IsNameable)
    (h : fs.makeDirectories p = (.ok (), fs')) :
    walk (.reach fs'.tree (fs.start p)) (fileNames p) = .ok (fs.destination p) ∧
      fs'.get? (fs.destination p) = some .directory := by
  have hmakes := hfs.makes_makeDirectories hp
  have hfs' := hfs.makeDirectories p
  have hfiles := file?_makeDirectories fs p
  rw [h] at hmakes hfs' hfiles
  have hstart : fs'.start p = fs.start p := start_eq hmakes.workingDirectory p
  have hsame := openDirectories_congr (p := p) hmakes.workingDirectory fun b _ => hfiles b
  obtain ⟨hlength, hopen⟩ := hmakes.ok_iff.1 rfl
  rw [← hsame.2, IsOpenPath, hstart] at hopen
  refine (walk_directory_iff (hstart ▸ hfs'.get?_start p) fun c hc => ?_).2 ⟨hopen, rfl⟩
  have hc' : c ∈ fs.madeDirectories p := by
    rw [madeDirectories, if_neg (Nat.not_le.2 hlength), ← hsame.1, openDirectories, hstart]
    exact hc
  rw [hmakes.get?, if_pos hc']

/-- What a path leads to depends on the walk along it alone. -/
theorem locate_congr (h : walk (.reach fs'.tree (fs'.start p)) (fileNames p)
    = walk (.reach fs.tree (fs.start p)) (fileNames p)) : fs'.locate p = fs.locate p := by
  by_cases hp : p.IsNameable
  · rw [locate_of_isNameable hp, locate_of_isNameable hp]
    change (if _ then _ else Except.mapError _ (walk _ (fileNames p))) = _
    rw [h]
    rfl
  · unfold locate
    cases hencodable : FileName.firstUnencodable? p.toText with
    | some run => simp only [hencodable]
    | none =>
      have hzero : p.toText.contains (CodePoint.ofNat 0) = true := by
        by_contra hzero
        exact hp ⟨hencodable, by simpa using hzero⟩
      simp only [hencodable, hzero, if_true]

/-- A name in one directory is found or refused alike, whatever else there is. -/
theorem locate_child_congr {dir : Path} (hstart : fs'.start dir = fs.start dir)
    (hwalk : walk (.reach fs.tree (fs.start dir)) (fileNames dir) = .ok a)
    (hwalk' : walk (.reach fs'.tree (fs.start dir)) (fileNames dir) = .ok a)
    (ha : fs.get? a = some .directory) (ha' : fs'.get? a = some .directory) (name : Text) :
    fs'.locate (dir.child name) = fs.locate (dir.child name) := by
  apply locate_congr
  change walk (.reach fs'.tree (fs'.start dir)) _ = walk (.reach fs.tree (fs.start dir)) _
  rw [hstart, fileNames_child, walk_append hwalk, walk_append hwalk', walk_reach_cons,
    walk_reach_cons, ha, ha']
  simp only [walk_reach_nil]

end FileSystem

/-! ## Bytes under a path -/

namespace Container

variable {host : Host} {fs fs' g : FileSystem} {p : Path} {data : Bytes} {a t : Location}

/-- What comes of a temporary file that is written at `t`: it takes the place of what is at
`a`, or stays. -/
def finish (host : Host) (fs : FileSystem) (p : Path) (data : Bytes) (a t : Location) :
    Change Unit :=
  let written := fs.put t (.file data)
  if fs.get? a = some .directory then
    (.error (.os .isDirectory (temporaryPath host p).toText (some p.toText)), written)
  else (.ok (), (written.remove t).put a (.file data))

/-- What comes of bytes that are to be put under a path, once the directories are there: the
temporary file cannot be written, or it can. -/
def store (host : Host) (fs : FileSystem) (p : Path) (data : Bytes) (a : Location) :
    Change Unit :=
  match fs.locate (temporaryPath host p) with
  | .error e => (.error e, fs)
  | .ok t =>
    if fs.get? t = some .directory then
      (.error (.os .isDirectory (temporaryPath host p).toText none), fs)
    else finish host fs p data a t

theorem replaceFile_of_error {e : FileError} (h : fs.makeDirectories p.parent = (.error e, fs')) :
    replaceFile host fs p data = (.error e, fs') := by
  rw [replaceFile, h]

theorem replaceFile_of_makeDirectories (host : Host) (hp : p.names ≠ [])
    (hname : FileName.encode p.name ≠ [0x2E, 0x2E])
    (h : fs.makeDirectories p.parent = (.ok (), fs')) (data : Bytes) :
    replaceFile host fs p data = store host fs' p data (fs'.destination p) := by
  rw [replaceFile, h, store]
  dsimp only
  rw [withName?_temporaryEnding hp]
  dsimp only
  cases hlocate : fs'.locate (temporaryPath host p) with
  | error e => simp only [FileSystem.write, hlocate]
  | ok t =>
    dsimp only
    by_cases hdirectory : fs'.get? t = some .directory
    · simp only [FileSystem.write, hlocate, hdirectory, if_true]
    rw [if_neg hdirectory]
    have hwrite : fs'.write (temporaryPath host p) data = (.ok (), fs'.put t (.file data)) := by
      rw [FileSystem.write, hlocate]
      dsimp only
      split
      · exact (hdirectory ‹_›).elim
      · rfl
    obtain ⟨t', a, ht, ha, -, -, -, hrename⟩ :=
      rename_of_write (length_encode_temporaryEnding host) hname hwrite
    cases hlocate.symm.trans ht
    rw [Path.child_parent_name hp] at ha hrename
    rw [hwrite, finish, ← eq_destination_of_locate ha]
    dsimp only
    by_cases hplain : fs'.get? a = some .directory
    · rw [if_pos hplain] at hrename ⊢
      exact hrename
    · rw [if_neg hplain] at hrename ⊢
      exact hrename

/-- What `finish` writes. -/
def finishWrites (fs : FileSystem) (data : Bytes) (a t : Location) : Writes :=
  let written := Writes.one t (some (.file data))
  if fs.get? a = some .directory then written
  else (written.andThen (.one t none)).andThen (.one a (some (.file data)))

/-- What `store` writes. -/
def storeWrites (host : Host) (fs : FileSystem) (p : Path) (data : Bytes) (a : Location) : Writes :=
  match fs.locate (temporaryPath host p) with
  | .error _ => .nothing
  | .ok t => if fs.get? t = some .directory then .nothing else finishWrites fs data a t

theorem turns_finish (ht : fs.get? t ≠ some .directory) :
    (finishWrites fs data a t).Turns fs (finish host fs p data a t).2 := by
  have hwritten := Writes.turns_put fs (ne_nil_of_get? ht) (.file data)
  unfold finishWrites finish
  dsimp only
  split
  · exact hwritten
  · rename_i ha
    exact (hwritten.andThen (Writes.turns_remove _ (ne_nil_of_get? ht))).andThen
      (Writes.turns_put _ (ne_nil_of_get? ha) _)

theorem turns_store (host : Host) (fs : FileSystem) (p : Path) (data : Bytes) (a : Location) :
    (storeWrites host fs p data a).Turns fs (store host fs p data a).2 := by
  unfold storeWrites store
  cases fs.locate (temporaryPath host p) with
  | error e => exact Writes.turns_nothing fs
  | ok t =>
    dsimp only
    by_cases ht : fs.get? t = some .directory
    · rw [if_pos ht, if_pos ht]
      exact Writes.turns_nothing fs
    · rw [if_neg ht, if_neg ht]
      exact turns_finish ht

theorem eq_or_eq_of_finishWrites {b : Location} {node? : Option Node}
    (h : finishWrites fs data a t b = some node?) : b = a ∨ b = t := by
  unfold finishWrites Writes.andThen Writes.one at h
  by_contra hne
  rw [not_or] at hne
  split at h <;> simp [hne.1, hne.2] at h

/-- Only the path and the temporary file are written. -/
theorem eq_or_locate_of_storeWrites {b : Location} {node? : Option Node}
    (h : storeWrites host fs p data a b = some node?) :
    b = a ∨ fs.locate (temporaryPath host p) = .ok b := by
  unfold storeWrites at h
  cases hlocate : fs.locate (temporaryPath host p) with
  | error e =>
    rw [hlocate] at h
    cases h
  | ok t =>
    rw [hlocate] at h
    dsimp only at h
    split at h
    · cases h
    · exact (eq_or_eq_of_finishWrites h).imp_right fun hb => by rw [hb]

/-- What `finish` comes to depends on what is at the path alone. -/
theorem finish_congr (h : g.get? a = fs.get? a) (host : Host) (p : Path) (data : Bytes)
    (t : Location) : (finish host g p data a t).1 = (finish host fs p data a t).1 ∧
      finishWrites g data a t = finishWrites fs data a t := by
  unfold finish finishWrites
  rw [h]
  dsimp only
  split <;> exact ⟨rfl, rfl⟩

/-- What `store` comes to depends on where the temporary file leads, and on what is there and
at the path. -/
theorem store_congr (h : g.get? a = fs.get? a)
    (hlocate : g.locate (temporaryPath host p) = fs.locate (temporaryPath host p))
    (ht : ∀ t, fs.locate (temporaryPath host p) = .ok t → g.get? t = fs.get? t) (data : Bytes) :
    (store host g p data a).1 = (store host fs p data a).1 ∧
      storeWrites host g p data a = storeWrites host fs p data a := by
  unfold store storeWrites
  rw [hlocate]
  cases htemporary : fs.locate (temporaryPath host p) with
  | error e => exact ⟨rfl, rfl⟩
  | ok t =>
    dsimp only
    rw [ht t htemporary]
    by_cases hdirectory : fs.get? t = some .directory
    · simp only [if_pos hdirectory, and_self]
    · simp only [if_neg hdirectory]
      exact finish_congr h host p data t

/-! ## What storing writes -/

/-- The locations that storing under a path writes, apart from directories: that of the path
and that of the temporary file. -/
def claimed (host : Host) (fs : FileSystem) (p : Path) : List Location :=
  [fs.destination p, fs.destination (temporaryPath host p)]

/-- The second file system looks like the first to whoever puts bytes under the path. -/
structure Agrees (host : Host) (fs g : FileSystem) (p : Path) : Prop where
  regular : g.IsRegular
  workingDirectory : g.workingDirectory = fs.workingDirectory
  files : ∀ b ∈ fs.way p.parent, g.file? b = fs.file? b
  claimed : ∀ b ∈ claimed host fs p, g.get? b = fs.get? b

namespace Agrees

theorem refl (hfs : fs.IsRegular) (host : Host) (p : Path) : Agrees host fs fs p :=
  ⟨hfs, rfl, fun _ _ => rfl, fun _ _ => rfl⟩

variable (h : Agrees host fs g p)

include h

theorem destination_eq (q : Path) : g.destination q = fs.destination q := by
  rw [destination, destination, start_eq h.workingDirectory]

/-- The same directories can be made. -/
theorem makes (hparent : p.parent.IsNameable) :
    g.Makes (fs.madeDirectories p.parent) (fs.CanMakeDirectories p.parent)
      (g.makeDirectories p.parent) := by
  obtain ⟨hmade, hcan⟩ := madeDirectories_congr h.workingDirectory h.files
  rw [← hmade, ← propext hcan]
  exact h.regular.makes_makeDirectories hparent

/-- Behind the directories, if these can be made, the file systems still look alike. -/
theorem of_makeDirectories (hfs : fs.IsRegular) (hparent : p.parent.IsNameable)
    (hmade : fs.makeDirectories p.parent = (.ok (), fs')) :
    ∃ g', g.makeDirectories p.parent = (.ok (), g') ∧
      (Writes.directories (fs.madeDirectories p.parent)).Turns g g' ∧
      g'.locate (temporaryPath host p) = fs'.locate (temporaryPath host p) ∧
      g'.destination p = fs.destination p ∧
      ∀ b ∈ Container.claimed host fs p, g'.get? b = fs'.get? b := by
  have hmakes := hfs.makes_makeDirectories hparent
  have hmakes' := h.makes hparent
  obtain ⟨hwalk, hthere⟩ := hfs.walk_of_makeDirectories hparent hmade
  have hwalks' := fun g' (hmade : g.makeDirectories p.parent = (.ok (), g')) =>
    h.regular.walk_of_makeDirectories hparent hmade
  rw [hmade] at hmakes
  rcases hmade' : g.makeDirectories p.parent with ⟨e | _, g'⟩
  · rw [hmade'] at hmakes'
    cases hmakes'.ok_iff.2 (hmakes.ok_iff.1 rfl)
  rw [hmade'] at hmakes'
  obtain ⟨hwalk', hthere'⟩ := hwalks' g' hmade'
  rw [h.destination_eq, start_eq h.workingDirectory] at hwalk'
  rw [h.destination_eq] at hthere'
  have hstart := start_eq hmakes.workingDirectory p.parent
  have hhome := (hmakes'.workingDirectory.trans h.workingDirectory).trans
    hmakes.workingDirectory.symm
  rw [← hstart] at hwalk hwalk'
  refine ⟨g', rfl, Writes.turns_of_makes hmakes',
    locate_child_congr (start_eq hhome _) hwalk hwalk' hthere hthere' _, ?_, fun b hb => ?_⟩
  · rw [← h.destination_eq, destination, destination, start_eq hmakes'.workingDirectory]
  · rw [hmakes.get?, hmakes'.get?, h.claimed b hb]

end Agrees

/-- What storing writes where the directories can be made. -/
theorem exists_writes_of_makeDirectories (host : Host) (hfs : fs.IsRegular) (hp : p.names ≠ [])
    (hname : FileName.encode p.name ≠ [0x2E, 0x2E]) (hparent : p.parent.IsNameable)
    (hmade : fs.makeDirectories p.parent = (.ok (), fs')) (data : Bytes) :
    ∃ w : Writes,
      (∀ b node?, w b = some node? → b ∈ claimed host fs p ∨
        Writes.directories (fs.madeDirectories p.parent) b = some node?) ∧
      ∀ g, Agrees host fs g p → w.Turns g (replaceFile host g p data).2 ∧
        (replaceFile host g p data).1 = (replaceFile host fs p data).1 := by
  have hhome : fs'.workingDirectory = fs.workingDirectory := by
    have hmakes := hfs.makes_makeDirectories hparent
    rw [hmade] at hmakes
    exact hmakes.workingDirectory
  have hdestination (q : Path) : fs'.destination q = fs.destination q := by
    rw [destination, destination, start_eq hhome]
  have hpath : fs.destination p ∈ claimed host fs p := List.mem_cons_self
  have htemporary : ∀ t, fs'.locate (temporaryPath host p) = .ok t → t ∈ claimed host fs p := by
    intro t hlocate
    rw [eq_destination_of_locate hlocate, hdestination]
    exact List.mem_cons_of_mem _ List.mem_cons_self
  refine ⟨(Writes.directories (fs.madeDirectories p.parent)).andThen
    (storeWrites host fs' p data (fs.destination p)), fun b node? hb => ?_, fun g hg => ?_⟩
  · rcases Option.or_eq_some_iff.1 hb with hstored | ⟨-, hdirectory⟩
    · rcases eq_or_locate_of_storeWrites hstored with rfl | hlocate
      · exact Or.inl hpath
      · exact Or.inl (htemporary b hlocate)
    · exact Or.inr hdirectory
  · obtain ⟨g', hmade', hturns, hlocate', hdestination', hsame⟩ :=
      hg.of_makeDirectories hfs hparent hmade
    obtain ⟨hresult, hwrites⟩ := store_congr (hsame _ hpath) hlocate'
      (fun t ht => hsame t (htemporary t ht)) data
    rw [replaceFile_of_makeDirectories host hp hname hmade' data,
      replaceFile_of_makeDirectories host hp hname hmade data, hdestination', hdestination,
      ← hwrites]
    exact ⟨hturns.andThen (turns_store host g' p data _), hresult⟩

/-- Putting bytes under a path does the same to all file systems that look alike, and comes
to the same if the directories around the path can be made. -/
theorem exists_writes_replaceFile (host : Host) (hfs : fs.IsRegular) (hp : p.names ≠ [])
    (hname : FileName.encode p.name ≠ [0x2E, 0x2E]) (hparent : p.parent.IsNameable)
    (data : Bytes) :
    ∃ w : Writes,
      (∀ b node?, w b = some node? → b ∈ claimed host fs p ∨
        b ∈ fs.way p.parent ∧ node? = some .directory ∧ fs.file? b = none) ∧
      ∀ g, Agrees host fs g p → w.Turns g (replaceFile host g p data).2 ∧
        if (fs.makeDirectories p.parent).1.isOk then
          (replaceFile host g p data).1 = (replaceFile host fs p data).1
        else ∃ e, (g.makeDirectories p.parent).1 = .error e ∧
          (replaceFile host g p data).1 = .error e := by
  have hmakes := hfs.makes_makeDirectories hparent
  have hdirectories : ∀ b node?, Writes.directories (fs.madeDirectories p.parent) b = some node? →
      b ∈ fs.way p.parent ∧ node? = some .directory ∧ fs.file? b = none := by
    intro b node? hb
    unfold Writes.directories at hb
    split at hb
    · rename_i hmade
      refine ⟨mem_way_of_mem_madeDirectories hmade, (Option.some.inj hb).symm, ?_⟩
      rw [← file?_makeDirectories fs p.parent, file?, hmakes.get?, if_pos hmade]
    · cases hb
  rcases hmade : fs.makeDirectories p.parent with ⟨e | _, fs'⟩
  · -- The directories cannot be made, here or there.
    rw [hmade] at hmakes
    refine ⟨.directories _, fun b node? hb => Or.inr (hdirectories b node? hb), fun g hg => ?_⟩
    have hmakes' := hg.makes hparent
    rcases hmade' : g.makeDirectories p.parent with ⟨e' | _, g'⟩
    · rw [hmade'] at hmakes'
      rw [replaceFile_of_error hmade']
      exact ⟨Writes.turns_of_makes hmakes', e', rfl, rfl⟩
    · rw [hmade'] at hmakes'
      cases hmakes.ok_iff.2 (hmakes'.ok_iff.1 rfl)
  · obtain ⟨w, hw, hall⟩ := exists_writes_of_makeDirectories host hfs hp hname
      hparent hmade data
    exact ⟨w, fun b node? hb => (hw b node? hb).imp_right (hdirectories b node?), hall⟩

end Container

end ModuleDocs
