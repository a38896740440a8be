import Mathlib
import ModuleDocs.Proofs.File.Ways

/-!
# Making directories

The directories of a path are made from the first that is missing on, up to the first name
that is in the way.  `IsRegular.makes_makeDirectories` says that all of them are directories
afterwards, that nothing else has changed, and that there is no error just when no name is in
the way.  So directories that are there already change nothing but the reason for which
making them may fail (`madeDirectories_congr`).
-/

namespace ModuleDocs

namespace FileSystem

variable {fs fs' : FileSystem} {p : Path} {b : Location}

/-! ## One directory -/

/-- What making directories comes to: they are there, all else is as before, and there is
no error just if `P` holds. -/
structure Makes (fs : FileSystem) (made : List Location) (P : Prop) (outcome : Change Unit) :
    Prop where
  get? : ∀ b, outcome.2.get? b = if b ∈ made then some .directory else fs.get? b
  workingDirectory : outcome.2.workingDirectory = fs.workingDirectory
  ok_iff : outcome.1 = .ok () ↔ P

variable {made made' : List Location} {P P' : Prop} {outcome : Change Unit}

/-- Directories that were there need not be listed. -/
theorem Makes.congr (h : fs.Makes made P outcome)
    (hmade : ∀ b, fs.get? b ≠ some .directory → (b ∈ made ↔ b ∈ made')) (hP : P ↔ P') :
    fs.Makes made' P' outcome where
  get? := fun b => by
    rw [h.get?]
    by_cases hb : fs.get? b = some .directory
    · simp only [hb, ite_self]
    · simp only [hmade b hb]
  workingDirectory := h.workingDirectory
  ok_iff := h.ok_iff.trans hP

theorem Makes.trans {x : Except FileError Unit} (h : fs.Makes made P (x, fs'))
    (h' : fs'.Makes made' P' outcome) (hmade : made ⊆ made') : fs.Makes made' P' outcome where
  get? := fun b => by
    rw [h'.get?, h.get?]
    by_cases hb : b ∈ made'
    · rw [if_pos hb, if_pos hb]
    · rw [if_neg hb, if_neg hb, if_neg (mt (@hmade b) hb)]
  workingDirectory := h'.workingDirectory.trans h.workingDirectory
  ok_iff := h'.ok_iff

/-- An error is none where the directory is there. -/
def settle (p : Path) : Change Unit → Change Unit
  | (.error e, fs) => (fs.unlessDirectory p e, fs)
  | done => done

theorem unlessDirectory_eq_ok_iff {cause : OsCause} {t : Text} {target? : Option Text} :
    fs.unlessDirectory p (.os cause t target?) = .ok () ↔ fs.isDirectory p = .ok true := by
  rw [unlessDirectory, Result.bind_eq_ok_iff]
  constructor
  · rintro ⟨there, hthere, hok⟩
    cases there with
    | true => exact hthere
    | false => cases hok
  · intro hthere
    exact ⟨true, hthere, rfl⟩

/-- A path that leads to no file leads to a directory afterwards. -/
theorem makes_of_locate (hlocate : fs.locate p = .ok b) (hfile : fs.file? b = none) :
    fs.Makes [b] True (settle p (fs.makeDirectory p)) := by
  unfold makeDirectory
  rw [hlocate]
  dsimp only
  rcases eq_none_or_directory hfile with hmissing | hdirectory
  · rw [hmissing]
    have hfree : fs.get? b ≠ some .directory := by simp [hmissing]
    have hne := ne_nil_of_get? hfree
    refine ⟨fun c => ?_, rfl, iff_of_true rfl trivial⟩
    simp only [settle, get?_put fs hne, List.mem_singleton]
  · simp only [hdirectory, settle]
    refine ⟨fun c => ?_, rfl, iff_of_true ?_ trivial⟩
    · split
      · rename_i hc
        rw [List.mem_singleton.1 hc, hdirectory]
      · rfl
    · exact unlessDirectory_eq_ok_iff.2 (isDirectory_eq_true_iff.2 ⟨b, hlocate, hdirectory⟩)

theorem makes_of_not_locate (hp : p.IsNameable)
    (h : ∀ b, fs.locate p = .ok b → fs.file? b ≠ none) :
    fs.Makes [] False (settle p (fs.makeDirectory p)) := by
  have hnone : fs.isDirectory p ≠ .ok true := by
    intro hdirectory
    obtain ⟨b, hlocate, hb⟩ := isDirectory_eq_true_iff.1 hdirectory
    exact h b hlocate (by rw [file?, hb])
  have hescapes := mt (makeDirectory_escapes_iff fs p).1 (not_not.2 hp)
  -- Nothing is made, and the error stays.
  have hrefused : ∃ e, fs.makeDirectory p = (.error e, fs) := by
    refine (makeDirectory_cases fs p).resolve_right ?_
    rintro ⟨b, hlocate, hmissing, _⟩
    exact h b hlocate (by rw [file?, hmissing])
  obtain ⟨e, he⟩ := hrefused
  rw [he] at hescapes ⊢
  obtain ⟨cause, t, target?, rfl⟩ := failsWith_of_not_escapes hescapes e rfl
  refine ⟨fun b => by simp [settle], rfl, iff_of_false ?_ id⟩
  exact fun hok => hnone (unlessDirectory_eq_ok_iff.1 hok)

/-! ## All directories of a path -/

/-- The names of a path as they are on disk. -/
def fileNames (p : Path) : List FileName := p.names.map FileName.encode

/-- The directories along a path that can be made. -/
def openDirectories (fs : FileSystem) (p : Path) : List Location :=
  fs.openWay (fs.start p) (fileNames p)

/-- No name of the path is in the way of a directory. -/
def IsOpenPath (fs : FileSystem) (p : Path) : Prop := fs.IsOpen (fs.start p) (fileNames p)

theorem fileNames_child (dir : Path) (name : Text) :
    fileNames (dir.child name) = fileNames dir ++ [FileName.encode name] := List.map_append

theorem isOpenPath_child {dir : Path} {name : Text} : fs.IsOpenPath (dir.child name) ↔
    fs.IsOpenPath dir ∧
      ¬ fs.IsObstacle ((fs.start dir).follow (fileNames dir)) (FileName.encode name) := by
  rw [IsOpenPath, fileNames_child, isOpen_append, IsOpen, IsOpen, and_true]
  rfl

theorem openDirectories_child {dir : Path} {name : Text} :
    fs.openDirectories (dir.child name) = fs.openWay (fs.start dir)
      (fileNames dir ++ [FileName.encode name]) := by
  rw [openDirectories, fileNames_child]
  rfl

theorem openDirectories_subset_child (dir : Path) (name : Text) :
    fs.openDirectories dir ⊆ fs.openDirectories (dir.child name) := by
  rw [openDirectories_child]
  by_cases h : fs.IsOpenPath dir
  · rw [openWay_append_of_isOpen h]
    exact List.subset_append_left _ _
  · rw [openWay_append_of_not_isOpen h]
    exact List.Subset.refl _

/-- The locations that a path leads over. -/
def way (fs : FileSystem) (p : Path) : List Location := (fs.start p).way (fileNames p)

theorem start_eq (h : fs'.workingDirectory = fs.workingDirectory) (p : Path) :
    fs'.start p = fs.start p := by
  rw [start, start, home, home, h]

/-- Which directories of a path can be made depends on the files along it alone. -/
theorem openDirectories_congr (hhome : fs'.workingDirectory = fs.workingDirectory)
    (h : ∀ b ∈ fs.way p, fs'.file? b = fs.file? b) :
    fs'.openDirectories p = fs.openDirectories p ∧ (fs'.IsOpenPath p ↔ fs.IsOpenPath p) := by
  unfold openDirectories IsOpenPath
  rw [start_eq hhome]
  exact openWay_congr h

/-- Where the directories in front are there, one is made, or something is in the way. -/
theorem IsRegular.makes_child (hfs : fs.IsRegular) {dir : Path} {name : Text}
    (hp : (dir.child name).IsNameable)
    (hlength : (FileName.encode (dir.child name).toText).length < maxPath)
    (hmade : ∀ c ∈ fs.openDirectories dir, fs.get? c = some .directory) :
    fs.Makes (fs.openDirectories (dir.child name)) (fs.IsOpenPath (dir.child name))
      (settle (dir.child name) (fs.makeDirectory (dir.child name))) := by
  have hstart := hfs.get?_start dir
  have hlocate {b : Location} : fs.locate (dir.child name) = .ok b ↔
      walk (.reach fs.tree (fs.start dir)) (fileNames dir ++ [FileName.encode name]) = .ok b := by
    rw [locate_eq_ok_iff, and_iff_right hp, and_iff_right hlength, ← fileNames_child]
    rfl
  have hdirectory {d : Location} := walk_directory_iff (b := d) hstart hmade
  rw [isOpenPath_child, openDirectories_child]
  by_cases hopen : fs.IsOpenPath dir
  · obtain ⟨hwalk, hthere⟩ := hdirectory.2 ⟨hopen, rfl⟩
    rw [openWay_append_of_isOpen hopen, and_iff_right hopen, openWay_singleton]
    by_cases hname : fs.IsObstacle ((fs.start dir).follow (fileNames dir)) (FileName.encode name)
    · rw [if_pos hname, List.append_nil]
      refine (makes_of_not_locate hp fun b hb => ?_).congr (fun b hb => ?_) ?_
      · obtain ⟨d, hd, hdir, hstep⟩ := (walk_concat fs _ _ _ _).1 (hlocate.1 hb)
        obtain ⟨-, rfl⟩ := hdirectory.1 ⟨hd, hdir⟩
        rcases hstep with ⟨hdots, -⟩ | ⟨-, hshort, rfl⟩
        · exact (hname.1 hdots).elim
        · exact Option.isSome_iff_ne_none.1 (hname.2.resolve_left (Nat.not_lt.2 hshort))
      · exact iff_of_false List.not_mem_nil fun hmem => hb (hmade b hmem)
      · exact iff_of_false id (not_not.2 hname)
    · rw [if_neg hname]
      have hb := hlocate.2 (walk_append_of_not_isObstacle hwalk hthere hname)
      refine (makes_of_locate hb (file?_step hfs hthere hname)).congr (fun b hb => ?_) ?_
      · rw [List.mem_append]
        exact (or_iff_right fun hmem => hb (hmade b hmem)).symm
      · exact iff_of_true trivial hname
  · rw [openWay_append_of_not_isOpen hopen]
    refine (makes_of_not_locate hp fun b hb => ?_).congr (fun b hb => ?_) ?_
    · obtain ⟨d, hd, hdir, -⟩ := (walk_concat fs _ _ _ _).1 (hlocate.1 hb)
      exact (hopen (hdirectory.1 ⟨hd, hdir⟩).1).elim
    · exact iff_of_false List.not_mem_nil fun hmem => hb (hmade b hmem)
    · exact iff_of_false id fun h => hopen h.1

/-- The step found nothing on its way. -/
def isNotFound : Except FileError Unit → Bool
  | .error (.os .notFound ..) => true
  | _ => false

/-- Only a directory that is missing in front keeps one from being found. -/
theorem IsRegular.isNotFound_makeDirectory_iff (hfs : fs.IsRegular) {dir : Path} {name : Text}
    (hp : (dir.child name).IsNameable)
    (hlength : (FileName.encode (dir.child name).toText).length < maxPath) :
    isNotFound (fs.makeDirectory (dir.child name)).1 = true ↔
      ∃ c ∈ fs.openDirectories dir, fs.get? c ≠ some .directory := by
  rw [openDirectories, ← walk_eq_notFound_iff hfs (hfs.get?_start dir) (FileName.encode name),
    ← fileNames_child]
  have hlocate : fs.locate (dir.child name)
      = (walk (.reach fs.tree (fs.start dir)) (fileNames (dir.child name))).mapError
          fun cause => .os cause (dir.child name).toText none := by
    rw [locate_of_isNameable hp, if_neg (Nat.not_le.2 hlength)]
    rfl
  unfold FileSystem.makeDirectory
  rw [hlocate]
  cases walk (.reach fs.tree (fs.start dir)) (fileNames (dir.child name)) with
  | error cause => cases cause <;> simp [Except.mapError, isNotFound]
  | ok b =>
    simp only [Except.mapError]
    split <;> simp [isNotFound]

theorem path_reverse_cons (root : Root) (name : Text) (above : List Text) :
    (⟨root, (name :: above).reverse⟩ : Path) = Path.child ⟨root, above.reverse⟩ name := by
  rw [List.reverse_cons]
  rfl

theorem makeDirectoriesFrom_cons (root : Root) (fs : FileSystem) (name : Text) (above : List Text) :
    makeDirectoriesFrom root fs (name :: above) =
      let p := Path.child ⟨root, above.reverse⟩ name
      if isNotFound (fs.makeDirectory p).1 then
        match makeDirectoriesFrom root fs above with
        | (.error e, fs) => (.error e, fs)
        | (.ok (), fs) =>
          if isNotFound (fs.makeDirectory p).1 then fs.makeDirectory p
          else settle p (fs.makeDirectory p)
      else settle p (fs.makeDirectory p) := by
  rw [makeDirectoriesFrom, path_reverse_cons]
  dsimp only
  have hfailed : ∀ e fs', fs.makeDirectory (Path.child ⟨root, above.reverse⟩ name)
      = (.error e, fs') → fs' = fs := fun e fs' => eq_of_makeDirectory_eq_error
  generalize fs.makeDirectory (Path.child ⟨root, above.reverse⟩ name) = first at hfailed
  rcases first with ⟨e | _, made⟩
  · obtain rfl := hfailed _ _ rfl
    cases e with
    | os cause t target? =>
      cases cause with
      | notFound =>
        dsimp only [isNotFound]
        rcases makeDirectoriesFrom root made above with ⟨e | _, above'⟩
        · rfl
        · dsimp only
          generalize above'.makeDirectory (Path.child ⟨root, above.reverse⟩ name) = second
          rcases second with ⟨e | _, _⟩
          · cases e with
            | os cause t target? => cases cause <;> rfl
            | _ => rfl
          · rfl
      | _ => rfl
    | _ => rfl
  · rfl

theorem exists_join_concat (separator : Text) (parts : List Text) (t : Text) :
    ∃ rest, Text.join separator (parts ++ [t]) = Text.join separator parts ++ rest := by
  induction parts with
  | nil => exact ⟨Text.join separator [t], rfl⟩
  | cons part parts ih =>
    cases parts with
    | nil => exact ⟨separator ++ t, by simp [Text.join]⟩
    | cons next more =>
      obtain ⟨rest, hrest⟩ := ih
      have hjoin (others : List Text) : Text.join separator (part :: next :: others)
          = part ++ (separator ++ Text.join separator (next :: others)) := by simp [Text.join]
      refine ⟨rest, ?_⟩
      rw [List.cons_append, List.cons_append, hjoin, hjoin, ← List.cons_append, hrest]
      simp only [List.append_assoc]

/-- The text of a path is no shorter than that of its parent. -/
theorem length_encode_toText_le_child (dir : Path) (name : Text) :
    (FileName.encode dir.toText).length ≤ (FileName.encode (dir.child name).toText).length := by
  obtain ⟨rest, hrest⟩ := exists_join_concat "/" dir.names name
  have hchild : (dir.child name).toText
      = let t := (Path.Root.text dir.root ++ Text.join "/" dir.names) ++ rest
        if t.isEmpty then Text.ofString "." else t := by
    rw [List.append_assoc, ← hrest]
    rfl
  have hdir : dir.toText = let t := Path.Root.text dir.root ++ Text.join "/" dir.names
      if t.isEmpty then Text.ofString "." else t := rfl
  have hdot : (FileName.encode (Text.ofString ".")).length = 1 := by decide
  rw [hchild, hdir]
  generalize Path.Root.text dir.root ++ Text.join "/" dir.names = front
  dsimp only
  by_cases hfront : front.isEmpty = true
  · rw [if_pos hfront, hdot]
    split
    · exact hdot.ge
    · rename_i hne
      have hlength := FileName.length_le_length_encode (front ++ rest)
      have hpositive : 0 < (front ++ rest).length :=
        List.length_pos_iff.2 (mt List.isEmpty_iff.2 hne)
      omega
  · have hlonger : ¬ (front ++ rest).isEmpty = true := by
      rw [List.isEmpty_iff] at hfront ⊢
      exact List.append_ne_nil_of_left_ne_nil hfront rest
    rw [if_neg hfront, if_neg hlonger, length_encode_append]
    exact Nat.le_add_right _ _

/-- Making the directories of a path makes those along it up to the first obstacle. -/
theorem IsRegular.makes_makeDirectoriesFrom (hfs : fs.IsRegular) {root : Root} {names : List Text}
    (hp : Path.IsNameable ⟨root, names.reverse⟩)
    (hlength : (FileName.encode (Path.toText ⟨root, names.reverse⟩)).length < maxPath) :
    fs.Makes (fs.openDirectories ⟨root, names.reverse⟩) (fs.IsOpenPath ⟨root, names.reverse⟩)
      (makeDirectoriesFrom root fs names) := by
  induction names with
  | nil =>
    have hstart := hfs.get?_start ⟨root, []⟩
    have hlocate : fs.locate ⟨root, []⟩ = .ok (fs.start ⟨root, []⟩) := by
      refine locate_eq_ok_iff.2 ⟨hp, hlength, ?_⟩
      rw [List.map_nil, walk_reach_nil]
    refine (makes_of_locate hlocate (by rw [file?, hstart])).congr (fun b hb => ?_) Iff.rfl
    refine iff_of_false (fun hmem => hb ?_) List.not_mem_nil
    rw [List.mem_singleton.1 hmem, hstart]
  | cons name above ih =>
    rw [path_reverse_cons] at hp hlength ⊢
    rw [makeDirectoriesFrom_cons]
    dsimp only
    by_cases hmissing : ∃ c ∈ fs.openDirectories ⟨root, above.reverse⟩,
      fs.get? c ≠ some .directory
    · rw [if_pos ((hfs.isNotFound_makeDirectory_iff hp hlength).2 hmissing)]
      have habove := ih (Path.isNameable_child_iff.1 hp).1
        (Nat.lt_of_le_of_lt (length_encode_toText_le_child _ name) hlength)
      have hfs' : (makeDirectoriesFrom root fs above).2.IsRegular :=
        makeDirectoriesFrom_induction (P := IsRegular) (fun _ p h => h.makeDirectory p) root
          above hfs
      have hfiles : ∀ b, (makeDirectoriesFrom root fs above).2.file? b = fs.file? b := by
        refine makeDirectoriesFrom_induction (P := fun fs' => ∀ b, fs'.file? b = fs.file? b) ?_
          root above fun _ => rfl
        exact fun fs' p h b => (file?_makeDirectory fs' p b).trans (h b)
      generalize makeDirectoriesFrom root fs above = outcome at habove hfs' hfiles
      rcases outcome with ⟨e | _, fs'⟩
      · have hclosed := mt habove.ok_iff.2 (by simp)
        refine habove.congr (fun b _ => ?_) ?_
        · rw [openDirectories_child, openWay_append_of_not_isOpen hclosed]
          rfl
        · exact iff_of_false hclosed fun h => hclosed (isOpenPath_child.1 h).1
      · -- All in front is there now, so that the last directory can be made.
        have hsame {p : Path} :=
          openDirectories_congr (p := p) habove.workingDirectory fun b _ => hfiles b
        have hmade : ∀ c ∈ fs'.openDirectories ⟨root, above.reverse⟩,
            fs'.get? c = some .directory := by
          intro c hc
          rw [hsame.1] at hc
          rw [habove.get?, if_pos hc]
        have hlast := hfs'.makes_child hp hlength hmade
        rw [hsame.1, propext hsame.2] at hlast
        dsimp only
        rw [if_neg ((hfs'.isNotFound_makeDirectory_iff hp hlength).not.2 (by simpa using hmade))]
        exact habove.trans hlast (openDirectories_subset_child _ name)
    · rw [if_neg ((hfs.isNotFound_makeDirectory_iff hp hlength).not.2 hmissing)]
      push Not at hmissing
      exact hfs.makes_child hp hlength hmissing

/-- The directories that making those of a path makes or finds. -/
def madeDirectories (fs : FileSystem) (p : Path) : List Location :=
  if maxPath ≤ (FileName.encode p.toText).length then [] else fs.openDirectories p

/-- The path is not too long, and neither a name that is nor a file is in the way. -/
def CanMakeDirectories (fs : FileSystem) (p : Path) : Prop :=
  (FileName.encode p.toText).length < maxPath ∧ fs.IsOpenPath p

theorem mem_way_of_mem_madeDirectories (h : b ∈ fs.madeDirectories p) : b ∈ fs.way p := by
  unfold madeDirectories at h
  split at h
  · cases h
  · exact mem_way_of_mem_openWay h

theorem madeDirectories_congr (hhome : fs'.workingDirectory = fs.workingDirectory)
    (h : ∀ b ∈ fs.way p, fs'.file? b = fs.file? b) :
    fs'.madeDirectories p = fs.madeDirectories p ∧
      (fs'.CanMakeDirectories p ↔ fs.CanMakeDirectories p) := by
  obtain ⟨hmade, hopen⟩ := openDirectories_congr hhome h
  unfold madeDirectories CanMakeDirectories
  rw [hmade, hopen]
  exact ⟨rfl, Iff.rfl⟩

/-- A path that is too long is refused as a whole. -/
theorem makes_of_long (hp : p.IsNameable) (hlength : maxPath ≤ (FileName.encode p.toText).length) :
    fs.Makes [] False (fs.makeDirectories p) := by
  have hlocate : fs.locate p = .error (.os .nameTooLong p.toText none) := by
    rw [locate_of_isNameable hp, if_pos hlength]
  have hrefused : fs.Makes [] False (settle p (fs.makeDirectory p)) :=
    makes_of_not_locate hp (by simp [hlocate])
  have hmake : fs.makeDirectory p = (.error (.os .nameTooLong p.toText none), fs) := by
    rw [makeDirectory, hlocate]
  obtain ⟨root, names⟩ := p
  rcases hnames : names.reverse with _ | ⟨name, above⟩
  · obtain rfl := List.reverse_eq_nil_iff.1 hnames
    exact hrefused
  · have hpath : (⟨root, names⟩ : Path) = Path.child ⟨root, above.reverse⟩ name := by
      rw [← path_reverse_cons, ← hnames, List.reverse_reverse]
    rw [makeDirectories, hnames, makeDirectoriesFrom_cons, ← hpath]
    dsimp only
    rw [hmake, if_neg (by simp [isNotFound]), ← hmake]
    exact hrefused

/-- Making the directories of a path makes those along it up to the first obstacle, and
fails just if there is one. -/
theorem IsRegular.makes_makeDirectories (hfs : fs.IsRegular) (hp : p.IsNameable) :
    fs.Makes (fs.madeDirectories p) (fs.CanMakeDirectories p) (fs.makeDirectories p) := by
  unfold madeDirectories CanMakeDirectories
  by_cases hlong : maxPath ≤ (FileName.encode p.toText).length
  · rw [if_pos hlong]
    exact (makes_of_long hp hlong).congr (fun _ _ => Iff.rfl)
      (iff_of_false id fun h => Nat.not_lt.2 hlong h.1)
  · have hlength := Nat.lt_of_not_le hlong
    rw [if_neg hlong, and_iff_right hlength, FileSystem.makeDirectories]
    have hnames : (⟨p.root, p.names.reverse.reverse⟩ : Path) = p := by rw [List.reverse_reverse]
    rw [← hnames] at hp hlength
    have hmakes := hfs.makes_makeDirectoriesFrom hp hlength
    rwa [hnames] at hmakes

end FileSystem

end ModuleDocs
