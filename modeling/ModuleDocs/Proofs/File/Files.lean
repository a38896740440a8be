import Mathlib
import ModuleDocs.Proofs.File.Nameable

/-!
# Which files an operation changes

`FileSystem.file?` looks at files only, and so sees no directory that is made
(`file?_makeDirectories`).  A file that is written and then given another name of the same
directory changes two locations (`rename_of_write`): the new name is free for it whenever
the longer one was, unless there is a directory.
-/

namespace ModuleDocs

namespace FileSystem

variable {fs fs' : FileSystem} {dir : Path} {name ending : Text} {data : Bytes}

/-- What the file at a location holds, if there is one. -/
def file? (fs : FileSystem) (a : Location) : Option Bytes :=
  match fs.get? a with
  | some (.file data) => some data
  | _ => none

/-! ## Single locations -/

theorem ne_nil_of_get? {a : Location} (ha : fs.get? a ≠ some .directory) : a ≠ [] := by
  intro hnil
  subst hnil
  exact ha rfl

theorem file?_put_file {a : Location} (ha : fs.get? a ≠ some .directory) (data : Bytes)
    (b : Location) :
    (fs.put a (.file data)).file? b = if b = a then some data else fs.file? b := by
  unfold file?
  rw [get?_put fs (ne_nil_of_get? ha)]
  by_cases hb : b = a
  · rw [if_pos hb, if_pos hb]
  · rw [if_neg hb, if_neg hb]

theorem file?_remove {a : Location} (ha : fs.get? a ≠ some .directory) (b : Location) :
    (fs.remove a).file? b = if b = a then none else fs.file? b := by
  unfold file?
  rw [get?_remove fs (ne_nil_of_get? ha)]
  by_cases hb : b = a
  · rw [if_pos hb, if_pos hb]
  · rw [if_neg hb, if_neg hb]

/-- A directory that is made where nothing was is no change of a file. -/
theorem file?_put_directory {a : Location} (ha : fs.get? a = none) (b : Location) :
    (fs.put a .directory).file? b = fs.file? b := by
  have hfree : fs.get? a ≠ some .directory := by simp [ha]
  have hne := ne_nil_of_get? hfree
  unfold file?
  rw [get?_put fs hne]
  by_cases hb : b = a
  · rw [if_pos hb, hb, ha]
  · rw [if_neg hb]

/-! ## Directories -/

theorem nodeAt_eq_ok_iff {p : Path} {node : Node} :
    fs.nodeAt p = .ok node ↔ ∃ a, fs.locate p = .ok a ∧ fs.get? a = some node := by
  unfold nodeAt
  rw [Result.bind_eq_ok_iff]
  refine exists_congr fun a => and_congr_right fun _ => ?_
  cases fs.get? a with
  | none => simp
  | some node' => simp [Result.pure_eq_ok_iff]

theorem status_eq_some_iff {p : Path} {node : Node} :
    fs.status p = .ok (some node) ↔ fs.nodeAt p = .ok node := by
  unfold status
  split
  · rename_i node' hnode
    rw [hnode, Except.ok.injEq, Except.ok.injEq, Option.some.injEq]
  · rename_i hnode
    simp [hnode]
  · rename_i hnode
    simp [hnode]

theorem isDirectory_eq_true_iff {p : Path} :
    fs.isDirectory p = .ok true ↔ ∃ a, fs.locate p = .ok a ∧ fs.get? a = some .directory := by
  rw [← nodeAt_eq_ok_iff, ← status_eq_some_iff, isDirectory, Result.bind_pure_eq_ok_iff]
  simp

theorem file?_makeDirectory (fs : FileSystem) (p : Path) (b : Location) :
    (fs.makeDirectory p).2.file? b = fs.file? b := by
  rcases makeDirectory_cases fs p with ⟨e, he⟩ | ⟨a, _, hnone, hmade⟩
  · rw [he]
  · rw [hmade]
    exact file?_put_directory hnone b

/-- Making directories changes no file, also when it fails. -/
theorem file?_makeDirectories (fs : FileSystem) (p : Path) (b : Location) :
    (fs.makeDirectories p).2.file? b = fs.file? b := by
  apply makeDirectories_induction (P := fun fs' => fs'.file? b = fs.file? b)
  · intro fs' q h
    rw [file?_makeDirectory, h]
  · rfl

/-! ## Names of one directory -/

theorem length_encode_append (t u : Text) : (FileName.encode (t ++ u)).length
    = (FileName.encode t).length + (FileName.encode u).length := by
  rw [FileName.encode, List.flatMap_append, List.length_append]
  rfl

theorem join_concat_append (separator : Text) (parts : List Text) (t u : Text) :
    Text.join separator (parts ++ [t ++ u]) = Text.join separator (parts ++ [t]) ++ u := by
  induction parts with
  | nil => simp [Text.join]
  | cons part rest ih =>
    have hjoin (last : Text) : Text.join separator (part :: rest ++ [last])
        = part ++ (separator ++ Text.join separator (rest ++ [last])) := by
      cases rest <;> simp [Text.join]
    rw [hjoin, hjoin, ih]
    simp only [List.append_assoc]

/-- A shorter name makes a shorter path. -/
theorem length_encode_child (dir : Path) (name : Text)
    (hending : 0 < (FileName.encode ending).length) :
    (FileName.encode (dir.child name).toText).length
      ≤ (FileName.encode (dir.child (name ++ ending)).toText).length := by
  let text (last : Text) : Text := Path.Root.text dir.root ++ Text.join "/" (dir.names ++ [last])
  have hne : ending ≠ [] := by
    intro hnil
    simp [hnil, FileName.encode] at hending
  have hlong : text (name ++ ending) = text name ++ ending := by
    simp only [text]
    rw [join_concat_append, List.append_assoc]
  have hlongText : (dir.child (name ++ ending)).toText = text name ++ ending := by
    show (if (text (name ++ ending)).isEmpty then _ else text (name ++ ending)) = _
    rw [hlong, if_neg (by simp [hne])]
  rw [hlongText, length_encode_append]
  show (FileName.encode (if (text name).isEmpty then _ else text name)).length ≤ _
  split
  · have hdot : (FileName.encode (Text.ofString ".")).length = 1 := by decide
    omega
  · omega

/-- A path of a name in a directory leads to the directory and then one step on. -/
theorem locate_child_iff {a : Location} (hname : FileName.encode name ≠ [0x2E, 0x2E]) :
    fs.locate (dir.child name) = .ok a ↔ (dir.child name).IsNameable ∧
      (FileName.encode (dir.child name).toText).length < maxPath ∧
      (FileName.encode name).length ≤ maxName ∧
      ∃ at_, walk (.reach fs.tree (fs.start dir)) (dir.names.map FileName.encode) = .ok at_ ∧
        fs.get? at_ = some .directory ∧ a = at_ ++ [FileName.encode name] := by
  have hnames : (dir.child name).names.map FileName.encode
      = dir.names.map FileName.encode ++ [FileName.encode name] := List.map_append
  have hstart : fs.start (dir.child name) = fs.start dir := rfl
  rw [locate_eq_ok_iff, hstart, hnames, walk_concat]
  simp only [hname, false_and, false_or, ne_eq, not_false_iff, true_and]
  constructor
  · intro h
    obtain ⟨hnameable, hpath, at_, hwalk, hdirectory, hlength, ha⟩ := h
    exact ⟨hnameable, hpath, hlength, at_, hwalk, hdirectory, ha⟩
  · intro h
    obtain ⟨hnameable, hpath, hlength, at_, hwalk, hdirectory, ha⟩ := h
    exact ⟨hnameable, hpath, at_, hwalk, hdirectory, hlength, ha⟩

/-- Where a name with an ending leads somewhere, the name without it leads beside. -/
theorem exists_locate_child {t : Location} (hending : 2 < (FileName.encode ending).length)
    (hname : FileName.encode name ≠ [0x2E, 0x2E])
    (h : fs.locate (dir.child (name ++ ending)) = .ok t) :
    ∃ a, fs.locate (dir.child name) = .ok a ∧ a ≠ t := by
  have hlong : FileName.encode (name ++ ending) ≠ [0x2E, 0x2E] := by
    intro hdots
    have hlength := congrArg List.length hdots
    rw [length_encode_append] at hlength
    simp only [List.length_cons, List.length_nil] at hlength
    omega
  obtain ⟨hnameable, hpath, hlength, at_, hwalk, hdirectory, rfl⟩ := (locate_child_iff hlong).1 h
  have hpositive : 0 < (FileName.encode ending).length := by omega
  have hshorter := length_encode_child dir name hpositive
  rw [length_encode_append] at hlength
  refine ⟨at_ ++ [FileName.encode name], (locate_child_iff hname).2
    ⟨?_, by omega, by omega, at_, hwalk, hdirectory, rfl⟩, ?_⟩
  · rw [Path.isNameable_child_iff, List.all_append, Bool.and_eq_true] at hnameable
    exact Path.isNameable_child_iff.2 ⟨hnameable.1, hnameable.2.1⟩
  · intro hsame
    have hnames := List.singleton_inj.1 (List.append_cancel_left hsame)
    have hlengths := congrArg List.length hnames
    rw [length_encode_append] at hlengths
    omega

/-- A file that was written under a name with an ending can then be given the name without
it, unless that is the name of a directory. -/
theorem rename_of_write {written : FileSystem} (hending : 2 < (FileName.encode ending).length)
    (hname : FileName.encode name ≠ [0x2E, 0x2E])
    (h : fs.write (dir.child (name ++ ending)) data = (.ok (), written)) :
    ∃ t a, fs.locate (dir.child (name ++ ending)) = .ok t ∧ fs.locate (dir.child name) = .ok a ∧
      a ≠ t ∧ fs.get? t ≠ some .directory ∧ written = fs.put t (.file data) ∧
      if fs.get? a = some .directory then
        written.rename (dir.child (name ++ ending)) (dir.child name)
          = (.error (.os .isDirectory (dir.child (name ++ ending)).toText
              (some (dir.child name).toText)), written)
      else written.rename (dir.child (name ++ ending)) (dir.child name)
        = (.ok (), (written.remove t).put a (.file data)) := by
  obtain ⟨t, ht, hfree, rfl⟩ := write_eq_ok h
  obtain ⟨a, ha, hne⟩ := exists_locate_child hending hname ht
  refine ⟨t, a, ht, ha, hne, hfree, rfl, ?_⟩
  have hkeeps := keeps_put hfree (.file data)
  have hnotDots : (dir.child name).names.getLastD (Text.ofString "..") ≠ Text.ofString ".." := by
    rw [Path.child, List.getLastD_concat]
    intro hdots
    rw [hdots] at hname
    exact hname (by decide)
  have hold : (fs.put t (.file data)).get? t = some (.file data) := by
    rw [get?_put fs (ne_nil_of_get? hfree), if_pos rfl]
  have hnew : (fs.put t (.file data)).get? a = fs.get? a := by
    rw [get?_put fs (ne_nil_of_get? hfree), if_neg hne]
  unfold rename
  rw [locate_of_keeps hkeeps ht, locate_of_keeps hkeeps ha]
  simp only [hnotDots, if_false, hold, hnew]
  cases hnode : fs.get? a with
  | none => simp
  | some node =>
    cases node with
    | file _ => simp
    | directory => simp

end FileSystem

end ModuleDocs
