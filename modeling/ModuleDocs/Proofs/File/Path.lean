import Mathlib
import ModuleDocs.File.Path

/-!
# Paths of texts

`Path.directoryText` and `Path.baseText` take a text apart at its last slash, and
`Path.parse_append_ending` reads the path of the text from these parts.
`Path.join_eq_self_iff` says which paths lead from a directory back to it.
-/

namespace ModuleDocs

namespace Text

variable {c : CodePoint} {t before after : Text}

/-! ## Splitting at the last occurrence -/

theorem splitLast?_eq_none_iff : splitLast? c t = none ↔ c ∉ t := by
  induction t with
  | nil => simp [splitLast?]
  | cons d rest ih =>
    rw [splitLast?, List.mem_cons, not_or]
    cases hrest : splitLast? c rest with
    | none =>
      have hnot := ih.1 hrest
      by_cases hd : d = c
      · simp [hd]
      · simp [hd, hnot, Ne.symm hd]
    | some parts =>
      have hmem : c ∈ rest := by
        by_contra hnot
        rw [ih.2 hnot] at hrest
        cases hrest
      simp [hmem]

/-- The parts stand around an occurrence behind which there is no other. -/
theorem splitLast?_eq_some (h : splitLast? c t = some (before, after)) :
    t = before ++ c :: after ∧ c ∉ after := by
  induction t generalizing before with
  | nil => cases h
  | cons d rest ih =>
    rw [splitLast?] at h
    cases hrest : splitLast? c rest with
    | none =>
      rw [hrest] at h
      have hnot := splitLast?_eq_none_iff.1 hrest
      by_cases hd : d = c
      · rw [if_pos hd] at h
        cases h
        exact ⟨by rw [hd, List.nil_append], hnot⟩
      · rw [if_neg hd] at h
        cases h
    | some parts =>
      obtain ⟨front, back⟩ := parts
      rw [hrest] at h
      cases h
      obtain ⟨hparts, hnot⟩ := ih hrest
      exact ⟨by rw [hparts, List.cons_append], hnot⟩

/-- What stands behind an occurrence without another is the part behind the last one. -/
theorem splitLast?_append_cons (h : c ∉ after) :
    splitLast? c (before ++ c :: after) = some (before, after) := by
  induction before with
  | nil => rw [List.nil_append, splitLast?, splitLast?_eq_none_iff.2 h, if_pos rfl]
  | cons d rest ih => rw [List.cons_append, splitLast?, ih]

end Text

namespace Path

/-- The path of a name in a directory. -/
def child (dir : Path) (name : Text) : Path := { dir with names := dir.names ++ [name] }

/-- The path is that of a directory with one name more. -/
def IsChildOf (p dir : Path) : Prop := p.parent = dir ∧ p ≠ dir

theorem child_inj {dir dir' : Path} {name name' : Text} :
    dir.child name = dir'.child name' ↔ dir = dir' ∧ name = name' := by
  cases dir
  cases dir'
  simp only [child, mk.injEq]
  constructor
  · intro h
    obtain ⟨hroot, hnames⟩ := h
    obtain ⟨hfront, hlast⟩ := List.append_inj' hnames rfl
    exact ⟨⟨hroot, hfront⟩, List.singleton_inj.1 hlast⟩
  · intro h
    obtain ⟨⟨hroot, hfront⟩, hlast⟩ := h
    exact ⟨hroot, by rw [hfront, hlast]⟩

theorem parent_child (dir : Path) (name : Text) : (dir.child name).parent = dir := by
  rw [child, parent, List.dropLast_concat]

/-- A path with a name is that name in the directory it is in. -/
theorem child_parent_name {p : Path} (hp : p.names ≠ []) : p.parent.child p.name = p := by
  have hnames : p.parent.names ++ [p.name] = p.names := by
    rw [parent, name, List.getLastD_eq_getLast?, List.getLast?_eq_getLast_of_ne_nil hp]
    exact List.dropLast_append_getLast hp
  rw [child, hnames]
  rfl

theorem name_child (dir : Path) (name : Text) : (dir.child name).name = name := by
  rw [child, Path.name, List.getLastD_concat]

theorem withName?_child (dir : Path) (name other : Text) :
    (dir.child name).withName? other = some (dir.child other) := by
  rw [child, withName?, if_neg (by simp), List.dropLast_concat]
  rfl

theorem child_ne_self (dir : Path) (name : Text) : dir.child name ≠ dir := by
  intro h
  have hlength := congrArg (fun p : Path => p.names.length) h
  simp [child] at hlength

/-- A name in one directory is a child of another just when they are the same. -/
theorem isChildOf_child_iff {dir dir' : Path} {name : Text} :
    (dir.child name).IsChildOf dir' ↔ dir = dir' := by
  unfold IsChildOf
  rw [parent_child]
  constructor
  · intro h
    exact h.1
  · intro h
    exact ⟨h, h ▸ child_ne_self dir name⟩

/-! ## Pieces -/

theorem splitSlashes_of_not_mem {t : Text} (h : CodePoint.ofChar '/' ∉ t) :
    splitSlashes t = [t] := by
  induction t with
  | nil => rfl
  | cons c rest ih =>
    obtain ⟨hc, hrest⟩ := not_or.1 (mt List.mem_cons.2 h)
    rw [splitSlashes, if_neg (Ne.symm hc), ih hrest]

/-- A slash ends a piece. -/
theorem splitSlashes_append_cons (before after : Text) :
    splitSlashes (before ++ CodePoint.ofChar '/' :: after)
      = splitSlashes before ++ splitSlashes after := by
  induction before with
  | nil =>
    show splitSlashes (_ :: after) = [] :: splitSlashes after
    rw [splitSlashes, if_pos rfl]
  | cons c rest ih =>
    rw [List.cons_append, splitSlashes, splitSlashes, ih]
    split
    · rfl
    · cases hpieces : splitSlashes rest with
      | nil =>
        cases rest with
        | nil => cases hpieces
        | cons d more =>
          rw [splitSlashes] at hpieces
          split at hpieces
          · cases hpieces
          · split at hpieces <;> cases hpieces
      | cons piece pieces => rfl

/-! ## Parsing -/

/-- The slashes in front of a text are not continued by a text that starts with none. -/
theorem takeWhile_append_of_head (before : Text) {after : Text}
    (hhead : after.head? ≠ some (CodePoint.ofChar '/')) :
    (before ++ after).takeWhile (fun c : CodePoint => c = '/')
      = before.takeWhile (fun c : CodePoint => c = '/') := by
  have hafter : after.takeWhile (fun c : CodePoint => c = '/') = [] := by
    cases after with
    | nil => rfl
    | cons c rest => rw [List.takeWhile_cons_of_neg (by simpa using hhead)]
  rw [List.takeWhile_append, hafter, List.append_nil]
  split
  · rename_i hall
    exact ((List.takeWhile_prefix _).eq_of_length hall).symm
  · rfl

theorem head?_ne_of_not_mem {t : Text} {c : CodePoint} (h : c ∉ t) : t.head? ≠ some c := by
  intro hhead
  exact h (List.mem_of_head? hhead)

/-- What a text without slashes puts behind one that is empty or ends with a slash is a
name of its own. -/
theorem parse_append_of_not_mem {front last : Text}
    (hfront : front = [] ∨ ∃ before, front = before ++ [CodePoint.ofChar '/'])
    (hslash : CodePoint.ofChar '/' ∉ last) (hne : last ≠ []) (hdot : last ≠ Text.ofString ".") :
    parse (front ++ last) = (parse front).child last := by
  have hroot := takeWhile_append_of_head front (head?_ne_of_not_mem hslash)
  rcases hfront with rfl | ⟨before, rfl⟩
  · rw [List.nil_append] at hroot ⊢
    rw [parse, parse, hroot, splitSlashes_of_not_mem hslash]
    simp [child, splitSlashes, hne, hdot]
  · have hpieces : splitSlashes (before ++ [CodePoint.ofChar '/'] ++ last)
        = splitSlashes before ++ [last] := by
      rw [List.append_assoc, List.singleton_append, splitSlashes_append_cons,
        splitSlashes_of_not_mem hslash]
    rw [parse, parse, hroot, hpieces, splitSlashes_append_cons]
    simp [child, splitSlashes, hne, hdot]

/-! ## Directory and base name -/

/-- A text up to its last slash. -/
def directoryText (t : Text) : Text :=
  match Text.splitLast? (CodePoint.ofChar '/') t with
  | none => []
  | some (before, _) => before ++ [CodePoint.ofChar '/']

/-- A text behind its last slash. -/
def baseText (t : Text) : Text :=
  match Text.splitLast? (CodePoint.ofChar '/') t with
  | none => t
  | some (_, after) => after

theorem directoryText_append_baseText (t : Text) : directoryText t ++ baseText t = t := by
  unfold directoryText baseText
  split
  · rfl
  · rename_i before after hsplit
    rw [(Text.splitLast?_eq_some hsplit).1, List.append_assoc, List.singleton_append]

theorem not_mem_baseText (t : Text) : CodePoint.ofChar '/' ∉ baseText t := by
  unfold baseText
  split
  · rename_i hsplit
    exact Text.splitLast?_eq_none_iff.1 hsplit
  · rename_i before after hsplit
    exact (Text.splitLast?_eq_some hsplit).2

theorem directoryText_ends (t : Text) : directoryText t = [] ∨
    ∃ before, directoryText t = before ++ [CodePoint.ofChar '/'] := by
  unfold directoryText
  split
  · exact Or.inl rfl
  · exact Or.inr ⟨_, rfl⟩

theorem directoryText_of_not_mem {t : Text} (h : CodePoint.ofChar '/' ∉ t) :
    directoryText t = [] := by
  rw [directoryText, Text.splitLast?_eq_none_iff.2 h]

theorem baseText_of_not_mem {t : Text} (h : CodePoint.ofChar '/' ∉ t) : baseText t = t := by
  rw [baseText, Text.splitLast?_eq_none_iff.2 h]

/-- The path of a text with an ending: what stands up to the last slash is the path of a
directory, and what stands behind is the name of a file there. -/
theorem parse_append_ending (t : Text) {ending : Text} (hslash : CodePoint.ofChar '/' ∉ ending)
    (hlength : 1 < ending.length) :
    parse (t ++ ending) = (parse (directoryText t)).child (baseText t ++ ending) := by
  have hlonger : 1 < (baseText t ++ ending).length := by
    rw [List.length_append]
    omega
  have hsplit : t ++ ending = directoryText t ++ (baseText t ++ ending) := by
    rw [← List.append_assoc, directoryText_append_baseText]
  rw [hsplit]
  apply parse_append_of_not_mem (directoryText_ends t)
  · rw [List.mem_append, not_or]
    exact ⟨not_mem_baseText t, hslash⟩
  · intro hnil
    simp [hnil] at hlonger
  · intro hdot
    rw [hdot] at hlonger
    exact absurd hlonger (by decide)

/-- The same text with a single dot for a directory in front of the last name. -/
def withDot (t : Text) : Text :=
  directoryText t ++ CodePoint.ofChar '.' :: CodePoint.ofChar '/' :: baseText t

theorem withDot_eq (t : Text) : withDot t
    = (directoryText t ++ [CodePoint.ofChar '.']) ++ CodePoint.ofChar '/' :: baseText t := by
  rw [withDot, List.append_assoc, List.singleton_append]

theorem baseText_withDot (t : Text) : baseText (withDot t) = baseText t := by
  rw [withDot_eq, baseText, Text.splitLast?_append_cons (not_mem_baseText t)]

theorem directoryText_withDot (t : Text) : directoryText (withDot t)
    = directoryText t ++ [CodePoint.ofChar '.', CodePoint.ofChar '/'] := by
  rw [withDot_eq, directoryText, Text.splitLast?_append_cons (not_mem_baseText t)]
  exact List.append_assoc ..

/-- Single dots are dropped. -/
theorem parse_directoryText_withDot (t : Text) :
    parse (directoryText (withDot t)) = parse (directoryText t) := by
  rw [directoryText_withDot]
  have hhead : [CodePoint.ofChar '.', CodePoint.ofChar '/'].head?
      ≠ some (CodePoint.ofChar '/') := by decide
  have hroot := takeWhile_append_of_head (directoryText t) hhead
  have hdropped : splitSlashes [CodePoint.ofChar '.', CodePoint.ofChar '/']
      = [Text.ofString ".", []] := by decide
  rcases directoryText_ends t with hnone | ⟨before, hbefore⟩
  · rw [hnone]
    decide
  · rw [hbefore] at hroot ⊢
    have hpieces : splitSlashes (before ++ [CodePoint.ofChar '/']
        ++ [CodePoint.ofChar '.', CodePoint.ofChar '/'])
          = splitSlashes before ++ [Text.ofString ".", []] := by
      rw [List.append_assoc, List.singleton_append, splitSlashes_append_cons, hdropped]
    rw [parse, parse, hroot, hpieces, splitSlashes_append_cons]
    simp [splitSlashes]

/-! ## Joining -/

/-- The path that names nothing, and so leads nowhere else. -/
def here : Path := ⟨.relative, []⟩

theorem join_child (dir p : Path) (name : Text) :
    dir.join (p.child name) = (dir.join p).child name := by
  unfold join child
  split
  · rw [List.append_assoc]
  · rfl

/-- A path leads back to where it starts if it is empty, or if it starts at the root. -/
theorem join_eq_self_iff {dir p : Path} :
    dir.join p = dir ↔ p = here ∨ p.root ≠ .relative ∧ p = dir := by
  cases dir
  cases p
  unfold join here
  split
  · rename_i hroot
    simp only at hroot
    simp [hroot]
  · rename_i hroot
    simp only at hroot
    simp [hroot]

end Path

end ModuleDocs
