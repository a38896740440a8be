import ModuleDocs.File.System

/-!
# Spellings

Several texts can give one file name, as a code point past ASCII may also be written
byte by byte.  So what is at a location has several paths, but only so many:
`FileName.mem_spellings` says which texts give a name, and `FileSystem.mem_paths` that
`FileSystem.paths` leaves out no path without double dots of anything that is there.
-/

namespace ModuleDocs

/-! ## Names -/

namespace FileName

/-- The texts of a length. -/
def textsOfLength : Nat → List Text
  | 0 => [[]]
  | n + 1 => (List.finRange 0x110000).flatMap fun c => (textsOfLength n).map (c :: ·)

theorem mem_textsOfLength (t : Text) : t ∈ textsOfLength t.length := by
  induction t with
  | nil => exact List.mem_singleton.2 rfl
  | cons c t ih =>
    exact List.mem_flatMap.2 ⟨c, List.mem_finRange c, List.mem_map.2 ⟨t, ih, rfl⟩⟩

/-- The texts that give a name. -/
def spellings (name : FileName) : List Text :=
  ((List.range (name.length + 1)).flatMap textsOfLength).filter fun t => encode t = name

/-- A code point has a byte at least. -/
theorem one_le_length_encodePoint (c : CodePoint) : 1 ≤ (encodePoint c).length := by
  unfold encodePoint Utf8.encodePoint
  split
  · simp
  · dsimp only
    split
    · simp
    · split
      · simp
      · split <;> simp

/-- A name is no shorter than a text that gives it. -/
theorem length_le_length_encode (t : Text) : t.length ≤ (encode t).length := by
  induction t with
  | nil => exact Nat.zero_le _
  | cons c t ih =>
    have first := one_le_length_encodePoint c
    have split : encode (c :: t) = encodePoint c ++ encode t := rfl
    rw [split, List.length_append, List.length_cons]
    omega

theorem mem_spellings {t : Text} {name : FileName} : t ∈ spellings name ↔ encode t = name := by
  simp only [spellings, List.mem_filter, List.mem_flatMap, List.mem_range, decide_eq_true_eq]
  refine ⟨And.right, fun gives => ⟨⟨t.length, ?_, mem_textsOfLength t⟩, gives⟩⟩
  have := length_le_length_encode t
  rw [gives] at this
  omega

end FileName

/-! ## Paths -/

/-- The location that the names of a path spell, seen from the root.  It is the one that
the path names if it starts there and has no double dots. -/
def Path.location (p : Path) : Location := p.names.map FileName.encode

/-- The ways to spell a location. -/
def Location.spellings : Location → List (List Text)
  | [] => [[]]
  | name :: rest =>
    (FileName.spellings name).flatMap fun t => (Location.spellings rest).map (t :: ·)

theorem Location.mem_spellings {names : List Text} {at_ : Location} :
    names ∈ Location.spellings at_ ↔ names.map FileName.encode = at_ := by
  induction at_ generalizing names with
  | nil => simp [Location.spellings]
  | cons name rest ih =>
    cases names with
    | nil => simp [Location.spellings]
    | cons t names => simp [Location.spellings, FileName.mem_spellings, ih]

namespace FileSystem

/-- The paths whose names spell the location of something that is there. -/
def paths (fs : FileSystem) : List Path :=
  fs.locations.flatMap fun at_ => (Location.spellings at_).flatMap fun names =>
    [⟨.relative, names⟩, ⟨.single, names⟩, ⟨.double, names⟩]

/-- Whatever is there has all its paths in the list. -/
theorem mem_paths {fs : FileSystem} {p : Path} (exists_ : (fs.get? p.location).isSome = true) :
    p ∈ fs.paths := by
  refine List.mem_flatMap.2 ⟨_, mem_locations_of_get? exists_,
    List.mem_flatMap.2 ⟨p.names, Location.mem_spellings.2 rfl, ?_⟩⟩
  obtain ⟨root, names⟩ := p
  cases root <;> simp

end FileSystem

end ModuleDocs
