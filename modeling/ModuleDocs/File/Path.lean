import ModuleDocs.Text.Utf8

/-!
# Paths

A path is a root, which may be missing, and the names between slashes.  Empty
names and single dots are dropped when a path is read; double dots are kept, since
what stands before them need not be a directory.

On disk a name is a byte string.  A text names it in UTF-8, where the surrogates
U+DC80 to U+DCFF stand for single bytes that are not UTF-8.
-/

namespace ModuleDocs

/-- The name of a file or directory inside another. -/
abbrev FileName := Bytes

namespace FileName

/-- The surrogates that stand for bytes. -/
def isByteEscape (c : CodePoint) : Bool := 0xDC80 ≤ c.val && c.val ≤ 0xDCFF

/-- The bytes of a code point in a name. -/
def encodePoint (c : CodePoint) : Bytes :=
  if isByteEscape c then [.ofNat (c.val - 0xDC00)] else Utf8.encodePoint c

/-- The name a text gives. -/
def encode (t : Text) : FileName := t.flatMap encodePoint

/-- The first surrogate that stands for no byte, with the surrogates after it. -/
def firstUnencodable? (t : Text) : Option Utf8.Unencodable :=
  let isBad (c : CodePoint) : Bool := c.isSurrogate && ! isByteEscape c
  let before := t.takeWhile (! isBad ·)
  match t.dropWhile (! isBad ·) with
  | [] => none
  | c :: rest =>
    some ⟨c, before.length, before.length + 1 + (rest.takeWhile (·.isSurrogate)).length⟩

/-- The text that gives a name. -/
def decode (name : FileName) : Text :=
  (Utf8.pieces name).flatMap fun
    | .point c => [c]
    | .bad start stop _ => ((name.drop start).take (stop - start)).map fun b => .ofNat (0xDC00 + b.toNat)

end FileName

/-- Where the names of a path start: at the working directory, or at the root.  The
root is written with one slash or two. -/
inductive Root where
  | relative
  | single
  | double
deriving DecidableEq, Repr

structure Path where
  root : Root
  names : List Text
deriving DecidableEq, Repr

namespace Path

/-- The pieces of a text between slashes. -/
def splitSlashes : Text → List Text
  | [] => [[]]
  | c :: rest =>
    if c = '/' then [] :: splitSlashes rest
    else
      match splitSlashes rest with
      | [] => [[c]]
      | piece :: pieces => (c :: piece) :: pieces

/-- The path that a text writes.  Three or more slashes in front count as one. -/
def parse (t : Text) : Path :=
  let slashes := (t.takeWhile fun c : CodePoint => c = '/').length
  let root : Root := if slashes = 0 then .relative else if slashes = 2 then .double else .single
  ⟨root, (splitSlashes t).filter fun piece => ! piece.isEmpty && piece ≠ Text.ofString "."⟩

def Root.text : Root → Text
  | .relative => []
  | .single => "/"
  | .double => "//"

/-- The text that writes a path; the empty path is a dot. -/
def toText (p : Path) : Text :=
  let t := Root.text p.root ++ Text.join "/" p.names
  if t.isEmpty then "." else t

/-- The last name, which is empty where there is none. -/
def name (p : Path) : Text := p.names.getLastD []

/-- The path without its last name. -/
def parent (p : Path) : Path := { p with names := p.names.dropLast }

/-- The path that `other` names from inside `p`. -/
def join (p other : Path) : Path :=
  if other.root = .relative then { p with names := p.names ++ other.names } else other

/-- The path with a name put in place of the last one, if it has one. -/
def withName? (p : Path) (name : Text) : Option Path :=
  if p.names.isEmpty then none else some { p with names := p.names.dropLast ++ [name] }

/-- Names with each double dot and the name before it dropped; `done` holds the names
before them, last first. -/
def cancelDots (done : List Text) : List Text → List Text
  | [] => done.reverse
  | name :: rest =>
    if name = Text.ofString ".." then cancelDots done.tail rest else cancelDots (name :: done) rest

/-- The path from the root without double dots. -/
def resolve (p workingDirectory : Path) : Path :=
  ⟨.single, cancelDots [] (workingDirectory.join p).names⟩

end Path

end ModuleDocs
