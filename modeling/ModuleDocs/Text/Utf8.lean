import ModuleDocs.Text.Basic

/-!
# UTF-8

`Utf8.encode` writes a text without surrogates as bytes, and refuses one with
surrogates by naming the first run of them.

`Utf8.pieces` reads bytes with a four-register automaton.  Every byte belongs
to one piece: a code point, or the longest start of a sequence that no byte
after it can continue.  `Utf8.decode` stops at the first piece of the second
kind and `Utf8.decodeLossy` puts U+FFFD in place of each.
-/

namespace ModuleDocs.Utf8

/-! ## Writing -/

/-- The bytes of one code point.  A surrogate is written like its neighbours. -/
def encodePoint (c : CodePoint) : Bytes :=
  let n := c.val
  if n < 0x80 then [.ofNat n]
  else if n < 0x800 then [.ofNat (0xC0 + n / 0x40), .ofNat (0x80 + n % 0x40)]
  else if n < 0x10000 then
    [.ofNat (0xE0 + n / 0x1000), .ofNat (0x80 + n / 0x40 % 0x40), .ofNat (0x80 + n % 0x40)]
  else
    [.ofNat (0xF0 + n / 0x40000), .ofNat (0x80 + n / 0x1000 % 0x40),
      .ofNat (0x80 + n / 0x40 % 0x40), .ofNat (0x80 + n % 0x40)]

/-- A run of code points that cannot be written: positions `start` up to `stop`. -/
structure Unencodable where
  first : CodePoint
  start : Nat
  stop : Nat
deriving DecidableEq, Repr

/-- The first maximal run of surrogates. -/
def firstSurrogates? (t : Text) : Option Unencodable :=
  let plain := t.takeWhile (! ·.isSurrogate)
  match t.dropWhile (! ·.isSurrogate) with
  | [] => none
  | c :: rest =>
    let run := rest.takeWhile (·.isSurrogate)
    some ⟨c, plain.length, plain.length + 1 + run.length⟩

/-- A text can be written when it holds no surrogate. -/
def isEncodable (t : Text) : Bool := t.all (! ·.isSurrogate)

/-- The bytes of a text whether or not it holds surrogates. -/
def encodeAll (t : Text) : Bytes := t.flatMap encodePoint

/-- The bytes of a text, or its first run of surrogates. -/
def encode (t : Text) : Except Unencodable Bytes :=
  match firstSurrogates? t with
  | none => .ok (encodeAll t)
  | some run => .error run

/-- Why a text cannot be written. -/
def Unencodable.reason : Text := "surrogates not allowed"

def Unencodable.message (u : Unencodable) : Text :=
  let subject : Text :=
    if u.stop = u.start + 1 then
      ("character '\\u" : Text) ++ Text.hexPadded 4 u.first.val ++ ("' in position " : Text)
        ++ Text.ofNat u.start
    else
      ("characters in position " : Text) ++ Text.ofNat u.start ++ ("-" : Text)
        ++ Text.ofNat (u.stop - 1)
  ("'utf-8' codec can't encode " : Text) ++ subject ++ (": " : Text) ++ reason

/-! ## Reading -/

/-- What is wrong with a byte sequence. -/
inductive Fault where
  | invalidStart
  | invalidContinuation
  | unexpectedEnd
deriving DecidableEq, Repr

/-- An unfinished sequence: its first byte is at `start`, `value` holds the bits
read so far, `left` bytes are due, and the next one lies from `low` to `high`. -/
structure Pending where
  start : Nat
  value : Nat
  left : Nat
  low : Nat
  high : Nat
deriving DecidableEq, Repr

/-- A part of a byte string: a code point, or bytes `start` up to `stop` that are
no code point. -/
inductive Piece where
  | point (c : CodePoint)
  | bad (start stop : Nat) (fault : Fault)
deriving DecidableEq, Repr

/-- What the first byte of a sequence says about it. -/
def lead (pos : Nat) (b : UInt8) : Piece ⊕ Pending :=
  let n := b.toNat
  if n < 0x80 then .inl (.point (.ofNat n))
  else if n < 0xC2 then .inl (.bad pos (pos + 1) .invalidStart)
  else if n < 0xE0 then .inr ⟨pos, n - 0xC0, 1, 0x80, 0xBF⟩
  else if n < 0xF0 then
    .inr ⟨pos, n - 0xE0, 2, if n = 0xE0 then 0xA0 else 0x80, if n = 0xED then 0x9F else 0xBF⟩
  else if n < 0xF5 then
    .inr ⟨pos, n - 0xF0, 3, if n = 0xF0 then 0x90 else 0x80, if n = 0xF4 then 0x8F else 0xBF⟩
  else .inl (.bad pos (pos + 1) .invalidStart)

/-- Reads on from position `pos`.  `done` holds the finished pieces, last first. -/
def piecesFrom (pos : Nat) (state : Option Pending) (done : List Piece) : Bytes → List Piece
  | [] =>
    match state with
    | none => done.reverse
    | some p => (Piece.bad p.start pos .unexpectedEnd :: done).reverse
  | b :: rest =>
    match state with
    | some p =>
      if p.low ≤ b.toNat && b.toNat ≤ p.high then
        let value := p.value * 0x40 + (b.toNat - 0x80)
        if p.left ≤ 1 then piecesFrom (pos + 1) none (.point (.ofNat value) :: done) rest
        else piecesFrom (pos + 1) (some ⟨p.start, value, p.left - 1, 0x80, 0xBF⟩) done rest
      else
        let done := Piece.bad p.start pos .invalidContinuation :: done
        match lead pos b with
        | .inl piece => piecesFrom (pos + 1) none (piece :: done) rest
        | .inr next => piecesFrom (pos + 1) (some next) done rest
    | none =>
      match lead pos b with
      | .inl piece => piecesFrom (pos + 1) none (piece :: done) rest
      | .inr next => piecesFrom (pos + 1) (some next) done rest

/-- The pieces of a byte string in order. -/
def pieces (data : Bytes) : List Piece := piecesFrom 0 none [] data

/-- A byte string that is not UTF-8: bytes `start` up to `stop` are no code point. -/
structure Malformed where
  firstByte : UInt8
  start : Nat
  stop : Nat
  fault : Fault
deriving DecidableEq, Repr

/-- The code points of pieces that are all code points, or the first other piece.
`done` holds the code points read so far, last first. -/
def collect (data : Bytes) (done : Text) : List Piece → Except Malformed Text
  | [] => .ok done.reverse
  | .point c :: rest => collect data (c :: done) rest
  | .bad start stop fault :: _ => .error ⟨data.getD start 0, start, stop, fault⟩

/-- The text a byte string writes, or its first sequence that is no code point. -/
def decode (data : Bytes) : Except Malformed Text := collect data [] (pieces data)

/-- The code point that stands for bytes that cannot be read. -/
def replacement : CodePoint := .ofNat 0xFFFD

/-- The text of a byte string with U+FFFD for each sequence that is no code point. -/
def decodeLossy (data : Bytes) : Text :=
  (pieces data).map fun
    | .point c => c
    | .bad .. => replacement

def Fault.reason : Fault → Text
  | .invalidStart => "invalid start byte"
  | .invalidContinuation => "invalid continuation byte"
  | .unexpectedEnd => "unexpected end of data"

def Malformed.message (m : Malformed) : Text :=
  let subject : Text :=
    if m.stop = m.start + 1 then
      ("byte 0x" : Text) ++ Text.hexPadded 2 m.firstByte.toNat ++ (" in position " : Text)
        ++ Text.ofNat m.start
    else
      ("bytes in position " : Text) ++ Text.ofNat m.start ++ ("-" : Text)
        ++ Text.ofNat (m.stop - 1)
  ("'utf-8' codec can't decode " : Text) ++ subject ++ (": " : Text) ++ m.fault.reason

/-! ## One byte for each character -/

/-- Each byte stands for the code point with its number. -/
def ofLatin1 (data : Bytes) : Text := data.map fun b => .ofNat b.toNat

/-- The bytes of a text whose code points are all below 256. -/
def toLatin1? (t : Text) : Option Bytes :=
  if t.all fun c => c.val < 256 then some (t.map fun c => .ofNat c.val) else none

end ModuleDocs.Utf8
