import ModuleDocs.Container.Hash

/-!
# SHA-256

The message is padded to blocks of sixty-four bytes, and each block is mixed into
eight words.  `sha256` is the hash that containers on disk use; no rule of the
container format depends on which hash it is.
-/

namespace ModuleDocs.Sha256

/-- The words that the rounds add, one for each of the first sixty-four primes. -/
def roundWords : List UInt32 :=
  [
    0x428A2F98, 0x71374491, 0xB5C0FBCF, 0xE9B5DBA5, 0x3956C25B, 0x59F111F1,
    0x923F82A4, 0xAB1C5ED5, 0xD807AA98, 0x12835B01, 0x243185BE, 0x550C7DC3,
    0x72BE5D74, 0x80DEB1FE, 0x9BDC06A7, 0xC19BF174, 0xE49B69C1, 0xEFBE4786,
    0x0FC19DC6, 0x240CA1CC, 0x2DE92C6F, 0x4A7484AA, 0x5CB0A9DC, 0x76F988DA,
    0x983E5152, 0xA831C66D, 0xB00327C8, 0xBF597FC7, 0xC6E00BF3, 0xD5A79147,
    0x06CA6351, 0x14292967, 0x27B70A85, 0x2E1B2138, 0x4D2C6DFC, 0x53380D13,
    0x650A7354, 0x766A0ABB, 0x81C2C92E, 0x92722C85, 0xA2BFE8A1, 0xA81A664B,
    0xC24B8B70, 0xC76C51A3, 0xD192E819, 0xD6990624, 0xF40E3585, 0x106AA070,
    0x19A4C116, 0x1E376C08, 0x2748774C, 0x34B0BCB5, 0x391C0CB3, 0x4ED8AA4A,
    0x5B9CCA4F, 0x682E6FF3, 0x748F82EE, 0x78A5636F, 0x84C87814, 0x8CC70208,
    0x90BEFFFA, 0xA4506CEB, 0xBEF9A3F7, 0xC67178F2
  ]

/-- Eight words of chaining state. -/
structure State where
  a : UInt32
  b : UInt32
  c : UInt32
  d : UInt32
  e : UInt32
  f : UInt32
  g : UInt32
  h : UInt32

/-- The state before the first block, from the first eight primes. -/
def initial : State :=
  ⟨0x6A09E667, 0xBB67AE85, 0x3C6EF372, 0xA54FF53A,
    0x510E527F, 0x9B05688C, 0x1F83D9AB, 0x5BE0CD19⟩

def rotate (x : UInt32) (n : UInt32) : UInt32 := (x >>> n) ||| (x <<< (32 - n))

/-- Adds `n` words to the schedule, each from four before it. -/
def extend (words : Array UInt32) : Nat → Array UInt32
  | 0 => words
  | n + 1 =>
    let i := words.size
    let x := words.getD (i - 15) 0
    let y := words.getD (i - 2) 0
    let low := rotate x 7 ^^^ rotate x 18 ^^^ (x >>> 3)
    let high := rotate y 17 ^^^ rotate y 19 ^^^ (y >>> 10)
    extend (words.push (words.getD (i - 16) 0 + low + words.getD (i - 7) 0 + high)) n

/-- One round: `k` is its constant and `w` its word of the schedule. -/
def round (s : State) (k w : UInt32) : State :=
  let mixE := rotate s.e 6 ^^^ rotate s.e 11 ^^^ rotate s.e 25
  let choice := (s.e &&& s.f) ^^^ ((~~~ s.e) &&& s.g)
  let t := s.h + mixE + choice + k + w
  let mixA := rotate s.a 2 ^^^ rotate s.a 13 ^^^ rotate s.a 22
  let majority := (s.a &&& s.b) ^^^ (s.a &&& s.c) ^^^ (s.b &&& s.c)
  ⟨t + (mixA + majority), s.a, s.b, s.c, s.d + t, s.e, s.f, s.g⟩

/-- Mixes a block of sixteen words into the state. -/
def compress (s : State) (block : Array UInt32) : State :=
  let r := (roundWords.zip (extend block 48).toList).foldl (fun s (k, w) => round s k w) s
  ⟨s.a + r.a, s.b + r.b, s.c + r.c, s.d + r.d, s.e + r.e, s.f + r.f, s.g + r.g, s.h + r.h⟩

/-- Mixes bytes into the state.  `block` holds the full words of the current block and
`word` the bytes of the next one, of which there are `count`. -/
def absorb (s : State) (block : Array UInt32) (word : UInt32) (count : Nat) : Bytes → State
  | [] => s
  | x :: rest =>
    let word := (word <<< 8) ||| x.toUInt32
    if count < 3 then absorb s block word (count + 1) rest
    else
      let block := block.push word
      if block.size = 16 then absorb (compress s block) #[] 0 0 rest
      else absorb s block 0 0 rest

/-- The bytes that follow a message of `length` bytes: a one bit, zeros, and the
length in bits on eight bytes. -/
def padding (length : Nat) : Bytes :=
  0x80 :: (List.replicate ((119 - length % 64) % 64) 0 ++ (littleEndian 8 (8 * length)).reverse)

/-- A word, most significant byte first. -/
def wordBytes (w : UInt32) : Bytes := (littleEndian 4 w.toNat).reverse

/-- The thirty-two bytes of a state. -/
def State.bytes (s : State) : Bytes :=
  [s.a, s.b, s.c, s.d, s.e, s.f, s.g, s.h].flatMap wordBytes

theorem State.length_bytes (s : State) : s.bytes.length = 32 := by
  simp [State.bytes, wordBytes]

end ModuleDocs.Sha256

namespace ModuleDocs

/-- The SHA-256 hash. -/
def sha256 : Hash where
  digest data :=
    (Sha256.absorb Sha256.initial #[] 0 0 (data ++ Sha256.padding data.length)).bytes
  length_digest _ := Sha256.State.length_bytes _

end ModuleDocs
