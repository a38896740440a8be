import ModuleDocs.Container.Encode

/-!
# Containers as bytes: reading

A container is accepted when its table of contents has the hash that the header
gives, the names in it are valid and different, and the regions lie one behind
the other after the table, each with its hash.  Regions need not be in the order
of the table, and bytes may lie between and behind them.
-/

namespace ModuleDocs.Container

/-- Bytes `start` up to `start + length`. -/
def slice (data : Bytes) (start length : Nat) : Bytes := (data.drop start).take length

/-- The number on `width` bytes from `start`. -/
def field (data : Bytes) (start width : Nat) : Nat := ofLittleEndian (slice data start width)

/-- The name in the field of a table line: what stands before the zeros at its end. -/
def decodeName? (raw : Bytes) : Option Text :=
  let name := (raw.reverse.dropWhile (· = 0)).reverse
  if name.any fun b => 0x80 ≤ b.toNat then none
  else
    let t : Text := name.map fun b => .ofNat b.toNat
    match validateName t with
    | .ok _ => some t
    | .error _ => none

/-- Reads `n` lines of a table of contents behind the regions `done`, last first. -/
def decodeTable (done : List Region) (table : Bytes) : Nat → Except ContainerError (List Region)
  | 0 => .ok done.reverse
  | n + 1 =>
    match decodeName? (table.take nameWidth) with
    | none => .error (.badTableName done.length)
    | some name =>
      if done.any fun r => r.name = name then .error (.duplicateName name)
      else
        let r : Region :=
          ⟨name, field table 16 8, field table 24 8, slice table 32 32⟩
        decodeTable (r :: done) (table.drop regionSize) n

/-- Checks regions in the order of their offsets; none may start before `limit`. -/
def checkRegions (hash : Hash) (data : Bytes) (limit : Nat) :
    List Region → Except ContainerError Unit
  | [] => .ok ()
  | r :: rest =>
    if r.offset < limit then .error .regionsOverlap
    else if data.length < r.offset + r.length then .error (.regionTooLong r.name)
    else if hash.digest (slice data r.offset r.length) ≠ r.digest then
      .error (.chunkHashMismatch r.name)
    else checkRegions hash data (r.offset + r.length) rest

/-- The container that bytes write. -/
def decode (hash : Hash) (data : Bytes) : Except ContainerError Container :=
  if data.length < headerSize then .error .shortHeader
  else if data.take 8 ≠ magic then .error .badMagic
  else if field data 8 2 ≠ currentVersion then .error (.unsupportedVersion (field data 8 2))
  else if field data 10 2 ≠ 0 then .error .unsupportedFlags
  else if field data 12 4 ≠ headerSize then .error .unsupportedHeaderSize
  else if field data 20 4 ≠ regionSize then .error .unsupportedEntrySize
  else
    let count := field data 16 4
    let tableEnd := headerSize + count * regionSize
    if data.length < tableEnd then .error .tableTooLong
    else
      let table := slice data headerSize (count * regionSize)
      if hash.digest table ≠ slice data 24 32 then .error .tableHashMismatch
      else do
        let regions ← decodeTable [] table count
        checkRegions hash data tableEnd (regions.mergeSort fun a b => a.offset ≤ b.offset)
        return ⟨regions.map fun r => (r.name, slice data r.offset r.length), regions⟩

end ModuleDocs.Container
