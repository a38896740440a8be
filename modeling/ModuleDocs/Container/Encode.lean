import ModuleDocs.Container.Basic

/-!
# Containers as bytes: writing

The header holds the magic, version, flags, its own size, the number of chunks,
the size of a line of the table, the hash of the table, and reserved zeros.  The
table and the chunks follow, both in the order of the names.
-/

namespace ModuleDocs.Container

/-- A line of the table of contents. -/
def encodeRegion (name : Bytes) (r : Region) : Bytes :=
  name ++ (List.replicate (nameWidth - name.length) 0 ++ (littleEndian 8 r.offset
    ++ (littleEndian 8 r.length ++ r.digest)))

/-- Chunk names with the bytes they are written with. -/
def validateNames : Chunks → Except ContainerError (List (Bytes × Bytes))
  | [] => .ok []
  | (name, data) :: rest => do
    let raw ← validateName name
    return (raw, data) :: (← validateNames rest)

/-- The table of contents of chunks that stand one after the other from `offset`. -/
def encodeTable (hash : Hash) (offset : Nat) : List (Bytes × Bytes) → Except ContainerError Bytes
  | [] => .ok []
  | (name, data) :: rest =>
    if 0xFFFFFFFFFFFFFFFF < offset ∨ 0xFFFFFFFFFFFFFFFF < data.length then .error .tooLarge
    else do
      let line := encodeRegion name ⟨[], offset, data.length, hash.digest data⟩
      return line ++ (← encodeTable hash (offset + data.length) rest)

/-- The header of a container with `count` chunks. -/
def encodeHeader (count : Nat) (tableDigest : Bytes) : Bytes :=
  magic ++ (littleEndian 2 currentVersion ++ (littleEndian 2 0 ++ (littleEndian 4 headerSize
    ++ (littleEndian 4 count ++ (littleEndian 4 regionSize ++ (tableDigest
      ++ List.replicate 32 0))))))

/-- The bytes of a container. -/
def encode (hash : Hash) (chunks : Chunks) : Except ContainerError Bytes := do
  let named ← validateNames chunks.sorted
  let table ← encodeTable hash (headerSize + named.length * regionSize) named
  if 0xFFFFFFFF < named.length then .error .tooManyChunks
  else
    return encodeHeader named.length (hash.digest table) ++ (table ++ named.flatMap (·.2))

end ModuleDocs.Container
