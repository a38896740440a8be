import ModuleDocs.Number.LittleEndian

/-!
# Hashes

A container guards its parts by hashes of thirty-two bytes.  Nothing else is asked
of the function that computes them.
-/

namespace ModuleDocs

/-- A function from byte strings to byte strings of length 32. -/
structure Hash where
  digest : Bytes → Bytes
  length_digest : ∀ data, (digest data).length = 32

end ModuleDocs
