import Mathlib
import ModuleDocs.Proofs.Container.Regions

/-!
# The hash in the header vouches for the chunks

The header holds the hash of the table of contents, and the table holds the hash of each
region.  Nothing else of a file decides which chunks it has: two files that are accepted and
have the same hash in the header hold the same chunks, or they show two byte strings with
the same hash (`eq_or_collides_of_decode`).
-/

namespace ModuleDocs.Container

variable {hash : Hash} {a b : Bytes} {c d : Container}

/-- Two byte strings with one hash. -/
structure IsCollision (hash : Hash) (x y : Bytes) : Prop where
  ne : x ≠ y
  digest : hash.digest x = hash.digest y

/-- A collision that two files show: their tables of contents, or what they have under one
chunk name. -/
inductive Collides (hash : Hash) (a b : Bytes) (c d : Container) : Prop
  | tables (h : IsCollision hash (tableBytes a) (tableBytes b))
  | chunks {name : Text} {x y : Bytes} (hx : Chunks.get? name c.chunks = some x)
    (hy : Chunks.get? name d.chunks = some y) (h : IsCollision hash x y)

/-- The table of contents determines the regions. -/
theorem table_eq_of_tableBytes_eq (hc : IsDecoded hash a c) (hd : IsDecoded hash b d)
    (hsame : tableBytes a = tableBytes b) : c.table = d.table := by
  have hlengths := congrArg List.length hsame
  rw [hc.length_tableBytes, hd.length_tableBytes] at hlengths
  have hcount : tableCount a = tableCount b := Nat.eq_of_mul_eq_mul_right (by decide) hlengths
  have htable := hc.table
  rw [hsame, hcount, hd.table] at htable
  exact (Except.ok.inj htable).symm

/-- The regions and their bytes determine the chunks. -/
theorem eq_of_table_eq (hc : IsDecoded hash a c) (hd : IsDecoded hash b d)
    (htable : c.table = d.table) (hbytes : ∀ r ∈ c.table, regionBytes a r = regionBytes b r) :
    c = d := by
  have hchunks : c.chunks = d.chunks := by
    rw [hc.chunks, hd.chunks, ← htable]
    apply List.map_congr_left
    intro r hr
    rw [hbytes r hr]
  cases c
  cases d
  exact Container.mk.injEq .. ▸ ⟨hchunks, htable⟩

/-- Two accepted files with the same hash in the header give the same container, whatever
else they hold and wherever they hold it, unless they show a collision of the hash. -/
theorem eq_or_collides_of_decode (ha : decode hash a = .ok c) (hb : decode hash b = .ok d)
    (hsame : tableDigest a = tableDigest b) : c = d ∨ Collides hash a b c d := by
  have hc := isDecoded_of_decode ha
  have hd := isDecoded_of_decode hb
  by_cases htables : tableBytes a = tableBytes b
  · have htable := table_eq_of_tableBytes_eq hc hd htables
    by_cases hbytes : ∀ r ∈ c.table, regionBytes a r = regionBytes b r
    · exact Or.inl (eq_of_table_eq hc hd htable hbytes)
    · -- Some region has other bytes, and both have the hash that the one table gives.
      push Not at hbytes
      obtain ⟨r, hr, hne⟩ := hbytes
      have hr' : r ∈ d.table := htable ▸ hr
      refine Or.inr (.chunks (hc.get?_chunks r hr) (hd.get?_chunks r hr') ⟨hne, ?_⟩)
      rw [(hc.isIntact r hr).digest, (hd.isIntact r hr').digest]
  · refine Or.inr (.tables ⟨htables, ?_⟩)
    rw [hc.hashed, hd.hashed, hsame]

theorem tableDigest_fileWith {regions : List Region} (hcount : regions.length < 256 ^ 4)
    (body : Bytes) : tableDigest (fileWith regions body)
      = sampleHash.digest (regions.flatMap regionLine) := by
  have hdigest := sampleHash.length_digest (regions.flatMap regionLine)
  exact (header_fields regions.length hcount hdigest _).2.2.2.2.2.2

/-- The loose file with one chunk exchanged for another of the same length, which the sample
hash does not tell apart, and with other bytes where there is no chunk. -/
def exchangedFile : Bytes := fileWith looseRegions [0, 0x61, 0, 0x78, 0x79]

theorem eq_or_collides_looseFile :
    ∃ c d, decode sampleHash looseFile = .ok c ∧ decode sampleHash exchangedFile = .ok d ∧
      tableDigest looseFile = tableDigest exchangedFile ∧
      (c = d ∨ Collides sampleHash looseFile exchangedFile c d) ∧ c ≠ d := by
  have hexchanged : decode sampleHash exchangedFile
      = .ok ⟨[("Docs", [0x78, 0x79]), ("Attr", [0x61])], looseRegions⟩ := by cbv
  have hsame : tableDigest looseFile = tableDigest exchangedFile :=
    (tableDigest_fileWith (by decide) _).trans (tableDigest_fileWith (by decide) _).symm
  have hne : ([0x64, 0x6F] : Bytes) ≠ [0x78, 0x79] := by decide
  refine ⟨_, _, decode_looseFile, hexchanged, hsame,
    eq_or_collides_of_decode decode_looseFile hexchanged hsame, ?_⟩
  simp [hne]

end ModuleDocs.Container
