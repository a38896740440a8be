import Mathlib
import ModuleDocs.Proofs.Container.RoundTrip

/-!
# Containers are written in one way

Chunks with valid names that fit into a container are written
(`exists_encode`), and the bytes do not depend on the order in which the
chunks were put together (`encode_eq_of_perm`): names are different, so that
they have one sorted order (`Chunks.sorted_eq_of_perm`).

`exists_decode_encode` adds that the container is read back: it has the chunks
that were written, and its table of contents lists their names in ascending
order, with their lengths and hashes.
-/

namespace ModuleDocs

namespace Chunks

/-! ## Sorted chunks -/

theorem sorted_perm (chunks : Chunks) : chunks.sorted.Perm chunks :=
  List.mergeSort_perm _ _

/-- Chunks with different names are sorted strictly. -/
theorem pairwise_sorted {chunks : Chunks} (hdistinct : (chunks.map (·.1)).Nodup) :
    chunks.sorted.Pairwise fun a b => a.1 < b.1 := by
  have hle : chunks.sorted.Pairwise fun a b => Text.le a.1 b.1 = true := by
    apply List.pairwise_mergeSort
    · intro a b c hab hbc
      simp only [Text.le, Bool.not_eq_true', decide_eq_false_iff_not, not_lt] at hab hbc ⊢
      exact hab.trans hbc
    · intro a b
      simp only [Text.le, Bool.or_eq_true, Bool.not_eq_true', decide_eq_false_iff_not, not_lt]
      exact le_total a.1 b.1
  have hne : chunks.sorted.Pairwise fun a b => a.1 ≠ b.1 := by
    rw [← List.pairwise_map (f := fun c : Text × Bytes => c.1) (R := (· ≠ ·))]
    exact ((sorted_perm chunks).map _).nodup_iff.2 hdistinct
  apply (hle.and hne).imp
  intro a b hab
  have hnot : ¬ b.1 < a.1 := by simpa [Text.le] using hab.1
  exact lt_of_le_of_ne (not_lt.1 hnot) hab.2

/-- Chunks with different names have one sorted order. -/
theorem sorted_eq_of_perm {a b : Chunks} (h : a.Perm b) (hdistinct : (b.map (·.1)).Nodup) :
    a.sorted = b.sorted := by
  have hdistinct' : (a.map (·.1)).Nodup := (h.map _).nodup_iff.2 hdistinct
  have hsorted : a.sorted.Perm b.sorted :=
    (sorted_perm a).trans (h.trans (sorted_perm b).symm)
  apply hsorted.eq_of_pairwise _ (pairwise_sorted hdistinct') (pairwise_sorted hdistinct)
  intro x y _ _ hxy hyx
  exact absurd hyx (lt_asymm hxy)

/-- The chunk of a name is the one that stands beside it. -/
theorem get?_eq_some_iff {chunks : Chunks} (hdistinct : (chunks.map (·.1)).Nodup) {name : Text}
    {data : Bytes} : get? name chunks = some data ↔ (name, data) ∈ chunks := by
  induction chunks with
  | nil => simp [get?]
  | cons chunk rest ih =>
    rw [List.map_cons, List.nodup_cons] at hdistinct
    have hrest := ih hdistinct.2
    by_cases hname : chunk.1 = name
    · have hfirst : get? name (chunk :: rest) = some chunk.2 := by simp [get?, hname]
      have hother : (name, data) ∉ rest := by
        intro hmem
        apply hdistinct.1
        rw [hname]
        exact List.mem_map_of_mem hmem
      rw [hfirst, List.mem_cons, Option.some.injEq]
      constructor
      · intro hdata
        exact Or.inl (Prod.ext hname.symm hdata.symm)
      · intro hmem
        rcases hmem with hsame | hmem
        · exact (congrArg Prod.snd hsame).symm
        · exact absurd hmem hother
    · have hfirst : get? name (chunk :: rest) = get? name rest := by simp [get?, hname]
      have hne : (name, data) ≠ chunk := by
        intro hsame
        exact hname (congrArg Prod.fst hsame).symm
      rw [hfirst, hrest, List.mem_cons]
      simp [hne]

/-- Where a chunk stands does not matter for finding it. -/
theorem get?_eq_of_perm {a b : Chunks} (h : a.Perm b) (hdistinct : (b.map (·.1)).Nodup)
    (name : Text) : get? name a = get? name b := by
  have hdistinct' : (a.map (·.1)).Nodup := (h.map _).nodup_iff.2 hdistinct
  apply Option.ext
  intro data
  rw [get?_eq_some_iff hdistinct', get?_eq_some_iff hdistinct]
  exact h.mem_iff

end Chunks

namespace Container

/-! ## Writing -/

/-- How long the container of chunks is. -/
def containerSize (chunks : Chunks) : Nat :=
  headerSize + chunks.length * regionSize + (chunks.map (·.2.length)).sum

theorem exists_validateNames (chunks : Chunks)
    (hnames : ∀ chunk ∈ chunks, ∃ raw, validateName chunk.1 = .ok raw) :
    ∃ named, validateNames chunks = .ok named := by
  induction chunks with
  | nil => exact ⟨[], rfl⟩
  | cons chunk rest ih =>
    obtain ⟨raw, hraw⟩ := hnames chunk List.mem_cons_self
    obtain ⟨named, hnamed⟩ := ih fun c hc => hnames c (List.mem_cons_of_mem _ hc)
    refine ⟨(raw, chunk.2) :: named, ?_⟩
    rw [validateNames, hraw, hnamed]
    rfl

/-- The table is written when the last chunk ends within what eight bytes count. -/
theorem exists_encodeTable (hash : Hash) {offset : Nat} {named : List (Bytes × Bytes)}
    (hsize : offset + (named.map (·.2.length)).sum < 2 ^ 64) :
    ∃ table, encodeTable hash offset named = .ok table := by
  induction named generalizing offset with
  | nil => exact ⟨[], rfl⟩
  | cons line rest ih =>
    rw [List.map_cons, List.sum_cons] at hsize
    have hfits : ¬ (0xFFFFFFFFFFFFFFFF < offset ∨ 0xFFFFFFFFFFFFFFFF < line.2.length) := by omega
    have hrest : offset + line.2.length + (rest.map (·.2.length)).sum < 2 ^ 64 := by omega
    obtain ⟨table, htable⟩ := ih hrest
    rw [encodeTable, if_neg hfits, htable]
    exact ⟨_, rfl⟩

/-- Chunks with valid names that fit into a container are written. -/
theorem exists_encode (hash : Hash) {chunks : Chunks}
    (hnames : ∀ chunk ∈ chunks, ∃ raw, validateName chunk.1 = .ok raw)
    (hcount : chunks.length < 2 ^ 32) (hsize : containerSize chunks < 2 ^ 64) :
    ∃ data, encode hash chunks = .ok data ∧ data.length = containerSize chunks := by
  have hperm := Chunks.sorted_perm chunks
  obtain ⟨named, hnamed⟩ :=
    exists_validateNames chunks.sorted fun c hc => hnames c (hperm.mem_iff.1 hc)
  have hpairs := validateNames_eq_ok hnamed
  have hlength : named.length = chunks.length := by
    rw [← hpairs.length_eq, hperm.length_eq]
  have hsum : (named.map (·.2.length)).sum = (chunks.map (·.2.length)).sum := by
    have hdata := congrArg (List.map List.length) (map_snd_of_isNamed hpairs)
    rw [List.map_map, List.map_map] at hdata
    exact (congrArg List.sum hdata).trans (hperm.map _).sum_eq
  have hend : headerSize + named.length * regionSize + (named.map (·.2.length)).sum < 2 ^ 64 := by
    rw [hlength, hsum]
    exact hsize
  obtain ⟨table, htable⟩ := exists_encodeTable hash hend
  have hcount' : ¬ 0xFFFFFFFF < named.length := by omega
  refine ⟨encodeHeader named.length (hash.digest table) ++ (table ++ named.flatMap (·.2)), ?_, ?_⟩
  · apply Result.bind_eq_ok_iff.2
    refine ⟨named, hnamed, Result.bind_eq_ok_iff.2 ⟨table, htable, ?_⟩⟩
    rw [if_neg hcount']
    rfl
  · rw [List.length_append, List.length_append, length_encodeHeader _ (hash.length_digest table),
      length_encodeTable hpairs htable, List.length_flatMap, hlength, hsum, containerSize,
      Nat.add_assoc]

/-- The order in which chunks were put together does not show in their container. -/
theorem encode_eq_of_perm (hash : Hash) {a b : Chunks} (h : a.Perm b)
    (hdistinct : (b.map (·.1)).Nodup) : encode hash a = encode hash b := by
  unfold encode
  rw [Chunks.sorted_eq_of_perm h hdistinct]

/-! ## Reading back -/

/-- Each line of the table tells the name, the length and the hash of its chunk. -/
theorem map_line_regionsFrom (hash : Hash) (offset : Nat) (chunks : Chunks) :
    (regionsFrom hash offset chunks).map (fun r => (r.name, r.length, r.digest))
      = chunks.map fun c => (c.1, c.2.length, hash.digest c.2) := by
  induction chunks generalizing offset with
  | nil => rfl
  | cons chunk rest ih => rw [regionsFrom, List.map_cons, List.map_cons, ih]

/-- Chunks with valid and different names that fit into a container are written, to the same
bytes in whatever order they were put together, and read back: each name has its chunk, and
the table lists the names in ascending order, with the lengths and the hashes of the
chunks. -/
theorem exists_decode_encode (hash : Hash) {chunks : Chunks}
    (hnames : ∀ chunk ∈ chunks, ∃ raw, validateName chunk.1 = .ok raw)
    (hdistinct : (chunks.map (·.1)).Nodup) (hcount : chunks.length < 2 ^ 32)
    (hsize : containerSize chunks < 2 ^ 64) :
    ∃ data c, encode hash chunks = .ok data ∧ data.length = containerSize chunks ∧
      (∀ others : Chunks, others.Perm chunks → encode hash others = .ok data) ∧
      decode hash data = .ok c ∧ c.chunks.Perm chunks ∧
      (∀ name, Chunks.get? name c.chunks = Chunks.get? name chunks) ∧
      (c.table.map (·.name)).Pairwise (· < ·) ∧
      c.table.map (fun r => (r.name, r.length, r.digest))
        = c.chunks.map fun chunk => (chunk.1, chunk.2.length, hash.digest chunk.2) := by
  obtain ⟨data, hdata, hlength⟩ := exists_encode hash hnames hcount hsize
  obtain ⟨c, hdecode, hchunks, htable⟩ := exists_decode_of_encode hdistinct hdata
  have hperm : c.chunks.Perm chunks := hchunks ▸ Chunks.sorted_perm chunks
  refine ⟨data, c, hdata, hlength, ?_, hdecode, hperm, ?_, ?_, ?_⟩
  · intro others hothers
    rw [encode_eq_of_perm hash hothers hdistinct]
    exact hdata
  · intro name
    exact Chunks.get?_eq_of_perm hperm hdistinct name
  · rw [htable, map_name_regionsFrom, List.pairwise_map]
    exact Chunks.pairwise_sorted hdistinct
  · rw [htable, hchunks]
    exact map_line_regionsFrom hash _ _

/-- A hash that tells lengths apart, as far as a byte can. -/
def sampleHash : Hash where
  digest := fun data => List.replicate 32 (UInt8.ofNat data.length)
  length_digest := fun _ => List.length_replicate

/-- Two chunks of which one is empty, the later name first. -/
def sampleChunks : Chunks := [("Docs", [0x64, 0x6F]), ("Attr", [])]

theorem exists_decode_encode_sampleChunks :
    (∀ chunk ∈ sampleChunks, ∃ raw, validateName chunk.1 = .ok raw) ∧
      (sampleChunks.map (·.1)).Nodup ∧ sampleChunks.length < 2 ^ 32 ∧
      containerSize sampleChunks < 2 ^ 64 ∧
    ∃ data c, encode sampleHash sampleChunks = .ok data ∧
      data.length = containerSize sampleChunks ∧
      (∀ others : Chunks, others.Perm sampleChunks → encode sampleHash others = .ok data) ∧
      decode sampleHash data = .ok c ∧ c.chunks.Perm sampleChunks ∧
      (∀ name, Chunks.get? name c.chunks = Chunks.get? name sampleChunks) ∧
      (c.table.map (·.name)).Pairwise (· < ·) ∧
      c.table.map (fun r => (r.name, r.length, r.digest))
        = c.chunks.map fun chunk => (chunk.1, chunk.2.length, sampleHash.digest chunk.2) := by
  have hnames : ∀ chunk ∈ sampleChunks, ∃ raw, validateName chunk.1 = .ok raw := by
    intro chunk hchunk
    rcases List.mem_pair.1 hchunk with rfl | rfl
    · exact ⟨_, rfl⟩
    · exact ⟨_, rfl⟩
  have hdistinct : (sampleChunks.map (·.1)).Nodup := by decide
  have hcount : sampleChunks.length < 2 ^ 32 := by decide
  have hsize : containerSize sampleChunks < 2 ^ 64 := by decide
  exact ⟨hnames, hdistinct, hcount, hsize,
    exists_decode_encode sampleHash hnames hdistinct hcount hsize⟩

end Container

end ModuleDocs
