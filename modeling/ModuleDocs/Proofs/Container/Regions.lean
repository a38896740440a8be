import Mathlib
import ModuleDocs.Proofs.Container.Canonical

/-!
# What an accepted container is like

The reader compares a region only with the one before it in the order of offsets.  That is
enough for all of them: `checkRegions_eq_ok_iff` says that the check is passed just when
each region ends before any later one starts.  As being apart is symmetric, the order of
the table does not matter (`isConsistent_of_decode`).

`decodeTable_eq_ok` says that the lines of a table of contents which is accepted are those
that the writer writes for the regions read from it, so that a table is read in one way and
written in one way.
-/

namespace ModuleDocs.Container

variable {hash : Hash} {data : Bytes} {c : Container}

/-! ## Parts of a file -/

/-- The number of lines that the header gives the table of contents. -/
def tableCount (data : Bytes) : Nat := field data 16 4

/-- Where the table of contents ends. -/
def tableEnd (data : Bytes) : Nat := headerSize + tableCount data * regionSize

/-- The bytes of the table of contents. -/
def tableBytes (data : Bytes) : Bytes := slice data headerSize (tableCount data * regionSize)

/-- The hash of the table of contents that the header gives. -/
def tableDigest (data : Bytes) : Bytes := slice data 24 32

/-- The bytes of a region. -/
def regionBytes (data : Bytes) (r : Region) : Bytes := slice data r.offset r.length

/-- The line of a region, as the writer writes it. -/
def regionLine (r : Region) : Bytes := encodeRegion (r.name.map fun c => UInt8.ofNat c.val) r

theorem length_slice {start length : Nat} (h : start + length ≤ data.length) :
    (slice data start length).length = length := by
  rw [slice, List.length_take, List.length_drop]
  omega

/-- A slice continues where the one before it ends. -/
theorem slice_add (data : Bytes) (start m n : Nat) :
    slice data start (m + n) = slice data start m ++ slice data (start + m) n := by
  rw [slice, List.take_add, List.drop_drop]
  rfl

/-! ## Names -/

theorem ofNat_val_ofNat_toNat (b : UInt8) : UInt8.ofNat (CodePoint.ofNat b.toNat).val = b := by
  have hb := b.toNat_lt
  rw [CodePoint.val_ofNat_of_lt (by omega), UInt8.ofNat_toNat]

/-- A name that was read is valid, and its field is filled as the writer fills it. -/
theorem decodeName?_eq_some {raw : Bytes} (hraw : raw.length = nameWidth) {name : Text}
    (h : decodeName? raw = some name) :
    ∃ bytes, validateName name = .ok bytes ∧
      raw = bytes ++ List.replicate (nameWidth - bytes.length) 0 := by
  unfold decodeName? at h
  set front := (raw.reverse.dropWhile (· = 0)).reverse with hfront
  dsimp only at h
  split at h
  · cases h
  split at h
  · rename_i bytes hvalid
    cases h
    refine ⟨bytes, hvalid, ?_⟩
    have hbytes : bytes = front := by
      rw [(validateName_eq_ok hvalid).1, List.map_map]
      exact (List.map_congr_left fun b _ => ofNat_val_ofNat_toNat b).trans (List.map_id front)
    -- What was dropped from the end are zeros only.
    set zeros := raw.reverse.takeWhile (· = 0) with hzeros
    have hsplit : raw = front ++ zeros.reverse := by
      rw [hfront, hzeros, ← List.reverse_append, List.takeWhile_append_dropWhile,
        List.reverse_reverse]
    have hall : ∀ b ∈ zeros.reverse, b = 0 := by
      intro b hb
      have := List.mem_takeWhile_imp (List.mem_reverse.1 hb)
      exact of_decide_eq_true this
    have hlength : zeros.reverse.length = nameWidth - front.length := by
      have := congrArg List.length hsplit
      rw [List.length_append, hraw] at this
      omega
    rw [hbytes, ← hlength, ← List.eq_replicate_of_mem hall]
    exact hsplit
  · cases h

/-! ## Lines -/

/-- The region that a line of the table gives, under the name in it. -/
def readRegion (name : Text) (table : Bytes) : Region :=
  ⟨name, field table 16 8, field table 24 8, slice table 32 32⟩

theorem littleEndian_field {start width : Nat} (h : start + width ≤ data.length) :
    littleEndian width (field data start width) = slice data start width := by
  have hback := littleEndian_ofLittleEndian (slice data start width)
  rwa [length_slice h] at hback

/-- A line is the one that the writer writes for the region read from it. -/
theorem take_eq_regionLine {table : Bytes} (hlength : regionSize ≤ table.length) {name : Text}
    (h : decodeName? (table.take nameWidth) = some name) :
    table.take regionSize = regionLine (readRegion name table) := by
  have hfits : 64 ≤ table.length := hlength
  have hname : (table.take nameWidth).length = nameWidth := by
    simp only [nameWidth, List.length_take]
    omega
  obtain ⟨bytes, hvalid, hfield⟩ := decodeName?_eq_some hname h
  have hbytes : bytes = name.map (fun c => UInt8.ofNat c.val) := (validateName_eq_ok hvalid).1
  calc table.take regionSize
      = slice table 0 16 ++ (slice table 16 8 ++ (slice table 24 8 ++ slice table 32 32)) := by
        rw [← slice_add, ← slice_add, ← slice_add]
        rfl
    _ = table.take nameWidth ++ (littleEndian 8 (field table 16 8)
          ++ (littleEndian 8 (field table 24 8) ++ slice table 32 32)) := by
        rw [littleEndian_field (by omega), littleEndian_field (by omega)]
        rfl
    _ = regionLine (readRegion name table) := by
        rw [regionLine, encodeRegion, hfield, hbytes, List.append_assoc]
        rfl

/-! ## Tables -/

/-- What lines that were read give: valid names, different from each other and from those
read before, and the regions whose lines they are. -/
structure IsTable (done : List Region) (table : Bytes) (n : Nat) (regions : List Region) :
    Prop where
  length : regions.length = n
  lines : table.take (n * regionSize) = regions.flatMap regionLine
  valid : ∀ r ∈ regions, ∃ bytes, validateName r.name = .ok bytes
  distinct : (regions.map (·.name)).Nodup
  isNew : ∀ r ∈ done, r.name ∉ regions.map (·.name)

theorem decodeTable_eq_ok {done : List Region} {table : Bytes} {n : Nat} {regions : List Region}
    (hlength : n * regionSize ≤ table.length) (h : decodeTable done table n = .ok regions) :
    ∃ new, regions = done.reverse ++ new ∧ IsTable done table n new := by
  induction n generalizing done table regions with
  | zero =>
    cases h
    refine ⟨[], (List.append_nil _).symm, rfl, ?_, by simp, List.nodup_nil, by simp⟩
    rw [Nat.zero_mul, List.take_zero, List.flatMap_nil]
  | succ n ih =>
    rw [Nat.succ_mul] at hlength
    have hfirst : regionSize ≤ table.length := by omega
    rw [decodeTable] at h
    split at h
    · cases h
    rename_i name hname
    split at h
    · cases h
    rename_i hnew
    have hrest : n * regionSize ≤ (table.drop regionSize).length := by
      rw [List.length_drop]
      omega
    obtain ⟨new, hregions, hnewTable⟩ := ih hrest h
    have hraw : (table.take nameWidth).length = nameWidth := by
      simp only [regionSize, nameWidth, List.length_take] at *
      omega
    obtain ⟨bytes, hvalid, -⟩ := decodeName?_eq_some hraw hname
    have hline := take_eq_regionLine hfirst hname
    have hold : ∀ r ∈ done, r.name ≠ name := by simpa using hnew
    refine ⟨readRegion name table :: new, ?_, ?_, ?_, ?_, ?_, ?_⟩
    · rw [hregions, List.reverse_cons, List.append_assoc]
      rfl
    · rw [List.length_cons, hnewTable.length]
    · rw [Nat.succ_mul, Nat.add_comm, List.take_add, hline, hnewTable.lines, List.flatMap_cons]
    · intro r hr
      rcases List.mem_cons.1 hr with rfl | hr
      · exact ⟨bytes, hvalid⟩
      · exact hnewTable.valid r hr
    · rw [List.map_cons, List.nodup_cons]
      exact ⟨hnewTable.isNew _ List.mem_cons_self, hnewTable.distinct⟩
    · intro r hr
      rw [List.map_cons, List.mem_cons, not_or]
      exact ⟨hold r hr, hnewTable.isNew r (List.mem_cons_of_mem _ hr)⟩

/-! ## Regions -/

/-- A region behind a limit, within the file, and with its hash. -/
structure IsIntact (hash : Hash) (data : Bytes) (limit : Nat) (r : Region) : Prop where
  start : limit ≤ r.offset
  stop : r.offset + r.length ≤ data.length
  digest : hash.digest (regionBytes data r) = r.digest

theorem checkRegions_cons_eq_ok_iff {limit : Nat} {r : Region} {rest : List Region} :
    checkRegions hash data limit (r :: rest) = .ok () ↔
      IsIntact hash data limit r ∧ checkRegions hash data (r.offset + r.length) rest = .ok () := by
  rw [checkRegions]
  constructor
  · intro h
    split at h
    · cases h
    split at h
    · cases h
    split at h
    · cases h
    rename_i hstart hstop hdigest
    exact ⟨⟨not_lt.1 hstart, not_lt.1 hstop, not_not.1 hdigest⟩, h⟩
  · intro h
    have hdigest : hash.digest (slice data r.offset r.length) = r.digest := h.1.digest
    rw [if_neg (not_lt.2 h.1.start), if_neg (not_lt.2 h.1.stop), if_neg (not_not.2 hdigest)]
    exact h.2

/-- The check of neighbours is passed just when all regions are intact and each of them ends
before any later one starts. -/
theorem checkRegions_eq_ok_iff {limit : Nat} {regions : List Region} :
    checkRegions hash data limit regions = .ok () ↔ (∀ r ∈ regions, IsIntact hash data limit r) ∧
      regions.Pairwise fun r s => r.offset + r.length ≤ s.offset := by
  induction regions generalizing limit with
  | nil => simp [checkRegions]
  | cons r rest ih =>
    rw [checkRegions_cons_eq_ok_iff, ih, List.forall_mem_cons, List.pairwise_cons]
    constructor
    · rintro ⟨hfirst, hrest, hpairwise⟩
      have hlimit : limit ≤ r.offset + r.length := Nat.le_add_right_of_le hfirst.start
      refine ⟨⟨hfirst, fun s hs => ?_⟩, fun s hs => (hrest s hs).start, hpairwise⟩
      exact ⟨hlimit.trans (hrest s hs).start, (hrest s hs).stop, (hrest s hs).digest⟩
    · rintro ⟨⟨hfirst, hrest⟩, hbehind, hpairwise⟩
      refine ⟨hfirst, fun s hs => ?_, hpairwise⟩
      exact ⟨hbehind s hs, (hrest s hs).stop, (hrest s hs).digest⟩

/-! ## Containers -/

/-- What the reader has seen of a container that it accepts. -/
structure IsDecoded (hash : Hash) (data : Bytes) (c : Container) : Prop where
  fits : tableEnd data ≤ data.length
  hashed : hash.digest (tableBytes data) = tableDigest data
  table : decodeTable [] (tableBytes data) (tableCount data) = .ok c.table
  regions : checkRegions hash data (tableEnd data)
    (c.table.mergeSort fun a b => a.offset ≤ b.offset) = .ok ()
  chunks : c.chunks = c.table.map fun r => (r.name, regionBytes data r)

theorem isDecoded_of_decode (h : decode hash data = .ok c) : IsDecoded hash data c := by
  unfold decode at h
  split at h
  · cases h
  split at h
  · cases h
  split at h
  · cases h
  split at h
  · cases h
  split at h
  · cases h
  split at h
  · cases h
  dsimp only at h
  split at h
  · cases h
  rename_i hfits
  split at h
  · cases h
  rename_i hdigest
  obtain ⟨regions, htable, h⟩ := Result.bind_eq_ok_iff.1 h
  obtain ⟨_, hregions, rfl⟩ := Result.bind_pure_eq_ok_iff.1 h
  exact ⟨not_lt.1 hfits, not_not.1 hdigest, htable, hregions, rfl⟩

namespace IsDecoded

theorem length_tableBytes (h : IsDecoded hash data c) :
    (tableBytes data).length = tableCount data * regionSize := length_slice h.fits

theorem isTable (h : IsDecoded hash data c) :
    IsTable [] (tableBytes data) (tableCount data) c.table := by
  obtain ⟨new, hnew, htable⟩ := decodeTable_eq_ok h.length_tableBytes.ge h.table
  rw [List.reverse_nil, List.nil_append] at hnew
  rwa [hnew]

theorem isIntact (h : IsDecoded hash data c) :
    ∀ r ∈ c.table, IsIntact hash data (tableEnd data) r := by
  intro r hr
  exact (checkRegions_eq_ok_iff.1 h.regions).1 r ((List.mergeSort_perm _ _).mem_iff.2 hr)

theorem map_fst_chunks (h : IsDecoded hash data c) :
    c.chunks.map (·.1) = c.table.map (·.name) := by
  rw [h.chunks, List.map_map]
  rfl

theorem nodup_names (h : IsDecoded hash data c) : (c.chunks.map (·.1)).Nodup := by
  rw [h.map_fst_chunks]
  exact h.isTable.distinct

theorem get?_chunks (h : IsDecoded hash data c) :
    ∀ r ∈ c.table, Chunks.get? r.name c.chunks = some (regionBytes data r) := by
  intro r hr
  rw [Chunks.get?_eq_some_iff h.nodup_names, h.chunks]
  exact List.mem_map.2 ⟨r, hr, rfl⟩

end IsDecoded

/-- Two regions without a byte in common: one ends before the other starts. -/
def IsApart (r s : Region) : Prop :=
  r.offset + r.length ≤ s.offset ∨ s.offset + s.length ≤ r.offset

/-- A container agrees with the file that it was read from. -/
structure IsConsistent (hash : Hash) (data : Bytes) (c : Container) : Prop where
  /-- The table of contents of the file is the lines of the table, one behind the other. -/
  lines : tableBytes data = c.table.flatMap regionLine
  count : tableCount data = c.table.length
  valid : ∀ r ∈ c.table, ∃ bytes, validateName r.name = .ok bytes
  distinct : (c.table.map (·.name)).Nodup
  start : ∀ r ∈ c.table, tableEnd data ≤ r.offset
  stop : ∀ r ∈ c.table, r.offset + r.length ≤ data.length
  apart : c.table.Pairwise IsApart
  /-- The chunks have the names of the table and no other. -/
  names : c.chunks.map (·.1) = c.table.map (·.name)
  /-- Each name has the bytes of its region. -/
  chunks : ∀ r ∈ c.table, Chunks.get? r.name c.chunks = some (regionBytes data r)
  length : ∀ r ∈ c.table, (regionBytes data r).length = r.length
  digest : ∀ r ∈ c.table, hash.digest (regionBytes data r) = r.digest

/-- Every container that is accepted agrees with its file, whatever bytes the file holds. -/
theorem isConsistent_of_decode (h : decode hash data = .ok c) : IsConsistent hash data c := by
  have hdecoded := isDecoded_of_decode h
  have htable := hdecoded.isTable
  have hintact := hdecoded.isIntact
  have hlines := htable.lines
  rw [List.take_of_length_le hdecoded.length_tableBytes.le] at hlines
  refine ⟨hlines, htable.length.symm, htable.valid, htable.distinct, ?_, ?_, ?_,
    hdecoded.map_fst_chunks, hdecoded.get?_chunks, ?_, ?_⟩
  · exact fun r hr => (hintact r hr).start
  · exact fun r hr => (hintact r hr).stop
  · have hsorted := (checkRegions_eq_ok_iff.1 hdecoded.regions).2
    have hsymm : ∀ {r s : Region}, IsApart r s → IsApart s r := Or.symm
    exact ((List.mergeSort_perm _ _).pairwise_iff hsymm).1 (hsorted.imp Or.inl)
  · exact fun r hr => length_slice (hintact r hr).stop
  · exact fun r hr => (hintact r hr).digest

/-! ## A container that the writer does not write -/

/-- A file with a table of contents for these regions, and with these bytes behind it. -/
def fileWith (regions : List Region) (body : Bytes) : Bytes :=
  encodeHeader regions.length (sampleHash.digest (regions.flatMap regionLine))
    ++ (regions.flatMap regionLine ++ body)

/-- Two regions, of which the one that is listed first lies behind the other. -/
def looseRegions : List Region :=
  [⟨"Docs", 219, 2, sampleHash.digest [0x64, 0x6F]⟩, ⟨"Attr", 217, 1, sampleHash.digest [0x61]⟩]

/-- A file with these regions and with bytes before, between and behind them. -/
def looseFile : Bytes := fileWith looseRegions [0xFF, 0x61, 0xFF, 0x64, 0x6F, 0xFF]

theorem decode_looseFile : decode sampleHash looseFile
    = .ok ⟨[("Docs", [0x64, 0x6F]), ("Attr", [0x61])], looseRegions⟩ := by
  cbv

theorem isConsistent_looseFile :
    ∃ c, decode sampleHash looseFile = .ok c ∧ IsConsistent sampleHash looseFile c :=
  ⟨_, decode_looseFile, isConsistent_of_decode decode_looseFile⟩

end ModuleDocs.Container
