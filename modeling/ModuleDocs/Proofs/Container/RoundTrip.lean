import Mathlib
import ModuleDocs.Container.Decode
import ModuleDocs.Container.Encode
import ModuleDocs.Proofs.Number.LittleEndian
import ModuleDocs.Proofs.Result
import ModuleDocs.Proofs.Text.Utf8

/-!
# Containers are read back

Chunks with different names are read back from the container that holds them, in the
order of their names (`exists_decode_of_encode`), whatever the hash is.  `regionsFrom` is the
table of contents of chunks that stand one after the other; the writer's table is read
as these regions (`decodeTable_encodeTable`), and they pass the checks
(`checkRegions_regionsFrom`).
-/

namespace ModuleDocs.Container

/-! ## Slices -/

theorem slice_append_left {front : Bytes} (back : Bytes) {n : Nat} (h : front.length = n) :
    slice (front ++ back) 0 n = front := by
  simp [slice, ← h]

theorem slice_append_right {front : Bytes} (back : Bytes) {start n : Nat}
    (h : front.length ≤ start) :
    slice (front ++ back) start n = slice back (start - front.length) n := by
  rw [slice, slice, List.drop_append, List.drop_of_length_le h, List.nil_append]

/-- A field behind others is read back. -/
theorem field_append_right {front : Bytes} (back : Bytes) {start width : Nat}
    (h : front.length ≤ start) :
    field (front ++ back) start width = field back (start - front.length) width := by
  rw [field, field, slice_append_right back h]

theorem field_littleEndian {width n : Nat} (h : n < 256 ^ width) (back : Bytes) :
    field (littleEndian width n ++ back) 0 width = n := by
  rw [field, slice_append_left back (length_littleEndian width n),
    ofLittleEndian_littleEndian_of_lt h]

/-! ## The header -/

theorem length_encodeHeader (count : Nat) {digest : Bytes} (h : digest.length = 32) :
    (encodeHeader count digest).length = headerSize := by
  simp [encodeHeader, magic, headerSize, h]

/-- The fields of a header are read back. -/
theorem header_fields (count : Nat) (hcount : count < 256 ^ 4) {digest : Bytes}
    (hdigest : digest.length = 32) (rest : Bytes) :
    (encodeHeader count digest ++ rest).take 8 = magic ∧
      field (encodeHeader count digest ++ rest) 8 2 = currentVersion ∧
      field (encodeHeader count digest ++ rest) 10 2 = 0 ∧
      field (encodeHeader count digest ++ rest) 12 4 = headerSize ∧
      field (encodeHeader count digest ++ rest) 16 4 = count ∧
      field (encodeHeader count digest ++ rest) 20 4 = regionSize ∧
      slice (encodeHeader count digest ++ rest) 24 32 = digest := by
  have hmagic : magic.length = 8 := rfl
  simp only [encodeHeader, List.append_assoc]
  refine ⟨List.take_left' hmagic, ?_, ?_, ?_, ?_, ?_, ?_⟩
  · rw [field_append_right _ (by simp [hmagic]), hmagic]
    exact field_littleEndian (by decide) _
  · rw [field_append_right _ (by simp [hmagic]), hmagic, field_append_right _ (by simp),
      length_littleEndian]
    exact field_littleEndian (by decide) _
  · rw [field_append_right _ (by simp [hmagic]), hmagic, field_append_right _ (by simp),
      length_littleEndian, field_append_right _ (by simp), length_littleEndian]
    exact field_littleEndian (by decide) _
  · rw [field_append_right _ (by simp [hmagic]), hmagic, field_append_right _ (by simp),
      length_littleEndian, field_append_right _ (by simp), length_littleEndian,
      field_append_right _ (by simp), length_littleEndian]
    exact field_littleEndian hcount _
  · rw [field_append_right _ (by simp [hmagic]), hmagic, field_append_right _ (by simp),
      length_littleEndian, field_append_right _ (by simp), length_littleEndian,
      field_append_right _ (by simp), length_littleEndian, field_append_right _ (by simp),
      length_littleEndian]
    exact field_littleEndian (by decide) _
  · rw [slice_append_right _ (by simp [hmagic]), hmagic, slice_append_right _ (by simp),
      length_littleEndian, slice_append_right _ (by simp), length_littleEndian,
      slice_append_right _ (by simp), length_littleEndian, slice_append_right _ (by simp),
      length_littleEndian, slice_append_right _ (by simp), length_littleEndian]
    exact slice_append_left _ hdigest

/-! ## Names -/

/-- What a valid name is written with: printable ASCII characters, at most sixteen. -/
theorem validateName_eq_ok {name : Text} {raw : Bytes} (h : validateName name = .ok raw) :
    raw = name.map (fun c => UInt8.ofNat c.val) ∧ name.length ≤ nameWidth ∧
      ∀ c ∈ name, 0x21 ≤ c.val ∧ c.val ≤ 0x7E := by
  unfold validateName at h
  split at h
  · cases h
  split at h
  · cases h
  split at h
  · cases h
  split at h
  · cases h
  rename_i hlength hprintable
  cases h
  refine ⟨rfl, by omega, fun c hc => ?_⟩
  simp only [List.any_eq_true, not_exists, not_and] at hprintable
  have := hprintable c hc
  simp only [Bool.or_eq_true, decide_eq_true_eq, not_or, not_lt] at this
  exact this

/-- A name is read back from its field. -/
theorem decodeName?_of_validateName {name : Text} {raw : Bytes} (h : validateName name = .ok raw) :
    decodeName? (raw ++ List.replicate (nameWidth - raw.length) 0) = some name := by
  obtain ⟨rfl, hlength, hprintable⟩ := validateName_eq_ok h
  set raw : Bytes := name.map fun c => UInt8.ofNat c.val with hraw
  have htoNat : ∀ c ∈ name, (UInt8.ofNat c.val).toNat = c.val := fun c hc =>
    Utf8.toNat_ofNat_of_lt (by have := hprintable c hc; omega)
  -- No character of a name is zero, so that only the filling is dropped.
  have hstrip : ((raw ++ List.replicate (nameWidth - raw.length) 0).reverse.dropWhile
      (· = 0)).reverse = raw := by
    have hlast : raw.reverse.dropWhile (· = 0) = raw.reverse := by
      refine List.dropWhile_eq_self_iff.2 fun hpos => ?_
      have hmem := List.mem_reverse.1 (List.getElem_mem hpos)
      obtain ⟨c, hc, hsame⟩ := List.mem_map.1 hmem
      have hvalue := htoNat c hc
      rw [hsame] at hvalue
      have := hprintable c hc
      simp only [decide_eq_true_eq]
      intro hzero
      rw [hzero] at hvalue
      simp at hvalue
      omega
    rw [List.reverse_append, List.reverse_replicate, List.dropWhile_append,
      List.dropWhile_replicate]
    simp [hlast]
  have hascii : raw.any (fun b => decide (0x80 ≤ b.toNat)) = false := by
    rw [List.any_eq_false]
    intro b hb
    obtain ⟨c, hc, rfl⟩ := List.mem_map.1 hb
    have := hprintable c hc
    rw [htoNat c hc]
    simp only [decide_eq_true_eq]
    omega
  have hback : raw.map (fun b => CodePoint.ofNat b.toNat) = name := by
    rw [hraw, List.map_map]
    refine (List.map_congr_left fun c hc => ?_).trans (List.map_id name)
    rw [Function.comp_apply, htoNat c hc, CodePoint.ofNat_val, id]
  simp only [decodeName?, hstrip, hascii, hback, h]
  rfl

/-! ## Tables -/

/-- The regions of chunks that stand one after the other from `offset` on. -/
def regionsFrom (hash : Hash) (offset : Nat) : Chunks → List Region
  | [] => []
  | (name, data) :: rest =>
    ⟨name, offset, data.length, hash.digest data⟩ :: regionsFrom hash (offset + data.length) rest

theorem map_name_regionsFrom (hash : Hash) (offset : Nat) (chunks : Chunks) :
    (regionsFrom hash offset chunks).map (·.name) = chunks.map (·.1) := by
  induction chunks generalizing offset with
  | nil => rfl
  | cons chunk rest ih => rw [regionsFrom, List.map_cons, List.map_cons, ih]

/-- A chunk and what it is written with. -/
def IsNamed (chunk : Text × Bytes) (named : Bytes × Bytes) : Prop :=
  validateName chunk.1 = .ok named.1 ∧ named.2 = chunk.2

theorem validateNames_eq_ok {chunks : Chunks} {named : List (Bytes × Bytes)}
    (h : validateNames chunks = .ok named) : List.Forall₂ IsNamed chunks named := by
  induction chunks generalizing named with
  | nil =>
    cases h
    exact .nil
  | cons chunk rest ih =>
    rw [validateNames] at h
    obtain ⟨raw, hraw, h⟩ := Result.bind_eq_ok_iff.1 h
    obtain ⟨others, hothers, rfl⟩ := Result.bind_pure_eq_ok_iff.1 h
    exact .cons ⟨hraw, rfl⟩ (ih hothers)

/-- The chunks themselves stand as they are. -/
theorem map_snd_of_isNamed {chunks : Chunks} {named : List (Bytes × Bytes)}
    (h : List.Forall₂ IsNamed chunks named) : named.map (·.2) = chunks.map (·.2) := by
  induction h with
  | nil => rfl
  | cons hfirst _ ih => rw [List.map_cons, List.map_cons, hfirst.2, ih]

theorem flatMap_of_isNamed {chunks : Chunks} {named : List (Bytes × Bytes)}
    (h : List.Forall₂ IsNamed chunks named) : named.flatMap (·.2) = chunks.flatMap (·.2) := by
  rw [List.flatMap_def, List.flatMap_def, map_snd_of_isNamed h]

theorem length_encodeRegion {name : Bytes} {r : Region} (hname : name.length ≤ nameWidth)
    (hdigest : r.digest.length = 32) : (encodeRegion name r).length = regionSize := by
  simp only [encodeRegion, List.length_append, List.length_replicate, length_littleEndian, hdigest,
    nameWidth, regionSize] at *
  omega

/-- The fields of a line of the table are read back. -/
theorem region_fields {name : Bytes} (hname : name.length ≤ nameWidth) {r : Region}
    (hoffset : r.offset < 256 ^ 8) (hlength : r.length < 256 ^ 8) (hdigest : r.digest.length = 32)
    (rest : Bytes) :
    (encodeRegion name r ++ rest).take nameWidth
        = name ++ List.replicate (nameWidth - name.length) 0 ∧
      field (encodeRegion name r ++ rest) 16 8 = r.offset ∧
      field (encodeRegion name r ++ rest) 24 8 = r.length ∧
      slice (encodeRegion name r ++ rest) 32 32 = r.digest := by
  set filled := name ++ List.replicate (nameWidth - name.length) 0 with hfilled
  have hwidth : filled.length = 16 := by
    simp only [hfilled, List.length_append, List.length_replicate, nameWidth] at *
    omega
  have hline : encodeRegion name r ++ rest = filled ++ (littleEndian 8 r.offset
      ++ (littleEndian 8 r.length ++ (r.digest ++ rest))) := by
    simp [encodeRegion, hfilled]
  rw [hline]
  refine ⟨List.take_left' hwidth, ?_, ?_, ?_⟩
  · rw [field_append_right _ (by simp [hwidth]), hwidth]
    exact field_littleEndian hoffset _
  · rw [field_append_right _ (by simp [hwidth]), hwidth, field_append_right _ (by simp),
      length_littleEndian]
    exact field_littleEndian hlength _
  · rw [slice_append_right _ (by simp [hwidth]), hwidth, slice_append_right _ (by simp),
      length_littleEndian, slice_append_right _ (by simp), length_littleEndian]
    exact slice_append_left _ hdigest

/-- A table has a line of one size for each chunk. -/
theorem length_encodeTable {hash : Hash} {offset : Nat} {chunks : Chunks}
    {named : List (Bytes × Bytes)} (hnamed : List.Forall₂ IsNamed chunks named) {table : Bytes}
    (h : encodeTable hash offset named = .ok table) :
    table.length = named.length * regionSize := by
  induction hnamed generalizing offset table with
  | nil =>
    cases h
    rfl
  | @cons chunk line chunks named hfirst _ ih =>
    rw [encodeTable] at h
    split at h
    · cases h
    obtain ⟨back, hback, rfl⟩ := Result.bind_pure_eq_ok_iff.1 h
    obtain ⟨hraw, hlength, -⟩ := validateName_eq_ok hfirst.1
    have hname : line.1.length ≤ nameWidth := by simpa [hraw] using hlength
    rw [List.length_append, ih hback, length_encodeRegion hname (hash.length_digest _),
      List.length_cons]
    ring

/-- The table of chunks with different names is read back as their regions. -/
theorem decodeTable_encodeTable {hash : Hash} {offset : Nat} {chunks : Chunks}
    {named : List (Bytes × Bytes)} (hnamed : List.Forall₂ IsNamed chunks named) {table : Bytes}
    (h : encodeTable hash offset named = .ok table) (done : List Region)
    (hdistinct : (chunks.map (·.1)).Nodup) (hdone : ∀ r ∈ done, r.name ∉ chunks.map (·.1)) :
    decodeTable done table named.length
      = .ok (done.reverse ++ regionsFrom hash offset chunks) := by
  induction hnamed generalizing offset table done with
  | nil =>
    simp [decodeTable, regionsFrom]
  | @cons chunk line chunks named hfirst _ ih =>
    obtain ⟨hname, hsame⟩ := hfirst
    rw [encodeTable] at h
    split at h
    · cases h
    rename_i hfits
    obtain ⟨back, hback, rfl⟩ := Result.bind_pure_eq_ok_iff.1 h
    obtain ⟨hraw, hwidth, -⟩ := validateName_eq_ok hname
    have hpow : (256 : Nat) ^ 8 = 0xFFFFFFFFFFFFFFFF + 1 := by norm_num
    have hoffset : offset < 256 ^ 8 := by omega
    have hdata : line.2.length < 256 ^ 8 := by omega
    have hlength : line.1.length ≤ nameWidth := by simpa [hraw] using hwidth
    have hdigest := hash.length_digest line.2
    obtain ⟨htake, hreadOffset, hreadLength, hslice⟩ := region_fields hlength
      (r := ⟨[], offset, line.2.length, hash.digest line.2⟩) hoffset hdata hdigest back
    have hregion := length_encodeRegion hlength
      (r := ⟨[], offset, line.2.length, hash.digest line.2⟩) hdigest
    have hdrop : List.drop regionSize (_ ++ back) = back := List.drop_left' hregion
    rw [List.map_cons, List.nodup_cons] at hdistinct
    have hnew : done.any (fun r => decide (r.name = chunk.1)) = false := by
      rw [List.any_eq_false]
      intro r hr hsame'
      exact hdone r hr (by simp [of_decide_eq_true hsame'])
    rw [List.length_cons, decodeTable, htake, decodeName?_of_validateName hname]
    simp only [hnew, Bool.false_eq_true, if_false, hreadOffset, hreadLength, hslice, hdrop]
    rw [hsame] at hback ⊢
    rw [ih hback _ hdistinct.2]
    · simp [regionsFrom]
    · intro r hr
      rcases List.mem_cons.1 hr with rfl | hr
      · exact hdistinct.1
      · exact fun hmem => hdone r hr (List.mem_cons_of_mem _ hmem)

/-! ## Regions -/

/-- Regions that stand one after the other are in the order of their offsets. -/
theorem pairwise_offset_regionsFrom (hash : Hash) (offset : Nat) (chunks : Chunks) :
    (regionsFrom hash offset chunks).Pairwise (fun a b => a.offset ≤ b.offset) ∧
      ∀ r ∈ regionsFrom hash offset chunks, offset ≤ r.offset := by
  induction chunks generalizing offset with
  | nil => exact ⟨List.Pairwise.nil, by simp [regionsFrom]⟩
  | cons chunk rest ih =>
    obtain ⟨hsorted, hbehind⟩ := ih (offset + chunk.2.length)
    have hbehind' : ∀ r ∈ regionsFrom hash (offset + chunk.2.length) rest, offset ≤ r.offset :=
      fun r hr => Nat.le_of_add_right_le (hbehind r hr)
    refine ⟨List.pairwise_cons.2 ⟨hbehind', hsorted⟩, fun r hr => ?_⟩
    rcases List.mem_cons.1 hr with rfl | hr
    · exact le_refl offset
    · exact hbehind' r hr

/-- The regions of chunks pass the checks on the bytes of these chunks. -/
theorem checkRegions_regionsFrom (hash : Hash) (front : Bytes) (chunks : Chunks) :
    checkRegions hash (front ++ chunks.flatMap (·.2)) front.length
      (regionsFrom hash front.length chunks) = .ok () := by
  induction chunks generalizing front with
  | nil => rfl
  | cons chunk rest ih =>
    have hrest := ih (front ++ chunk.2)
    rw [List.append_assoc, List.length_append] at hrest
    have hslice : slice (front ++ (chunk.2 ++ rest.flatMap (·.2))) front.length chunk.2.length
        = chunk.2 := by
      rw [slice_append_right _ le_rfl, Nat.sub_self, slice_append_left _ rfl]
    rw [List.flatMap_cons, regionsFrom, checkRegions, if_neg (by simp), if_neg (by simp),
      hslice, if_neg (by simp)]
    exact hrest

/-- The chunks in the regions of chunks are these chunks. -/
theorem map_slice_regionsFrom (hash : Hash) (front : Bytes) (chunks : Chunks) :
    (regionsFrom hash front.length chunks).map (fun r =>
      (r.name, slice (front ++ chunks.flatMap (·.2)) r.offset r.length)) = chunks := by
  induction chunks generalizing front with
  | nil => rfl
  | cons chunk rest ih =>
    have hrest := ih (front ++ chunk.2)
    rw [List.append_assoc, List.length_append] at hrest
    rw [List.flatMap_cons, regionsFrom, List.map_cons, slice_append_right _ le_rfl, Nat.sub_self,
      slice_append_left _ rfl, hrest]

/-! ## Whole containers -/

/-- Chunks with different names are read back in the order of their names. -/
theorem exists_decode_of_encode {hash : Hash} {chunks : Chunks} {data : Bytes}
    (hdistinct : (chunks.map (·.1)).Nodup) (h : encode hash chunks = .ok data) :
    ∃ c, decode hash data = .ok c ∧ c.chunks = chunks.sorted ∧
      c.table = regionsFrom hash (headerSize + chunks.length * regionSize) chunks.sorted := by
  unfold encode at h
  obtain ⟨named, hnamed, h⟩ := Result.bind_eq_ok_iff.1 h
  obtain ⟨table, htable, h⟩ := Result.bind_eq_ok_iff.1 h
  split at h
  · cases h
  rename_i hcount
  cases h
  have hnamed := validateNames_eq_ok hnamed
  have hlength : named.length = chunks.length := by
    rw [← hnamed.length_eq, Chunks.sorted, List.length_mergeSort]
  have hsorted : (chunks.sorted.map (·.1)).Nodup :=
    ((List.mergeSort_perm _ _).map _).nodup_iff.2 hdistinct
  rw [flatMap_of_isNamed hnamed]
  set digest := hash.digest table
  set body := chunks.sorted.flatMap (·.2)
  have hdigest : digest.length = 32 := hash.length_digest table
  have hheader := length_encodeHeader named.length hdigest
  have htableLength := length_encodeTable hnamed htable
  have hfront : (encodeHeader named.length digest ++ table).length
      = headerSize + named.length * regionSize := by
    rw [List.length_append, hheader, htableLength]
  obtain ⟨hmagic, hversion, hflags, hheaderSize, hcountField, hregionSize, hdigestField⟩ :=
    header_fields named.length (by omega) hdigest (table ++ body)
  have hslice : slice (encodeHeader named.length digest ++ (table ++ body)) headerSize
      (named.length * regionSize) = table := by
    rw [slice_append_right _ hheader.le, hheader, Nat.sub_self,
      slice_append_left _ htableLength]
  have hregions := decodeTable_encodeTable hnamed htable [] hsorted (by simp)
  rw [List.reverse_nil, List.nil_append] at hregions
  have hmerge : (regionsFrom hash (headerSize + named.length * regionSize)
      chunks.sorted).mergeSort (fun a b => decide (a.offset ≤ b.offset)) = _ :=
    List.mergeSort_of_pairwise ((pairwise_offset_regionsFrom hash
      (headerSize + named.length * regionSize) chunks.sorted).1.imp decide_eq_true)
  have hcheck := checkRegions_regionsFrom hash (encodeHeader named.length digest ++ table)
    chunks.sorted
  have hread := map_slice_regionsFrom hash (encodeHeader named.length digest ++ table)
    chunks.sorted
  rw [hfront, List.append_assoc] at hcheck hread
  refine ⟨⟨chunks.sorted, regionsFrom hash (headerSize + named.length * regionSize)
    chunks.sorted⟩, ?_, rfl, by rw [hlength]⟩
  rw [decode, if_neg (by simp [hheader]), if_neg (not_not.2 hmagic), if_neg (not_not.2 hversion),
    if_neg (not_not.2 hflags), if_neg (not_not.2 hheaderSize), if_neg (not_not.2 hregionSize)]
  simp only [hcountField, hslice, hdigestField, hregions]
  rw [if_neg (by simp [hheader, htableLength]), if_neg (not_not.2 rfl)]
  refine Result.bind_eq_ok_iff.2 ⟨_, rfl, Result.bind_pure_eq_ok_iff.2 ⟨(), ?_, ?_⟩⟩
  · rw [hmerge]
    exact hcheck
  · rw [hread]

end ModuleDocs.Container
