import Mathlib
import ModuleDocs.Proofs.Container.Append
import ModuleDocs.Proofs.Container.Canonical

/-!
# Adding several chunks

`appendAll` adds chunks one after the other, each to the container that the one before has left.
The first turns whatever container there was into one that is written as its chunks are (`Holds`,
by `holds_of_append`), and the others keep it so, each with a chunk more (`holds_of_appendAll`).
How a container is written does not depend on the order of its chunks, and so the bytes at the end
do not depend on the order of the additions: `read_appendAll`.
-/

namespace ModuleDocs

/-- Chunks that can be added to others in any order: their names are valid and different, and
none of them is there. -/
structure Chunks.AreNew (new old : Chunks) : Prop where
  valid : ∀ chunk ∈ new, ∃ raw, Container.validateName chunk.1 = .ok raw
  distinct : (new.map (·.1)).Nodup
  absent : ∀ chunk ∈ new, Chunks.get? chunk.1 old = none

namespace Chunks

variable {new order old chunks : Chunks} {chunk : Text × Bytes}

theorem AreNew.perm (h : new.AreNew old) (horder : order.Perm new) : order.AreNew old where
  valid := fun chunk hmem => h.valid chunk (horder.mem_iff.1 hmem)
  distinct := (horder.map _).nodup_iff.2 h.distinct
  absent := fun chunk hmem => h.absent chunk (horder.mem_iff.1 hmem)

/-- When the first of the new chunks is there too, the others are still new. -/
theorem AreNew.tail (h : AreNew (chunk :: new) old) (hchunks : chunks.Perm (chunk :: old)) :
    new.AreNew chunks where
  valid := fun other hmem => h.valid other (List.mem_cons_of_mem _ hmem)
  distinct := (List.nodup_cons.1 h.distinct).2
  absent := by
    intro other hmem
    have hne : other.1 ≠ chunk.1 := fun hsame =>
      (List.nodup_cons.1 h.distinct).1 (List.mem_map.2 ⟨other, hmem, hsame⟩)
    rw [get?_eq_none_iff, (hchunks.map _).mem_iff, List.map_cons, List.mem_cons, not_or]
    exact ⟨hne, get?_eq_none_iff.1 (h.absent other (List.mem_cons_of_mem _ hmem))⟩

/-- Old names and new names are all different. -/
theorem AreNew.nodup (h : new.AreNew old) (hold : (old.map (·.1)).Nodup) :
    ((old ++ new).map (·.1)).Nodup := by
  rw [List.map_append]
  refine List.nodup_append'.2 ⟨hold, h.distinct, fun name hname hname' => ?_⟩
  obtain ⟨chunk, hmem, rfl⟩ := List.mem_map.1 hname'
  exact get?_eq_none_iff.1 (h.absent chunk hmem) hname

/-- A chunk under a new name stands beside those that are there. -/
theorem set_perm (h : get? chunk.1 chunks = none) :
    (set chunk.1 chunk.2 chunks).Perm (chunk :: chunks) := by
  rw [set_of_get?_eq_none h]
  exact List.perm_append_singleton chunk chunks

/-- One chunk is added, and then the rest. -/
theorem perm_append_cons {last rest : Chunks} (hfirst : chunks.Perm (chunk :: old))
    (hrest : last.Perm (chunks ++ rest)) : last.Perm (old ++ chunk :: rest) :=
  calc List.Perm last (chunks ++ rest) := hrest
    List.Perm _ (chunk :: old ++ rest) := hfirst.append_right rest
    List.Perm _ (old ++ chunk :: rest) := List.perm_middle.symm

end Chunks

namespace Container

/-- Adds chunks one after the other, up to the first that is refused. -/
def appendAll (host : Host) (fs : FileSystem) (p : Path) :
    Chunks → Except StoreError Unit × FileSystem
  | [] => (.ok (), fs)
  | (name, data) :: rest =>
    match append host fs p name data with
    | (.error e, fs) => (.error e, fs)
    | (.ok _, fs) => appendAll host fs p rest

/-- No container that has to be written on the way fails to be. -/
def WritesSucceed (host : Host) (fs : FileSystem) (p : Path) : Chunks → Prop
  | [] => True
  | (name, data) :: rest =>
    (∀ c, load host fs p = .ok c → (write host fs p (Chunks.set name data c.chunks)).1 = .ok ()) ∧
      WritesSucceed host (append host fs p name data).2 p rest

/-- A path leads to a container, and its bytes are those that its chunks are written with. -/
structure Holds (host : Host) (fs : FileSystem) (p : Path) (c : Container) : Prop where
  loaded : load host fs p = .ok c
  written : ∃ data, encode host.hash c.chunks = .ok data ∧ fs.read p = .ok data

variable {host : Host} {fs fs' : FileSystem} {p : Path} {name : Text} {data : Bytes}
  {old c : Container} {chunk : Text × Bytes} {new order : Chunks}

theorem read_of_write {chunks : Chunks} (h : write host fs p chunks = (.ok (), fs')) :
    ∃ data, encode host.hash chunks = .ok data ∧ fs'.read p = .ok data := by
  obtain ⟨data, hdata, hreplace⟩ := replaceFile_of_write h
  exact ⟨data, hdata, read_of_replaceFile hreplace⟩

theorem holds_of_write {chunks : Chunks} (hdistinct : (chunks.map (·.1)).Nodup)
    (h : write host fs p chunks = (.ok (), fs')) :
    ∃ c, Holds host fs' p c ∧ c.chunks.Perm chunks := by
  obtain ⟨c, hload, hchunks⟩ := load_of_write hdistinct h
  have hperm : c.chunks.Perm chunks := hchunks ▸ Chunks.sorted_perm chunks
  obtain ⟨data, hencode, hread⟩ := read_of_write h
  exact ⟨c, ⟨hload, data, (encode_eq_of_perm _ hperm hdistinct).trans hencode, hread⟩, hperm⟩

/-- A new valid name is added by writing the container anew and loading it. -/
theorem append_of_write {raw : Bytes} (hold : load host fs p = .ok old)
    (hvalid : validateName name = .ok raw) (hnew : Chunks.get? name old.chunks = none)
    (hwrite : write host fs p (Chunks.set name data old.chunks) = (.ok (), fs')) :
    append host fs p name data = (load host fs' p, fs') := by
  unfold append
  rw [hvalid, hold]
  dsimp only
  rw [hnew, if_neg (by simp), hwrite]

/-- Whatever container there was, with a new chunk it is written as its chunks are. -/
theorem holds_of_append (hold : load host fs p = .ok old)
    (hnew : Chunks.AreNew (chunk :: new) old.chunks)
    (hwrite : (write host fs p (Chunks.set chunk.1 chunk.2 old.chunks)).1 = .ok ()) :
    ∃ c fs', append host fs p chunk.1 chunk.2 = (.ok c, fs') ∧ Holds host fs' p c ∧
      c.chunks.Perm (chunk :: old.chunks) := by
  have habsent := hnew.absent chunk List.mem_cons_self
  obtain ⟨raw, hvalid⟩ := hnew.valid chunk List.mem_cons_self
  have hset := Chunks.set_perm habsent
  have hdistinct : ((chunk :: old.chunks).map (·.1)).Nodup :=
    List.nodup_cons.2 ⟨Chunks.get?_eq_none_iff.1 habsent, nodup_of_load hold⟩
  obtain ⟨c, hc, hchunks⟩ :=
    holds_of_write ((hset.map _).nodup_iff.2 hdistinct) (Prod.ext hwrite rfl)
  refine ⟨c, _, ?_, hc, hchunks.trans hset⟩
  rw [append_of_write hold hvalid habsent (Prod.ext hwrite rfl), hc.loaded]

theorem appendAll_cons (happend : append host fs p chunk.1 chunk.2 = (.ok c, fs')) :
    appendAll host fs p (chunk :: order) = appendAll host fs' p order := by
  rw [appendAll, happend]

/-- A container that is written as its chunks are stays so with new chunks. -/
theorem holds_of_appendAll (h : Holds host fs p old) (hnew : new.AreNew old.chunks)
    (hwrites : WritesSucceed host fs p new) :
    ∃ c fs', appendAll host fs p new = (.ok (), fs') ∧ Holds host fs' p c ∧
      c.chunks.Perm (old.chunks ++ new) := by
  induction new generalizing fs old with
  | nil => exact ⟨old, fs, rfl, h, by simp⟩
  | cons chunk rest ih =>
    obtain ⟨hwrite, hrest⟩ := hwrites
    obtain ⟨c, fs', happend, hc, hchunks⟩ := holds_of_append h.loaded hnew (hwrite _ h.loaded)
    rw [happend] at hrest
    obtain ⟨c', fs'', hall, hc', hchunks'⟩ := ih hc (hnew.tail hchunks) hrest
    exact ⟨c', fs'', (appendAll_cons happend).trans hall, hc',
      Chunks.perm_append_cons hchunks hchunks'⟩

/-- The order of additions does not matter.  Whatever container was loaded, after chunks with new
valid names have been added to it in any order, the path has the bytes that the old chunks and the
new ones are written with together. -/
theorem read_appendAll (hold : load host fs p = .ok old) (hsome : new ≠ [])
    (hnew : new.AreNew old.chunks) (horder : order.Perm new)
    (hwrites : WritesSucceed host fs p order) :
    ∃ fs' data, appendAll host fs p order = (.ok (), fs') ∧
      encode host.hash (old.chunks ++ new) = .ok data ∧ fs'.read p = .ok data := by
  have hnew' := hnew.perm horder
  cases order with
  | nil => exact absurd (List.nil_perm.1 horder) hsome
  | cons chunk rest =>
    obtain ⟨hwrite, hrest⟩ := hwrites
    obtain ⟨c, fs', happend, hc, hchunks⟩ := holds_of_append hold hnew' (hwrite _ hold)
    rw [happend] at hrest
    obtain ⟨c', fs'', hall, hc', hchunks'⟩ := holds_of_appendAll hc (hnew'.tail hchunks) hrest
    obtain ⟨data, hencode, hread⟩ := hc'.written
    have hperm : c'.chunks.Perm (old.chunks ++ new) :=
      (Chunks.perm_append_cons hchunks hchunks').trans (horder.append_left old.chunks)
    refine ⟨fs'', data, (appendAll_cons happend).trans hall, ?_, hread⟩
    rw [← encode_eq_of_perm _ hperm (hnew.nodup (nodup_of_load hold))]
    exact hencode

/-! ## A container to which two chunks are added -/

/-- Whatever is put under the first path twice is put there. -/
theorem fst_replaceFile_again (old first second : Bytes) :
    (replaceFile looseHost (replaceFile looseHost (twoFiles old) (Path.parse "c.dca") first).2
      (Path.parse "c.dca") second).1 = .ok () := by
  cbv

/-- With one new chunk and with two, the container of the first file is written. -/
theorem writesSucceed_twoFiles {file first second : Bytes} {a b : Text × Bytes}
    (hload : load looseHost (twoFiles file) (Path.parse "c.dca") = .ok old)
    (hnew : Chunks.AreNew [a, b] old.chunks)
    (hfirst : encode looseHost.hash (old.chunks ++ [a]) = .ok first)
    (hsecond : encode looseHost.hash (old.chunks ++ [a, b]) = .ok second) :
    WritesSucceed looseHost (twoFiles file) (Path.parse "c.dca") [a, b] := by
  obtain ⟨raw, hvalid⟩ := hnew.valid a List.mem_cons_self
  have habsent := hnew.absent a List.mem_cons_self
  have hwrite : write looseHost (twoFiles file) (Path.parse "c.dca")
        (Chunks.set a.1 a.2 old.chunks)
      = (.ok (), (replaceFile looseHost (twoFiles file) (Path.parse "c.dca") first).2) := by
    rw [Chunks.set_of_get?_eq_none habsent, write, hfirst]
    dsimp only
    rw [(fst_replaceFile_twoFiles file first).1]
    rfl
  refine ⟨fun c hc => ?_, ?_⟩
  · cases hload.symm.trans hc
    rw [hwrite]
  obtain ⟨c, fs', happend, hc, hchunks⟩ := holds_of_append hload hnew (congrArg Prod.fst hwrite)
  obtain ⟨-, hfs'⟩ := Prod.mk.inj
    (happend.symm.trans (append_of_write hload hvalid habsent hwrite))
  rw [happend, hfs']
  refine ⟨fun c' hc' => ?_, trivial⟩
  cases (hfs' ▸ hc.loaded).symm.trans hc'
  have hset := Chunks.set_perm ((hnew.tail hchunks).absent b List.mem_cons_self)
  have hperm : (Chunks.set b.1 b.2 c.chunks).Perm (old.chunks ++ [a, b]) :=
    Chunks.perm_append_cons hchunks (hset.trans (List.perm_append_singleton b c.chunks).symm)
  have hdistinct := hnew.nodup (nodup_of_load hload)
  rw [write, encode_eq_of_perm _ hperm hdistinct, hsecond]
  dsimp only
  rw [fst_replaceFile_again]
  rfl

def infoChunk : Text × Bytes := ("Info", [7])

def abstChunk : Text × Bytes := ("Abst", [8])

theorem areNew_looseChunks : Chunks.AreNew [infoChunk, abstChunk] looseChunks where
  valid := by
    intro chunk hchunk
    rcases List.mem_pair.1 hchunk with rfl | rfl
    · exact ⟨_, rfl⟩
    · exact ⟨_, rfl⟩
  distinct := by decide
  absent := by decide

theorem exists_encode_looseChunks :
    (∃ data, encode looseHost.hash (looseChunks ++ [infoChunk]) = .ok data) ∧
    (∃ data, encode looseHost.hash (looseChunks ++ [abstChunk]) = .ok data) ∧
    ∃ data, encode looseHost.hash (looseChunks ++ [infoChunk, abstChunk]) = .ok data := by
  have hnames : ∀ chunk ∈ looseChunks ++ [infoChunk, abstChunk],
      ∃ raw, validateName chunk.1 = .ok raw := by
    intro chunk hchunk
    rcases List.mem_append.1 hchunk with hold | hnew
    · rcases List.mem_pair.1 hold with rfl | rfl
      · exact ⟨_, rfl⟩
      · exact ⟨_, rfl⟩
    · exact areNew_looseChunks.valid chunk hnew
  obtain ⟨data, hdata, -⟩ := exists_encode looseHost.hash hnames (by decide) (by decide)
  exact ⟨Result.exists_of_isOk (by cbv), Result.exists_of_isOk (by cbv), data, hdata⟩

/-- Two chunks are added to the first file, which is arranged loosely, in one order and in the
other. -/
theorem read_appendAll_twoFiles : ∃ data fs fs',
    encode looseHost.hash (looseChunks ++ [infoChunk, abstChunk]) = .ok data ∧
    appendAll looseHost (twoFiles looseFile) (Path.parse "c.dca") [infoChunk, abstChunk]
      = (.ok (), fs) ∧ fs.read (Path.parse "c.dca") = .ok data ∧
    appendAll looseHost (twoFiles looseFile) (Path.parse "c.dca") [abstChunk, infoChunk]
      = (.ok (), fs') ∧ fs'.read (Path.parse "c.dca") = .ok data := by
  obtain ⟨hread, -⟩ := read_twoFiles looseFile
  have hdecode : decode looseHost.hash looseFile = .ok ⟨looseChunks, looseRegions⟩ :=
    decode_looseFile
  -- From here on it does not matter what the bytes are.
  generalize looseFile = file at *
  have hload : load looseHost (twoFiles file) (Path.parse "c.dca")
      = .ok ⟨looseChunks, looseRegions⟩ :=
    Result.bind_eq_ok_iff.2 ⟨file, Result.mapError_eq_ok_iff.2 hread,
      Result.mapError_eq_ok_iff.2 hdecode⟩
  have hnew := areNew_looseChunks
  have hback : [abstChunk, infoChunk].Perm [infoChunk, abstChunk] := List.Perm.swap _ _ _
  obtain ⟨⟨_, hinfo⟩, ⟨_, habst⟩, data, hdata⟩ := exists_encode_looseChunks
  have hdata' : encode looseHost.hash (looseChunks ++ [abstChunk, infoChunk]) = .ok data := by
    rw [encode_eq_of_perm _ (hback.append_left looseChunks) (hnew.nodup (nodup_of_load hload))]
    exact hdata
  obtain ⟨fs, _, hall, hencode, hbytes⟩ := read_appendAll hload (List.cons_ne_nil _ _) hnew
    (List.Perm.refl _) (writesSucceed_twoFiles hload hnew hinfo hdata)
  obtain ⟨fs', _, hall', hencode', hbytes'⟩ := read_appendAll hload (List.cons_ne_nil _ _) hnew
    hback (writesSucceed_twoFiles hload (hnew.perm hback) habst hdata')
  cases hdata.symm.trans hencode
  cases hdata.symm.trans hencode'
  exact ⟨data, fs, fs', hdata, hall, hbytes, hall', hbytes'⟩

end Container

end ModuleDocs
