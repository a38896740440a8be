import Mathlib
import ModuleDocs.Proofs.Container.Files
import ModuleDocs.Proofs.Container.Regions
import ModuleDocs.Proofs.Container.Store

/-!
# Adding a chunk succeeds wholly or changes nothing

When bytes cannot be put under a path, the only file that may have changed is the temporary
one (`keepsFiles_replaceFile`), and that is never the file of the path
(`ne_of_locate_temporaryPath`), so the path is read as before
(`read_replaceFile_of_error`).

`Appended` is what follows for a chunk that is added: an error leaves the bytes under the
path as they were, and a container that is returned is the one that is loaded from there,
with the chunks that were there before and the new one.
-/

namespace ModuleDocs

namespace FileSystem

variable {fs fs' : FileSystem} {p : Path} {data : Bytes}

theorem read_eq_ok_iff :
    fs.read p = .ok data ↔ ∃ a, fs.locate p = .ok a ∧ fs.file? a = some data := by
  unfold read
  rw [Result.bind_eq_ok_iff]
  constructor
  · rintro ⟨node, hnode, hdata⟩
    obtain ⟨a, ha, hget⟩ := nodeAt_eq_ok_iff.1 hnode
    cases node with
    | file bytes =>
      cases hdata
      exact ⟨a, ha, by rw [file?, hget]⟩
    | directory => cases hdata
  · rintro ⟨a, ha, hfile⟩
    unfold file? at hfile
    split at hfile
    · rename_i bytes hget
      cases hfile
      exact Result.bind_eq_ok_iff.1 (read_of_locate ha hget)
    · cases hfile

/-! ## Directories stay -/

theorem keeps_makeDirectory (fs : FileSystem) (p : Path) : Keeps fs (fs.makeDirectory p).2 := by
  rcases makeDirectory_cases fs p with ⟨e, he⟩ | ⟨a, _, hnone, hmade⟩
  · rw [he]
    exact Keeps.refl fs
  · rw [hmade]
    apply keeps_put
    simp [hnone]

theorem keeps_makeDirectories (fs : FileSystem) (p : Path) :
    Keeps fs (fs.makeDirectories p).2 := by
  apply makeDirectories_induction (P := Keeps fs)
  · intro fs' q h
    exact h.trans (keeps_makeDirectory fs' q)
  · exact Keeps.refl fs

end FileSystem

namespace Container

open FileSystem

variable {host : Host} {fs fs' : FileSystem} {p : Path} {name : Text} {data : Bytes}
  {chunks : Chunks} {e : FileError}

/-! ## Bytes that are not put in place -/

/-- Directories are kept, and all files but those that one path leads to. -/
structure KeepsFiles (except : Path) (fs fs' : FileSystem) : Prop where
  directories : Keeps fs fs'
  files : ∀ b, fs'.file? b = fs.file? b ∨ fs'.locate except = .ok b

/-- If bytes are not put under a path, no file has changed but the temporary one. -/
theorem keepsFiles_replaceFile (h : replaceFile host fs p data = (.error e, fs')) :
    KeepsFiles (temporaryPath host p) fs fs' := by
  have hkeeps := keeps_makeDirectories fs p.parent
  have hfiles := file?_makeDirectories fs p.parent
  have hputs := puts_replaceFile host fs p data
  rw [h] at hputs
  cases hputs with
  | unmade hmade | unnamed hmade _ =>
    rw [hmade] at hkeeps hfiles
    exact ⟨hkeeps, fun b => Or.inl (hfiles b)⟩
  | unwritten hmade _ hwrite =>
    rw [hmade] at hkeeps hfiles
    obtain rfl := eq_of_write_eq_error hwrite
    exact ⟨hkeeps, fun b => Or.inl (hfiles b)⟩
  | renamed hmade _ hwrite hrename =>
    rw [hmade] at hkeeps hfiles
    obtain rfl := eq_of_rename_eq_error hrename
    obtain ⟨t, ht, hfree, rfl⟩ := write_eq_ok hwrite
    have hput := keeps_put hfree (.file data)
    refine ⟨hkeeps.trans hput, fun b => ?_⟩
    by_cases hb : b = t
    · rw [hb]
      exact Or.inr (locate_of_keeps hput ht)
    · rw [file?_put_file hfree, if_neg hb]
      exact Or.inl (hfiles b)

/-- A path leads to the directory it is in, out of it or one step into it. -/
theorem locate_cases {a at_ : Location} (ha : fs.locate p = .ok a)
    (hwalk : walk (.reach fs.tree (fs.start p)) (p.parent.names.map FileName.encode) = .ok at_) :
    a = at_ ∨ a = at_.dropLast ∨ a = at_ ++ [FileName.encode p.name] := by
  obtain ⟨-, -, hwalk'⟩ := locate_eq_ok_iff.1 ha
  by_cases hp : p.names = []
  · have hparent : p.parent.names = p.names := by simp [Path.parent, hp]
    rw [hparent, hwalk'] at hwalk
    exact Or.inl (Except.ok.inj hwalk)
  · have hnames : p.names.map FileName.encode
        = p.parent.names.map FileName.encode ++ [FileName.encode p.name] := by
      conv_lhs => rw [← Path.child_parent_name hp]
      exact List.map_append
    rw [hnames, walk_concat, hwalk] at hwalk'
    obtain ⟨_, hsame, -, hlast⟩ := hwalk'
    cases hsame
    rcases hlast with ⟨-, hup⟩ | ⟨-, -, hdown⟩
    · exact Or.inr (Or.inl hup)
    · exact Or.inr (Or.inr hdown)

/-- The temporary file is another one than the file of the path. -/
theorem ne_of_locate_temporaryPath {a t : Location} (ha : fs.locate p = .ok a)
    (ht : fs.locate (temporaryPath host p) = .ok t) : a ≠ t := by
  have hending := length_encode_temporaryEnding host
  have hlength := length_encode_append p.name (temporaryEnding host)
  have hlong : FileName.encode (p.name ++ temporaryEnding host) ≠ [0x2E, 0x2E] := by
    intro hdots
    rw [hdots] at hlength
    simp only [List.length_cons, List.length_nil] at hlength
    omega
  obtain ⟨-, -, -, at_, hwalk, -, rfl⟩ := (locate_child_iff hlong).1 ht
  intro hsame
  have hlengths := congrArg List.length hsame
  rw [List.length_append, List.length_singleton] at hlengths
  rcases locate_cases ha hwalk with rfl | rfl | rfl
  · omega
  · rw [List.length_dropLast] at hlengths
    omega
  · have hlast := List.singleton_inj.1 (List.append_cancel_left hsame)
    rw [← hlast] at hlength
    omega

/-- If bytes are not put under a path, what was read there is read there. -/
theorem read_replaceFile_of_error {old : Bytes} (hread : fs.read p = .ok old)
    (h : replaceFile host fs p data = (.error e, fs')) : fs'.read p = .ok old := by
  have hkeeps := keepsFiles_replaceFile h
  obtain ⟨a, ha, hfile⟩ := read_eq_ok_iff.1 hread
  have ha' := locate_of_keeps hkeeps.directories ha
  refine read_eq_ok_iff.2 ⟨a, ha', ?_⟩
  rcases hkeeps.files a with hsame | htemporary
  · rw [hsame]
    exact hfile
  · exact (ne_of_locate_temporaryPath ha' htemporary rfl).elim

end Container

namespace Chunks

variable {chunks : Chunks} {name : Text}

theorem get?_eq_none_iff : get? name chunks = none ↔ name ∉ chunks.map (·.1) := by
  rw [get?, Option.map_eq_none_iff, List.find?_eq_none, List.mem_map, not_exists]
  apply forall_congr'
  intro chunk
  rw [decide_eq_true_eq, not_and]

/-- A chunk under a new name comes last. -/
theorem set_of_get?_eq_none (h : get? name chunks = none) (data : Bytes) :
    set name data chunks = chunks ++ [(name, data)] := by
  rw [get?_eq_none_iff] at h
  induction chunks with
  | nil => rfl
  | cons chunk rest ih =>
    rw [List.map_cons, List.mem_cons, not_or] at h
    rw [set, if_neg (Ne.symm h.1), ih h.2, List.cons_append]

theorem get?_cons (chunk : Text × Bytes) (chunks : Chunks) (name : Text) :
    get? name (chunk :: chunks) = if name = chunk.1 then some chunk.2 else get? name chunks := by
  by_cases h : name = chunk.1
  · simp [get?, h]
  · simp [get?, h, Ne.symm h]

end Chunks

namespace Container

variable {host : Host} {fs fs' : FileSystem} {p : Path} {name : Text} {data : Bytes}
  {old c : Container}

theorem isDecoded_of_load (h : load host fs p = .ok old) :
    ∃ bytes, IsDecoded host.hash bytes old := by
  obtain ⟨bytes, -, hdecode⟩ := Result.bind_eq_ok_iff.1 h
  exact ⟨bytes, isDecoded_of_decode (Result.mapError_eq_ok_iff.1 hdecode)⟩

/-- The names in a container that was loaded are different. -/
theorem nodup_of_load (h : load host fs p = .ok old) : (old.chunks.map (·.1)).Nodup := by
  obtain ⟨bytes, hdecoded⟩ := isDecoded_of_load h
  exact hdecoded.nodup_names

/-- The names in a container that was loaded are valid. -/
theorem validateName_of_load (h : load host fs p = .ok old)
    (hname : (Chunks.get? name old.chunks).isSome = true) :
    ∃ bytes, validateName name = .ok bytes := by
  obtain ⟨bytes, hdecoded⟩ := isDecoded_of_load h
  have hmem : name ∈ old.chunks.map (·.1) := by
    by_contra hnot
    rw [Chunks.get?_eq_none_iff.2 hnot] at hname
    cases hname
  rw [hdecoded.map_fst_chunks] at hmem
  obtain ⟨r, hr, rfl⟩ := List.mem_map.1 hmem
  exact hdecoded.isTable.valid r hr

/-- A container that was written with a new chunk is loaded with it. -/
theorem load_of_write_set (hold : load host fs p = .ok old)
    (hnew : Chunks.get? name old.chunks = none)
    (h : write host fs p (Chunks.set name data old.chunks) = (.ok (), fs')) :
    ∃ c, load host fs' p = .ok c ∧ c.chunks.Perm ((name, data) :: old.chunks) := by
  rw [Chunks.set_of_get?_eq_none hnew] at h
  have hdistinct : ((old.chunks ++ [(name, data)]).map (·.1)).Nodup := by
    rw [List.map_append, List.map_singleton, List.nodup_append_comm]
    exact List.nodup_cons.2 ⟨Chunks.get?_eq_none_iff.1 hnew, nodup_of_load hold⟩
  obtain ⟨c, hload, hchunks⟩ := load_of_write hdistinct h
  refine ⟨c, hload, ?_⟩
  rw [hchunks]
  exact (Chunks.sorted_perm _).trans (List.perm_append_singleton _ _)

/-- If a container is not written, what was read under its path is read there. -/
theorem read_write_of_error {chunks : Chunks} {e : StoreError} {bytes : Bytes}
    (hread : fs.read p = .ok bytes) (h : write host fs p chunks = (.error e, fs')) :
    fs'.read p = .ok bytes := by
  cases hencode : encode host.hash chunks with
  | error e' =>
    cases (write_of_error hencode).symm.trans h
    exact hread
  | ok data =>
    rw [write_of_encode hencode] at h
    obtain ⟨hresult, rfl⟩ := Prod.mk.inj h
    obtain ⟨e', he', -⟩ := Result.mapError_eq_error_iff.1 hresult
    exact read_replaceFile_of_error hread (Prod.ext he' rfl)

/-! ## Adding a chunk -/

/-- What adding a chunk can come to: it is refused, and the path has the bytes that it had,
or it is there beside the chunks from before. -/
inductive Appended (host : Host) (fs : FileSystem) (p : Path) (name : Text) (data : Bytes) :
    Except StoreError Container × FileSystem → Prop
  | refused {e : StoreError} {fs' : FileSystem} (hread : fs'.read p = fs.read p) :
    Appended host fs p name data (.error e, fs')
  | added {old c : Container} {fs' : FileSystem} (hold : load host fs p = .ok old)
    (hnew : Chunks.get? name old.chunks = none)
    (hload : load host fs' p = .ok c) (hchunks : c.chunks.Perm ((name, data) :: old.chunks)) :
    Appended host fs p name data (.ok c, fs')

theorem appended_append (host : Host) (fs : FileSystem) (p : Path) (name : Text) (data : Bytes) :
    Appended host fs p name data (append host fs p name data) := by
  unfold append
  split
  · exact .refused rfl
  split
  · exact .refused rfl
  rename_i old hold
  split
  · exact .refused rfl
  rename_i hpresent
  have hnew : Chunks.get? name old.chunks = none := by simpa using hpresent
  split
  · rename_i e fs' hwrite
    obtain ⟨bytes, hread, -⟩ := Result.bind_eq_ok_iff.1 hold
    have hread := Result.mapError_eq_ok_iff.1 hread
    exact .refused ((read_write_of_error hread hwrite).trans hread.symm)
  · rename_i fs' hwrite
    obtain ⟨c, hload, hchunks⟩ := load_of_write_set hold hnew hwrite
    rw [hload]
    exact .added hold hnew hload hchunks

/-- A new valid name is added by writing the container anew and loading it. -/
theorem fst_append_of_new {raw : Bytes} (hold : load host fs p = .ok old)
    (hvalid : validateName name = .ok raw) (hnew : Chunks.get? name old.chunks = none) :
    (append host fs p name data).1 = (do
      (write host fs p (Chunks.set name data old.chunks)).1
      load host (write host fs p (Chunks.set name data old.chunks)).2 p) := by
  have habsent : ¬ (Chunks.get? name old.chunks).isSome = true := by simp [hnew]
  unfold append
  rw [hvalid, hold]
  dsimp only
  rw [if_neg habsent]
  split
  · rename_i hwrite
    rw [hwrite]
    rfl
  · rename_i hwrite
    rw [hwrite]
    rfl

/-- Adding a chunk is all or nothing.  If it fails, the path has the bytes that it had.  If it
returns a container, that is the one which is loaded from the path now: it has the chunks
that were there, byte for byte, and the new one.  A name that is there is refused, and a new
valid name is not, if the container can be written. -/
theorem append_adds_or_keeps (host : Host) (fs : FileSystem) (p : Path) (name : Text)
    (data : Bytes) :
    (∀ e fs', append host fs p name data = (.error e, fs') → fs'.read p = fs.read p) ∧
    (∀ c fs', append host fs p name data = (.ok c, fs') → load host fs' p = .ok c ∧
      ∃ old, load host fs p = .ok old ∧ c.chunks.Perm ((name, data) :: old.chunks) ∧
        ∀ other, Chunks.get? other c.chunks
          = if other = name then some data else Chunks.get? other old.chunks) ∧
    (∀ old, load host fs p = .ok old → (Chunks.get? name old.chunks).isSome = true →
      append host fs p name data
        = (.error (.container (.alreadyPresent p.toText name)), fs)) ∧
    (∀ old raw, load host fs p = .ok old → validateName name = .ok raw →
      Chunks.get? name old.chunks = none →
      (write host fs p (Chunks.set name data old.chunks)).1 = .ok () →
      ∃ c, (append host fs p name data).1 = .ok c) := by
  have happended := appended_append host fs p name data
  refine ⟨?_, ?_, ?_, ?_⟩
  · intro e fs' h
    rw [h] at happended
    cases happended with
    | refused hread => exact hread
  · intro c fs' h
    rw [h] at happended
    cases happended with
    | @added old _ _ hold hnew hload hchunks =>
      refine ⟨hload, old, hold, hchunks, fun other => ?_⟩
      have hdistinct : (((name, data) :: old.chunks).map (·.1)).Nodup :=
        List.nodup_cons.2 ⟨Chunks.get?_eq_none_iff.1 hnew, nodup_of_load hold⟩
      rw [Chunks.get?_eq_of_perm hchunks hdistinct, Chunks.get?_cons]
  · intro old hold hpresent
    obtain ⟨raw, hvalid⟩ := validateName_of_load hold hpresent
    unfold append
    rw [hvalid, hold]
    dsimp only
    rw [if_pos hpresent]
  · intro old raw hold hvalid hnew hwrite
    obtain ⟨c, hload, -⟩ := load_of_write_set hold hnew (Prod.ext hwrite rfl)
    refine ⟨c, ?_⟩
    rw [fst_append_of_new hold hvalid hnew, hwrite]
    exact hload

/-! ## A container to which a chunk is added -/

/-- A host with the sample hash. -/
def looseHost : Host := ⟨sampleHash, "1"⟩

/-- The same bytes as `c.dca` and as `d.dca`, and a directory where the temporary file of the
second would be. -/
def twoFiles (data : Bytes) : FileSystem :=
  (((FileSystem.empty ⟨.single, []⟩).put [FileName.encode "c.dca"] (.file data)).put
    [FileName.encode "d.dca"] (.file data)).put [FileName.encode "d.dca.tmp.1"] .directory

theorem read_twoFiles (data : Bytes) : (twoFiles data).read (Path.parse "c.dca") = .ok data ∧
    (twoFiles data).read (Path.parse "d.dca") = .ok data := by
  constructor
  · cbv
  · cbv

theorem fst_replaceFile_twoFiles (old new : Bytes) :
    (replaceFile looseHost (twoFiles old) (Path.parse "c.dca") new).1 = .ok () ∧
    (replaceFile looseHost (twoFiles old) (Path.parse "d.dca") new).1
      = .error (.os .isDirectory "d.dca.tmp.1" none) := by
  constructor
  · cbv
  · cbv

/-- What the loose file holds, and this with a chunk more. -/
def looseChunks : Chunks := [("Docs", [0x64, 0x6F]), ("Attr", [0x61])]

def moreChunks : Chunks := Chunks.set "Info" [7] looseChunks

/-- To the first file a chunk is added, unless it has one of that name.  The second stays as
it is. -/
theorem append_twoFiles :
    (∃ c fs', append looseHost (twoFiles looseFile) (Path.parse "c.dca") "Info" [7]
        = (.ok c, fs') ∧
      load looseHost fs' (Path.parse "c.dca") = .ok c ∧
      c.chunks.Perm (("Info", [7]) :: looseChunks)) ∧
    append looseHost (twoFiles looseFile) (Path.parse "c.dca") "Docs" [7]
      = (.error (.container (.alreadyPresent "c.dca" "Docs")), twoFiles looseFile) ∧
    ∃ e fs', append looseHost (twoFiles looseFile) (Path.parse "d.dca") "Info" [7]
        = (.error e, fs') ∧
      fs'.read (Path.parse "d.dca") = .ok looseFile := by
  obtain ⟨hfirst, hsecond⟩ := read_twoFiles looseFile
  have hdecode : decode looseHost.hash looseFile = .ok ⟨looseChunks, looseRegions⟩ :=
    decode_looseFile
  -- From here on it does not matter what the bytes are.
  generalize looseFile = file at *
  have hload {p : Path} (hread : (twoFiles file).read p = .ok file) :
      load looseHost (twoFiles file) p = .ok ⟨looseChunks, looseRegions⟩ :=
    Result.bind_eq_ok_iff.2 ⟨file, Result.mapError_eq_ok_iff.2 hread,
      Result.mapError_eq_ok_iff.2 hdecode⟩
  have hname : validateName "Info" = .ok [0x49, 0x6E, 0x66, 0x6F] := by cbv
  have habsent : Chunks.get? "Info" looseChunks = none := by cbv
  have hpresent : (Chunks.get? "Docs" looseChunks).isSome = true := by cbv
  obtain ⟨new, hnew⟩ : ∃ new, encode looseHost.hash moreChunks = .ok new :=
    Result.exists_of_isOk (by cbv)
  have hwrite (p : Path) : (write looseHost (twoFiles file) p moreChunks).1
      = (replaceFile looseHost (twoFiles file) p new).1.mapError .file := by
    rw [write, hnew]
  obtain ⟨hreplaced, hblocked⟩ := fst_replaceFile_twoFiles file new
  refine ⟨?_, ?_, ?_⟩
  · obtain ⟨-, hadded, -, hsucceeds⟩ :=
      append_adds_or_keeps looseHost (twoFiles file) (Path.parse "c.dca") "Info" [7]
    have hwritten :
        (write looseHost (twoFiles file) (Path.parse "c.dca") moreChunks).1 = .ok () := by
      rw [hwrite, hreplaced]
      rfl
    obtain ⟨c, hc⟩ := hsucceeds _ _ (hload hfirst) hname habsent hwritten
    obtain ⟨hloadNew, old, hold, hchunks, -⟩ := hadded c _ (Prod.ext hc rfl)
    cases (hload hfirst).symm.trans hold
    exact ⟨c, _, Prod.ext hc rfl, hloadNew, hchunks⟩
  · exact (append_adds_or_keeps looseHost (twoFiles file) (Path.parse "c.dca") "Docs" [7]).2.2.1
      _ (hload hfirst) hpresent
  · obtain ⟨hkept, -⟩ :=
      append_adds_or_keeps looseHost (twoFiles file) (Path.parse "d.dca") "Info" [7]
    have hfailed : (append looseHost (twoFiles file) (Path.parse "d.dca") "Info" [7]).1
        = .error (.file (.os .isDirectory "d.dca.tmp.1" none)) := by
      rw [fst_append_of_new (hload hsecond) hname habsent]
      change (write looseHost (twoFiles file) (Path.parse "d.dca") moreChunks).1 >>= _ = _
      rw [hwrite, hblocked]
      rfl
    exact ⟨_, _, Prod.ext hfailed rfl, (hkept _ _ (Prod.ext hfailed rfl)).trans hsecond⟩

end Container

end ModuleDocs
