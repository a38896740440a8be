import Mathlib
import ModuleDocs.Proofs.Chunk.Errors
import ModuleDocs.Proofs.Compile.Check
import ModuleDocs.Proofs.Compile.ContainerPath
import ModuleDocs.Proofs.Container.Replace
import ModuleDocs.Proofs.Source.Contents
import ModuleDocs.Proofs.Source.Interface
import ModuleDocs.Proofs.Source.Payload

/-!
# What stops the compilation of a source

Whatever is wrong with a source should be a diagnostic of its unit.  `Compile.Stops` lists
what is none: reading that comes to a path the system does not take, a count that does not
fit its field, and a container whose path the system does not take.  `unit_fails_iff` says
that nothing else stops the compilation of a source that is within the limits.
-/

namespace ModuleDocs

open Result

/-! ## Terms of sources -/

/-- A term as sources write it and normalizing leaves it. -/
structure Term.IsModest (t : Term) : Prop where
  onMaps : t.OnMaps Items.IsDict
  isShort : t.IsShort
  isReadable : Collector.IsReadable t

theorem Source.isLiteral_isModest : IsLiteral Token.IsPure Term.IsModest where
  text := fun t => ⟨trivial, isLiteral_isShort.text t, nofun⟩
  atom := fun t => ⟨trivial, isLiteral_isShort.atom t, nofun⟩
  tagged := fun data encoding => ⟨trivial, isLiteral_isShort.tagged data encoding, nofun⟩
  funRef := fun name arity n hname harity hn =>
    ⟨trivial, isLiteral_isShort.funRef name arity n hname harity hn, nofun⟩
  integer := fun token n htoken hn =>
    ⟨trivial, isLiteral_isShort.integer token n htoken hn, nofun⟩
  negative := fun token n htoken hn =>
    ⟨trivial, isLiteral_isShort.negative token n htoken hn, nofun⟩
  list := fun items => ⟨trivial, isLiteral_isShort.list items, nofun⟩
  tuple := fun items => ⟨trivial, isLiteral_isShort.tuple items, nofun⟩
  map := fun items hitems =>
    ⟨Items.isDict_ofPairs hitems, isLiteral_isShort.map items hitems, nofun⟩

theorem isNormal_isModest : IsNormal Term.IsModest where
  bytes := fun data t hdata =>
    ⟨trivial, trivial, Collector.isNormal_isReadable.bytes data t hdata⟩
  tuple := fun _ => ⟨trivial, trivial, nofun⟩

theorem Items.IsKeyed.imp {P Q : Term → Prop} {items : Items} (h : items.IsKeyed P)
    (hPQ : ∀ t, P t → Q t) : items.IsKeyed Q :=
  ⟨h.texts, h.distinct, fun item hitem => (h.values item hitem).imp hPQ⟩

theorem Contribution.IsSound.imp {P Q : Term → Prop} {L M : Int → Prop} {x : Contribution}
    (h : x.IsSound P L) (hPQ : ∀ t, P t → Q t) (hLM : ∀ line, L line → M line) : x.IsSound Q M :=
  ⟨fun items hitems => (h.metadata items hitems).imp hPQ,
    fun line hline => hLM line (h.line line hline)⟩

namespace Compile

variable {host : Host} {options : CompileOptions} {home : Path} {fs : FileSystem} {source : Path}
  {result : UnitResult} {checked : Checked}

/-- A line that fits its field. -/
def FitsLine (line : Int) : Prop := line ≤ 0xFFFFFFFF

/-! ## Checking -/

/-- The metadata of an event keeps the values of the map that was written. -/
theorem every_metadataOf {items : Items} (h : (Term.map items).Every Term.IsShort) :
    (Source.metadataOf items).Every Term.IsShort := by
  refine ⟨trivial, Term.everyPair_iff.2 fun item hitem => ?_⟩
  obtain ⟨⟨key, value⟩, hmem, rfl⟩ := List.mem_map.1 hitem
  obtain ⟨hkey, hvalue⟩ := Term.everyPair_iff.1 h.2 _ hmem
  cases key with
  | atom t => exact ⟨trivial, hvalue⟩
  | _ => exact ⟨hkey, hvalue⟩

/-- The events of a unit that was read have a table, or something is wrong with their
documentation. -/
theorem ofEvents_failsWith_of_read (hschema : options.schema.IsKnown)
    (hfiles : fs.Holds home Source.HasLimitedTokens) {unit : Source.SourceUnit}
    {diagnostics : List Diagnostic}
    (h : Source.SourceUnit.read fs options.includePaths source = .ok (some unit, diagnostics))
    (source? : Option Text) : FailsWith UnitError.IsDoc
      (DocTable.ofEvents unit.module unit.events unit.exports options.schema source?) := by
  have htokens := Source.allTokens_of_holds hfiles
  have hfrom := Source.exists_form_of_read (fun p origin? forms hforms =>
    Source.sound_of_readForms (Source.isLiteral_isModest.of_imp fun _ h => h.isPure) htokens
      hforms) h
  refine DocTable.ofEvents_failsWith hschema (fun event hevent => ?_) ?_
  · obtain ⟨form, hform, hevent⟩ := hfrom event hevent
    refine ⟨hevent.isEvent, hevent.ownModule, fun m hm => ?_⟩
    obtain ⟨items, hvalue, rfl⟩ := hevent.metadata m hm
    have hshort := hform.value.imp fun t ht => ht.isShort
    rw [hvalue] at hshort
    exact every_metadataOf hshort
  · intro event hevent x hx
    obtain ⟨form, hform, hevent⟩ := hfrom event hevent
    have hsound := Source.isSound_of_isFrom (L := FitsLine) (fun t ht => ht.onMaps)
      (fun token htoken => Int.ofNat_le.2 htoken.line) hform hevent hx
    exact hsound.imp (fun t ht => ht.isReadable) fun _ _ => trivial

/-- Checking a source fails just when reading it does. -/
theorem check_fails_iff (hschema : options.schema.IsKnown)
    (hfiles : fs.Holds home Source.HasLimitedTokens) (hhome : home.IsNameable)
    (hsource : source.IsNameable) :
    Fails (check fs options source) ↔ Source.StopsReading fs options.includePaths source := by
  have htokens := (Source.allTokens_of_holds hfiles).of_imp fun _ h => h.digits
  rw [← Source.read_fails_iff htokens (hfiles.workingDirectory ▸ hhome) hsource]
  unfold check
  rw [fails_bind_iff, fails_mapError_iff]
  refine or_iff_left ?_
  rintro ⟨⟨unit?, diagnostics⟩, hread, hfails⟩
  have hread := mapError_eq_ok_iff.1 hread
  cases unit? with
  | none => exact not_fails_ok _ hfails
  | some unit =>
    simp only at hfails
    split at hfails
    · exact not_fails_ok _ hfails
    split at hfails
    · exact not_fails_ok _ hfails
    · exact not_fails_ok _ hfails
    · rename_i e hdoc he
      obtain ⟨d, rfl⟩ := ofEvents_failsWith_of_read hschema hfiles hread _ e he
      exact hdoc d rfl

/-! ## Encoding -/

/-- A number in the table of a checked source is too large for its field just if it is the
count of what a list, a map or the chunk itself holds. -/
theorem encode_failsWith_of_check (hfiles : fs.Holds home Source.HasLimitedTokens)
    (h : check fs options source = .ok (result, some checked)) (format : Text) :
    FailsWith ChunkError.IsCount (checked.table.encode format) := by
  have hliteral : Source.IsLiteral Source.Token.IsLimited Term.IsModest :=
    Source.isLiteral_isModest.of_imp fun _ h => h.isPure
  have hentries := forall_entries_of_check (L := FitsLine) hliteral isNormal_isModest
    (fun t ht => ht.onMaps) (fun token htoken => Int.ofNat_le.2 htoken.line)
    (by norm_num [FitsLine]) (Source.allTokens_of_holds hfiles) h
  refine DocTable.encode_failsWith (fun e he => ⟨(hentries e he).2, ?_⟩) format
  have hkeyed := (hentries e he).1
  refine ⟨trivial, Term.everyPair_iff.2 fun item hitem => ⟨?_, ?_⟩⟩
  · obtain ⟨t, ht⟩ := hkeyed.texts item hitem
    rw [ht]
    trivial
  · exact (hkeyed.values item hitem).imp fun t ht => ht.isShort

theorem encodeTable_fails_iff {table : DocTable}
    (h : FailsWith ChunkError.IsCount (table.encode options.docFormat)) :
    Fails (encodeTable options source table) ↔
      table.encode options.docFormat = .error (.term .countOutOfRange) := by
  unfold encodeTable
  split
  · rename_i hencode
    exact iff_of_false (not_fails_ok _) (by simp [hencode])
  · rename_i e hencode
    split
    · rename_i hoverflow
      rw [hencode, h e hencode hoverflow]
      exact iff_of_true ⟨_, rfl⟩ rfl
    · rename_i hreported
      refine iff_of_false (not_fails_ok _) fun hcount => hreported ?_
      cases hencode.symm.trans hcount
      rfl

theorem docsChunk_fails_iff {table : DocTable}
    (h : FailsWith ChunkError.IsCount (table.encode options.docFormat)) :
    Fails (docsChunk options source table) ↔ options.emitDocs = true ∧
      table.encode options.docFormat = .error (.term .countOutOfRange) := by
  unfold docsChunk
  cases options.emitDocs with
  | true => simpa using fails_bind_pure_iff.trans (encodeTable_fails_iff h)
  | false => exact iff_of_false (not_fails_ok _) (by simp)

theorem chunksOf_fails_iff (hfiles : fs.Holds home Source.HasLimitedTokens)
    (h : check fs options source = .ok (result, some checked)) :
    Fails (chunksOf options source checked) ↔ options.emitDocs = true ∧
      checked.table.encode options.docFormat = .error (.term .countOutOfRange) := by
  obtain ⟨_, hread, _⟩ := check_eq_ok h
  obtain ⟨interface, hinterface⟩ :=
    Source.exists_encodeInterface (Source.allTokens_of_holds hfiles) hread
  rw [← docsChunk_fails_iff (encode_failsWith_of_check hfiles h options.docFormat)]
  unfold chunksOf
  rw [hinterface]
  exact fails_bind_pure_iff

/-! ## Units -/

/-- What stops the compilation of a source and is no diagnostic of its unit. -/
inductive Stops (host : Host) (options : CompileOptions) (fs : FileSystem) (source : Path) : Prop
  /-- A lookup comes to a path that is too long, or a text is named by a path that cannot
  be given to the system. -/
  | reading (hreading : Source.StopsReading fs options.includePaths source)
  /-- The documentation holds a list or map of 2 ^ 32 members, or so many entries. -/
  | counting {result : UnitResult} {checked : Checked}
    (hcheck : check fs options source = .ok (result, some checked))
    (hdocs : options.emitDocs = true)
    (hcount : checked.table.encode options.docFormat = .error (.term .countOutOfRange))
  /-- All checks are passed, and the container has a path that cannot be given to the
  system, which nothing finds out before the container is to be written. -/
  | storing {result : UnitResult} {module : Text} {chunks : Chunks} {data : Bytes}
    (hbuild : build options fs source = .ok (result, some (module, chunks)))
    (hdata : Container.encode host.hash chunks = .ok data)
    (hpath : ¬ (containerPath source module options).IsNameable)
    (hparent : (containerPath source module options).parent.IsNameable →
      (fs.makeDirectories (containerPath source module options).parent).1 = .ok ())

theorem build_fails_iff (hschema : options.schema.IsKnown)
    (hfiles : fs.Holds home Source.HasLimitedTokens) (hhome : home.IsNameable)
    (hsource : source.IsNameable) : Fails (build options fs source) ↔
      Source.StopsReading fs options.includePaths source ∨ ∃ result checked,
        check fs options source = .ok (result, some checked) ∧ options.emitDocs = true ∧
          checked.table.encode options.docFormat = .error (.term .countOutOfRange) := by
  rw [← check_fails_iff hschema hfiles hhome hsource]
  unfold build
  refine fails_bind_iff.trans (or_congr_right ⟨?_, ?_⟩)
  · rintro ⟨⟨result, checked?⟩, hcheck, hfails⟩
    cases checked? with
    | none => exact (not_fails_ok _ hfails).elim
    | some checked =>
      refine ⟨result, checked, hcheck, (chunksOf_fails_iff hfiles hcheck).1 ?_⟩
      rcases fails_bind_iff.1 hfails with hfails | ⟨chunks, _, hfails⟩
      · exact hfails
      · cases chunks <;> exact (not_fails_ok _ hfails).elim
  · rintro ⟨result, checked, hcheck, hcount⟩
    exact ⟨_, hcheck, fails_bind_iff.2 (Or.inl ((chunksOf_fails_iff hfiles hcheck).2 hcount))⟩

theorem stored_fails_iff {p : Path} {verb : String} {written : Except StoreError Unit} :
    Fails (stored result p verb written) ↔ ∃ e, written = .error (.file e) ∧ ¬ e.IsOs := by
  unfold stored
  split
  · simp [not_fails_ok]
  · rename_i e
    simp only
    split
    · simp [not_fails_ok]
    · simp [not_fails_ok, FileError.IsOs]
    · rename_i e hos
      refine iff_of_true ⟨_, rfl⟩ ⟨e, rfl, ?_⟩
      rintro ⟨cause, t, target?, rfl⟩
      exact hos cause t target? rfl

/-- The compilation of a source that is within the limits fails just when it is stopped by
what is no diagnostic. -/
theorem unit_fails_iff (htag : host.processTag.all FileName.canHold = true)
    (hschema : options.schema.IsKnown) (hfiles : fs.Holds home Source.HasLimitedTokens)
    (hhome : home.IsNameable) (hsource : source.IsNameable) :
    Fails (unit host options fs source).1 ↔ Stops host options fs source := by
  have hbuild := build_fails_iff hschema hfiles hhome hsource
  unfold unit
  constructor
  · intro hfails
    split at hfails
    · rename_i e he
      rcases hbuild.1 ⟨e, he⟩ with hreading | ⟨result, checked, hcheck, hdocs, hcount⟩
      · exact .reading hreading
      · exact .counting hcheck hdocs hcount
    · exact (not_fails_ok _ hfails).elim
    · rename_i result module chunks hbuilt
      obtain ⟨e, hwrite, hos⟩ := stored_fails_iff.1 hfails
      cases hencode : Container.encode host.hash chunks with
      | error e' => simp [Container.write_of_error hencode] at hwrite
      | ok data =>
        have hpath := (Container.write_escapes_iff htag (names_containerPath source module options)
          hencode).1 ⟨e, hwrite, hos⟩
        exact .storing hbuilt hencode hpath.1 hpath.2
  · rintro (hreading | ⟨hcheck, hdocs, hcount⟩ | ⟨hbuilt, hencode, hpath, hparent⟩)
    · obtain ⟨e, he⟩ := hbuild.2 (Or.inl hreading)
      simp only [he]
      exact ⟨e, rfl⟩
    · obtain ⟨e, he⟩ := hbuild.2 (Or.inr ⟨_, _, hcheck, hdocs, hcount⟩)
      simp only [he]
      exact ⟨e, rfl⟩
    · simp only [hbuilt]
      exact stored_fails_iff.2 ((Container.write_escapes_iff htag (names_containerPath _ _ _)
        hencode).2 ⟨hpath, hparent⟩)

end Compile

end ModuleDocs
