import Mathlib
import ModuleDocs.Proofs.Collector.History
import ModuleDocs.Proofs.Collector.Metadata

/-!
# Why events have no table

Errors about documentation become diagnostics (`UnitError.IsDoc`), in the place that they are
about (`UnitError.IsIn`).  `UnitError.Blames P other` says both of an error: documentation is
blamed in places with the property `P`, and anything else only under the condition `other`.

What is wrong with an event is reported in its place, and what is wrong with an entry on its line
(`DocTable.ofEvents_blames`).  Events have no other errors (`DocTable.ofEvents_failsWith`) where
the schema has known shapes, the only module that is named is the unit's own, and all numbers can
be written in decimal digits.
-/

namespace ModuleDocs

open Result

/-- The place that an error is about. -/
def DocError.span : DocError → Span
  | .duplicate _ _ span | .encoding _ span | .metadataType _ _ _ span => span

theorem DocError.span_toDiagnostic (e : DocError) : e.toDiagnostic.span = e.span := by
  cases e <;> rfl

/-- A line of a file, if it is known. -/
def Span.ofLine (file? : Option Text) (line : Int) : Span :=
  { Span.unknown with file?, line? := if line = 0 then none else some line }

variable {P : Span → Prop} {other : Prop} {span : Span}

/-! ## Kinds of errors -/

namespace UnitError

/-- An error about documentation. -/
def IsDoc (e : UnitError) : Prop := ∃ d, e = .doc d

/-- Errors about documentation are in such places. -/
def IsIn (P : Span → Prop) (e : UnitError) : Prop := ∀ d, e = .doc d → P d.span

/-- Documentation is blamed in such places, and anything else only under the condition. -/
structure Blames (P : Span → Prop) (other : Prop) (e : UnitError) : Prop where
  isIn : e.IsIn P
  isDoc : other ∨ e.IsDoc

theorem blames_doc {d : DocError} (h : P d.span) : Blames P other (.doc d) where
  isIn := by
    intro d' hd
    cases hd
    exact h
  isDoc := .inr ⟨d, rfl⟩

theorem blames_of_ne {e : UnitError} (hother : other) (h : ∀ d, e ≠ .doc d) : e.Blames P other where
  isIn := fun d hd => absurd hd (h d)
  isDoc := .inl hother

end UnitError

namespace NormalizeError

/-- An error about documentation. -/
def IsDoc (e : NormalizeError) : Prop := ∃ d, e = .doc d

/-- Documentation is blamed in such places, and anything else only under the condition. -/
structure Blames (P : Span → Prop) (other : Prop) (e : NormalizeError) : Prop where
  isIn : ∀ d, e = .doc d → P d.span
  isDoc : other ∨ e.IsDoc

theorem blames_doc {d : DocError} (h : P d.span) : Blames P other (.doc d) where
  isIn := by
    intro d' hd
    cases hd
    exact h
  isDoc := .inr ⟨d, rfl⟩

theorem blames_of_ne {e : NormalizeError} (hother : other) (h : ∀ d, e ≠ .doc d) :
    e.Blames P other where
  isIn := fun d hd => absurd hd (h d)
  isDoc := .inl hother

theorem Blames.ofNormalize {e : NormalizeError} (h : e.Blames P other) :
    (UnitError.ofNormalize e).Blames P other := by
  cases e with
  | doc d => exact UnitError.blames_doc (h.isIn d rfl)
  | _ =>
    have hother := h.isDoc.resolve_right (by simp [IsDoc])
    exact UnitError.blames_of_ne hother (by simp [UnitError.ofNormalize])

end NormalizeError

/-! ## Numbers -/

namespace Term

/-- A number, if the term is or has one, that can be written in decimal digits. -/
def IsShort : Term → Prop
  | .int i | .funRef _ i => i.natAbs < Nat.pow 10 Decimal.maxDigits
  | _ => True

theorem exists_write {i : Int} (h : i.natAbs < Nat.pow 10 Decimal.maxDigits) :
    ∃ t, Decimal.write i = .ok t := by
  rw [Decimal.write, if_pos h]
  exact ⟨_, rfl⟩

mutual

/-- A term without long numbers can be shown. -/
theorem exists_display : ∀ t : Term, t.Every IsShort → ∃ shown, t.display = .ok shown
  | .none, _ | .bool true, _ | .bool false, _ | .float _, _ | .bytes _, _ | .text _, _ | .atom _, _
  | .tagged _ _, _ | .foreign _, _ => ⟨_, rfl⟩
  | .int _, h => exists_write h
  | .list items, h => by
    obtain ⟨parts, hparts⟩ := exists_displayAll items h.2
    exact ⟨_, bind_pure_eq_ok_iff.2 ⟨parts, hparts, rfl⟩⟩
  | .tuple items, h => by
    obtain ⟨parts, hparts⟩ := exists_displayAll items h.2
    exact ⟨_, bind_pure_eq_ok_iff.2 ⟨parts, hparts, rfl⟩⟩
  | .map items, h => by
    obtain ⟨parts, hparts⟩ := exists_displayItems items h.2
    exact ⟨_, bind_pure_eq_ok_iff.2 ⟨parts, hparts, rfl⟩⟩
  | .funRef _ _, h => by
    obtain ⟨arity, harity⟩ := exists_write h
    exact ⟨_, bind_pure_eq_ok_iff.2 ⟨arity, harity, rfl⟩⟩

theorem exists_displayAll : ∀ items : List Term, EveryItem IsShort items →
    ∃ parts, displayAll items = .ok parts
  | [], _ => ⟨[], rfl⟩
  | t :: rest, h => by
    obtain ⟨first, hfirst⟩ := exists_display t h.1
    obtain ⟨others, hothers⟩ := exists_displayAll rest h.2
    exact ⟨_, bind_eq_ok_iff.2 ⟨first, hfirst, bind_pure_eq_ok_iff.2 ⟨others, hothers, rfl⟩⟩⟩

theorem exists_displayItems : ∀ items : Items, EveryPair IsShort items →
    ∃ parts, displayItems items = .ok parts
  | [], _ => ⟨[], rfl⟩
  | (key, value) :: rest, h => by
    obtain ⟨name, hname⟩ := exists_display key h.1
    obtain ⟨shown, hshown⟩ := exists_display value h.2.1
    obtain ⟨others, hothers⟩ := exists_displayItems rest h.2.2
    exact ⟨_, bind_eq_ok_iff.2 ⟨name, hname, bind_eq_ok_iff.2 ⟨shown, hshown,
      bind_pure_eq_ok_iff.2 ⟨others, hothers, rfl⟩⟩⟩⟩

end

end Term

/-! ## Schemas -/

namespace Schema

variable {schema schema' : Schema}

/-- All shapes are known. -/
def IsKnown (schema : Schema) : Prop := ∀ line ∈ schema, ∀ name, line.2 ≠ .unknown name

theorem isKnown_default : IsKnown default := by
  simp [IsKnown, default]

theorem isKnown_set (h : schema.IsKnown) {key : Text} {shape : Shape}
    (hshape : ∀ name, shape ≠ .unknown name) : IsKnown (set key shape schema) := by
  induction schema with
  | nil => simpa [set, IsKnown] using hshape
  | cons line rest ih =>
    obtain ⟨hline, hrest⟩ := List.forall_mem_cons.1 h
    rw [set]
    split
    · exact List.forall_mem_cons.2 ⟨hshape, hrest⟩
    · exact List.forall_mem_cons.2 ⟨hline, ih hrest⟩

/-- A schema that was extended has known shapes. -/
theorem isKnown_of_extend {lines : List (Text × Text)} (h : schema.IsKnown)
    (hextend : extend schema lines = .ok schema') : schema'.IsKnown := by
  induction lines generalizing schema with
  | nil =>
    cases hextend
    exact h
  | cons line rest ih =>
    rw [extend] at hextend
    split at hextend
    · cases hextend
    · rename_i hknown
      exact ih (isKnown_set h hknown) hextend

theorem IsKnown.get? (h : schema.IsKnown) {key : Text} {shape : Shape}
    (hget : schema.get? key = some shape) (name : Text) : shape ≠ .unknown name := by
  obtain ⟨line, hline, rfl⟩ := Option.map_eq_some_iff.1 hget
  exact h line (List.mem_of_find?_eq_some hline) name

end Schema

/-! ## Normal form -/

namespace Term

variable {key : Term}

/-- The value of a key of the schema is refused in its place, unless its shape is unknown. -/
theorem normalizeShaped_blames {shape : Shape} (hshape : other ∨ ∀ name, shape ≠ .unknown name)
    (key : Text) (value : Term) (h : P span) :
    FailsWith (NormalizeError.Blames P other) (normalizeShaped key shape value span) := by
  have hdoc (d : DocError) (hd : d.span = span) : NormalizeError.Blames P other (.doc d) :=
    NormalizeError.blames_doc (hd ▸ h)
  unfold normalizeShaped
  split
  · split
    · exact FailsWith.mapError fun e _ => hdoc _ rfl
    · exact FailsWith.error (hdoc _ rfl)
  · split
    · split
      · exact FailsWith.mapError fun e _ => hdoc _ rfl
      · exact FailsWith.error (hdoc _ rfl)
    · split
      · exact FailsWith.mapError fun e _ => hdoc _ rfl
      · exact FailsWith.error (hdoc _ rfl)
    · exact FailsWith.error (hdoc _ rfl)
  · rename_i name
    have hother := hshape.resolve_right fun hknown => hknown name rfl
    exact FailsWith.error (NormalizeError.blames_of_ne hother (by simp))

/-- A key is named in the error about it, unless it is no string. -/
theorem keyError_blames (hkey : other ∨ key.chars?.isSome = true) {error : Text → DocError}
    (h : ∀ name, P (error name).span) : NormalizeError.Blames P other (keyError key error) := by
  unfold keyError
  split
  · exact NormalizeError.blames_doc (h _)
  · rename_i hplain
    refine NormalizeError.blames_of_ne (hkey.resolve_right fun hchars => ?_) (by simp)
    obtain ⟨name, hname⟩ := Option.isSome_iff_exists.1 hchars
    rw [plain, hname] at hplain
    cases hplain

theorem normalizeUnshaped_blames (hkey : other ∨ key.chars?.isSome = true) (value : Term)
    (h : P span) : FailsWith (NormalizeError.Blames P other) (normalizeUnshaped key value span) := by
  unfold normalizeUnshaped
  split
  · exact FailsWith.error (keyError_blames hkey fun _ => h)
  split
  · exact FailsWith.ok value
  · exact FailsWith.error (keyError_blames hkey fun _ => h)

theorem normalizeValue_blames {schema : Schema} (hschema : other ∨ schema.IsKnown)
    (hkey : other ∨ key.chars?.isSome = true) (value : Term) (h : P span) :
    FailsWith (NormalizeError.Blames P other) (normalizeValue schema key value span) := by
  unfold normalizeValue
  split
  · split
    · rename_i hget
      exact normalizeShaped_blames (hschema.imp_right fun hknown => hknown.get? hget) _ value h
    · exact normalizeUnshaped_blames hkey value h
  · exact normalizeUnshaped_blames hkey value h

end Term

theorem Items.normalize_blames {schema : Schema} (hschema : other ∨ schema.IsKnown) {items : Items}
    (hkeys : other ∨ ∀ item ∈ items, item.1.chars?.isSome = true) (h : P span) :
    FailsWith (NormalizeError.Blames P other) (Items.normalize schema span items) := by
  induction items with
  | nil => exact FailsWith.ok []
  | cons item rest ih =>
    have hkeys := hkeys.imp_right List.forall_mem_cons.1
    have hfirst := Term.normalizeValue_blames hschema (hkeys.imp_right And.left) item.2 h
    refine hfirst.bind fun normal _ => ?_
    exact (ih (hkeys.imp_right And.right)).bind fun others _ => FailsWith.ok _

/-- What is wrong with an entry is reported on its line. -/
theorem Entry.normalize_blames {schema : Schema} (hschema : other ∨ schema.IsKnown) {e : Entry}
    (hkeys : other ∨ ∀ item ∈ e.metadata, item.1.chars?.isSome = true) (source? : Option Text)
    (h : P (.ofLine source? e.line)) :
    FailsWith (NormalizeError.Blames P other) (e.normalize schema source?) := by
  refine FailsWith.bind ?_ fun content _ =>
    (Items.normalize_blames hschema hkeys h).bind fun metadata _ => FailsWith.ok _
  unfold Content.normalize
  split
  · split
    · exact FailsWith.ok _
    · exact FailsWith.error (NormalizeError.blames_doc h)
  · exact FailsWith.ok _

theorem Entry.normalize_failsWith {schema : Schema} (hschema : schema.IsKnown) {e : Entry}
    (hkeys : ∀ item ∈ e.metadata, item.1.chars?.isSome = true) (source? : Option Text) :
    FailsWith NormalizeError.IsDoc (e.normalize schema source?) := by
  have hblames : FailsWith (NormalizeError.Blames (fun _ => True) False)
      (e.normalize schema source?) :=
    Entry.normalize_blames (.inr hschema) (.inr hkeys) source? trivial
  exact hblames.imp fun e he => he.isDoc.resolve_left id

/-! ## Events -/

namespace Event

variable {event : Event}

/-- The value is an event, it is about no other module, and the numbers in its metadata can be
written in decimal digits. -/
structure IsPlain (module : EntityRef) (event : Event) : Prop where
  isEvent : ∀ value, event ≠ .foreign value
  ownModule : (event.about module).kind = .module → event.about module = module
  metadata : ∀ m ∈ event.metadata?, m.Every Term.IsShort

theorem span_of_textSpan? (h : event.textSpan? = some span) : event.span = span := by
  cases event with
  | moduleDoc payload place | entityDoc ref payload place =>
    cases h
    rfl
  | _ => cases h

end Event

namespace Collector

variable {c : Collector} {event : Event} {events : List Event} {schema : Schema}
  {exports : List (Text × Int)} {L : Int → Prop}

/-- What is wrong with an event is reported in its place. -/
theorem contribution_blames {module : EntityRef} (hevent : other ∨ event.IsPlain module)
    (h : P event.span) : FailsWith (UnitError.Blames P other) event.contribution := by
  refine (refused_of_contribution event).imp fun e he => ?_
  cases he with
  | payload _ | metadata _ _ _ => exact UnitError.blames_doc h
  | tooLong hmetadata hitem hdisplay =>
    refine UnitError.blames_of_ne (hevent.resolve_right fun hplain => ?_) (by simp)
    have hshort := Term.everyPair_iff.1 (hplain.metadata _ hmetadata).2 _ hitem
    obtain ⟨shown, hshown⟩ := Term.exists_display _ hshort.1
    cases hshown.symm.trans hdisplay
  | foreign hforeign =>
    have hother := hevent.resolve_right fun hplain => hplain.isEvent _ hforeign
    exact UnitError.blames_of_ne hother (by simp)

/-- A collector refuses an event in its place, unless it takes no more events or the event is not
plain. -/
theorem observe_blames (hopen : other ∨ c.isFinalized = false)
    (hevent : other ∨ event.IsPlain c.moduleRef) (h : P event.span) :
    FailsWith (UnitError.Blames P other) (c.observe event) := by
  rw [observe_eq]
  split
  · rename_i hfinalized
    have hother := hopen.resolve_right fun hnot => Bool.false_ne_true (hnot.symm.trans hfinalized)
    exact FailsWith.error (UnitError.blames_of_ne hother (by simp))
  refine FailsWith.bind ?_ fun ref _ => ?_
  · unfold ownRef
    split
    · rename_i hforeign
      have hother := hevent.resolve_right fun hplain => hforeign.2 (hplain.ownModule hforeign.1)
      exact FailsWith.error (UnitError.blames_of_ne hother (by simp))
    · exact FailsWith.ok _
  split
  · rename_i hspan _
    rw [Event.span_of_textSpan? hspan] at h
    exact FailsWith.error (UnitError.blames_doc h)
  · exact (contribution_blames hevent h).map

theorem observeAll_blames (hopen : other ∨ c.isFinalized = false)
    (hevents : other ∨ ∀ event ∈ events, event.IsPlain c.moduleRef)
    (h : ∀ event ∈ events, P event.span) :
    FailsWith (UnitError.Blames P other) (c.observeAll events).1 := by
  induction events generalizing c with
  | nil => exact FailsWith.ok ()
  | cons event rest ih =>
    have hevents := hevents.imp_right List.forall_mem_cons.1
    obtain ⟨hfirst, hrest⟩ := List.forall_mem_cons.1 h
    rw [observeAll]
    cases hobserve : c.observe event with
    | error e =>
      have hblames := observe_blames hopen (hevents.imp_right And.left) hfirst
      exact FailsWith.error (hblames e hobserve)
    | ok next =>
      obtain ⟨_, _, _, contribution, _, rfl⟩ := observe_eq_ok_iff.1 hobserve
      exact ih hopen (hevents.imp_right And.right) hrest

/-! ## Tables -/

/-- The term is UTF-8 if it is bytes. -/
def IsReadable (t : Term) : Prop := ∀ data, t = .bytes data → ∃ chars, Utf8.decode data = .ok chars

theorem isNormal_isReadable : IsNormal IsReadable where
  bytes := fun data chars hdata data' hsame => by
    cases hsame
    exact ⟨chars, hdata⟩
  tuple := fun items data hsame => by cases hsame

theorem finish_blames (hschema : other ∨ schema.IsKnown) {ref : EntityRef}
    {contributions : List Contribution}
    (hsound : other ∨ ∀ x ∈ contributions, x.IsSound IsReadable L)
    (h : P (.ofLine c.source? (Contribution.mergeLine contributions))) :
    FailsWith (UnitError.Blames P other) (c.finish schema exports ref contributions) := by
  have hkeys : other ∨ ∀ item ∈ Contribution.mergeMetadata (Contribution.metadataMaps contributions),
      item.1.chars?.isSome = true := by
    refine hsound.imp_right fun hsound item hitem => ?_
    have hkeyed := Contribution.isKeyed_mergeMetadata (Contribution.isKeyed_metadataMaps hsound)
    obtain ⟨t, ht⟩ := hkeyed.texts item hitem
    rw [ht]
    rfl
  exact FailsWith.mapError ((Entry.normalize_blames hschema hkeys c.source? h).imp fun e he =>
    he.ofNormalize)

theorem finishAll_blames (hschema : other ∨ schema.IsKnown)
    {lines : List (EntityRef × List Contribution)}
    (hsound : other ∨ ∀ line ∈ lines, ∀ x ∈ line.2, x.IsSound IsReadable L)
    (h : ∀ line ∈ lines, P (.ofLine c.source? (Contribution.mergeLine line.2))) :
    FailsWith (UnitError.Blames P other) (c.finishAll schema exports lines) := by
  induction lines with
  | nil => exact FailsWith.ok []
  | cons line rest ih =>
    have hsound := hsound.imp_right List.forall_mem_cons.1
    obtain ⟨hfirst, hrest⟩ := List.forall_mem_cons.1 h
    refine (finish_blames hschema (hsound.imp_right And.left) hfirst).bind fun e _ => ?_
    exact (ih (hsound.imp_right And.right) hrest).bind fun others _ => FailsWith.ok _

theorem formatOf_blames {module : Entry} (h : other ∨ module.metadata.IsKeyed IsReadable) :
    FailsWith (UnitError.Blames P other) (formatOf module) := by
  unfold formatOf
  split
  · rename_i data hget
    refine FailsWith.mapError (FailsWith.map fun e he => ?_)
    refine UnitError.blames_of_ne (h.resolve_right fun hkeyed => ?_) (by simp)
    obtain ⟨item, hitem, hvalue⟩ := Option.map_eq_some_iff.1 hget
    obtain ⟨chars, hchars⟩ :=
      (hkeyed.values item (List.mem_of_find?_eq_some hitem)).self data hvalue
    cases hchars.symm.trans he
  · exact FailsWith.ok _

/-- What is wrong with a table is reported on the lines of its entities. -/
theorem table_blames (hschema : other ∨ schema.IsKnown)
    (hsound : other ∨ ∀ ref x, c.Holds ref x → x.IsSound IsReadable fun _ => True)
    (hmodule : P (.ofLine c.source? (Contribution.mergeLine (c.contributions c.moduleRef))))
    (hothers : ∀ line ∈ c.otherLines, P (.ofLine c.source? (Contribution.mergeLine line.2))) :
    FailsWith (UnitError.Blames P other) (c.table schema exports) := by
  have hown : other ∨ ∀ x ∈ c.contributions c.moduleRef, x.IsSound IsReadable fun _ => True :=
    hsound.imp_right fun hsound x hx => hsound _ x (holds_of_mem_contributions x hx)
  have hlines : other ∨ ∀ line ∈ c.otherLines, ∀ x ∈ line.2,
      x.IsSound IsReadable fun _ => True :=
    hsound.imp_right fun hsound line hline x hx =>
      hsound _ x (holds_of_mem_history (List.mem_filter.1 hline).1 x hx)
  refine (finish_blames hschema hown hmodule).bind fun module hfinish => ?_
  refine (finishAll_blames hschema hlines hothers).bind fun entries _ => ?_
  refine (formatOf_blames (hown.imp_right fun hown => ?_)).bind fun format? _ => FailsWith.ok _
  exact (isKeyed_of_finish isNormal_isReadable trivial hown hfinish).1

theorem moduleRef_of_observeAll {module : Text} {source? : Option Text}
    (h : (new module source?).observeAll events = (.ok (), c)) : c.moduleRef = .ofModule module := by
  rw [moduleRef, (module_of_observeAll h).1]
  rfl

theorem Remembers.moduleRef_mem (h : c.Remembers events) : c.moduleRef ∈ c.refs := by
  rw [h.refs, List.mem_eraseDups]
  exact List.mem_cons_self

end Collector

namespace DocTable

variable {module : Text} {events : List Event} {exports : List (Text × Int)} {schema : Schema}
  {source? : Option Text}

/-- Events have no table for what is wrong in the place of one of them, or on the line that is
known of an entity. -/
theorem ofEvents_blames (hschema : other ∨ schema.IsKnown)
    (hevents : other ∨ ∀ event ∈ events, event.IsPlain (.ofModule module))
    (hsound : other ∨ ∀ event ∈ events, ∀ x, event.contribution = .ok x →
      x.IsSound Collector.IsReadable fun _ => True)
    (hplaces : ∀ event ∈ events, P event.span)
    (hlines : ∀ c, (Collector.new module source?).observeAll events = (.ok (), c) →
      ∀ ref ∈ c.refs, P (.ofLine source? (Contribution.mergeLine (c.contributions ref)))) :
    FailsWith (UnitError.Blames P other) (ofEvents module events exports schema source?) := by
  unfold ofEvents
  split
  · rename_i e c hrun
    have hblames := Collector.observeAll_blames (c := .new module source?) (.inr rfl) hevents hplaces
    rw [hrun] at hblames
    exact FailsWith.error (hblames e rfl)
  · rename_i c hrun
    obtain ⟨_, hsource, hopen⟩ := Collector.module_of_observeAll hrun
    have hremembers := (Collector.remembers_new module source?).observeAll hrun
    have hlines : ∀ ref ∈ c.refs,
        P (.ofLine c.source? (Contribution.mergeLine (c.contributions ref))) := by
      rw [hsource]
      exact hlines c hrun
    rw [Collector.finalize, if_neg (by simp [hopen, Collector.new])]
    refine Collector.table_blames hschema (hsound.imp_right fun hsound => ?_)
      (hlines _ hremembers.moduleRef_mem) fun line hline => ?_
    · refine Collector.forall_holds_of_observeAll (fun event hevent x => hsound event hevent x) ?_
        hrun
      rintro ref x ⟨known, hknown, hx⟩
      obtain ⟨-, rfl⟩ := Prod.mk.inj (List.mem_singleton.1 hknown)
      cases hx
    · have hhistory : line ∈ c.history := (List.mem_filter.1 hline).1
      rw [Collector.history_eq_map hremembers.isLog.distinct] at hhistory
      obtain ⟨ref, href, rfl⟩ := List.mem_map.1 hhistory
      exact hlines ref href

/-- Events of a unit have a table, or something is wrong with their documentation. -/
theorem ofEvents_failsWith (hschema : schema.IsKnown)
    (hevents : ∀ event ∈ events, event.IsPlain (.ofModule module))
    (hsound : ∀ event ∈ events, ∀ x, event.contribution = .ok x →
      x.IsSound Collector.IsReadable fun _ => True) :
    FailsWith UnitError.IsDoc (ofEvents module events exports schema source?) := by
  have hblames : FailsWith (UnitError.Blames (fun _ => True) False)
      (ofEvents module events exports schema source?) :=
    ofEvents_blames (.inr hschema) (.inr hevents) (.inr hsound) (fun _ _ => trivial)
      fun _ _ _ _ => trivial
  exact hblames.imp fun e he => he.isDoc.resolve_left id

end DocTable

end ModuleDocs
