import Mathlib
import ModuleDocs.Proofs.Source.Payload

/-!
# What `-doc` forms are attached to

What a `-doc` form says is about the entity that the next declaration declares:

* forms that declare nothing are read in the same way whatever waits in front of them
  (`Reads.of_declareNothing`), and their own `-doc` forms wait behind them
  (`stillWaiting_of_declareNothing`);
* the declarations of what was read are those of the forms, in their order
  (`Reads.declarations`);
* an event that is not about the module is a declaration, or that of a `-doc` form for the
  declaration behind it (`Reads.origin`).

So a source with a `-doc` form comes to what it comes to without the form and to one event or
diagnostic more (`exists_adds`), and none of these is lost on the way to a unit
(`exists_attachesDocs`).
-/

namespace ModuleDocs.Source

open Result

variable {fs : FileSystem} {form doc next : Form} {forms waiting front mid after behind : List Form}
  {ref : EntityRef} {found : Findings} {event : Event} {d : Diagnostic}

/-! ## Forms -/

/-- The `-doc` forms among forms. -/
def docsIn (forms : List Form) : List Form := forms.filter isDoc

/-- None of the forms declares an entity, and none of them tries to. -/
def DeclareNothing (forms : List Form) : Prop := ∀ form ∈ forms, declared? form = none

/-- The event of a valid declaration. -/
def declarationOf? (form : Form) : Option Event :=
  match declared? form with
  | some (.ok ref) => some (.declaration ref form.span)
  | _ => none

def isDeclaration : Event → Bool
  | .declaration _ _ => true
  | _ => false

/-- The event is about a module, and no declaration. -/
def IsAboutModule (event : Event) : Prop :=
  (∃ payload span, event = .moduleDoc payload span) ∨
    ∃ metadata span, event = .moduleMeta metadata span

/-- The text that a form names by a path is there, or the system refuses to give it. -/
def ReadsText (fs : FileSystem) (form : Form) : Prop :=
  ∀ p, payloadPath? fs form = some p → FailsWith FileError.IsOs (fs.read p)

theorem readsText_iff : ReadsText fs form ↔ ¬ LosesText fs form := by
  have hread (p : Path) : FailsWith FileError.IsOs (fs.read p) ↔ p.IsNameable := by
    rw [← not_iff_not, ← FileSystem.escapes_iff_not_failsWith, FileSystem.read_escapes_iff]
  simp [ReadsText, LosesText, hread]

theorem IsDocEvent.isDeclaration (h : IsDocEvent fs ref doc event) : isDeclaration event = false := by
  cases h <;> rfl

/-! ## Forms that declare nothing -/

theorem DeclareNothing.of_cons (h : DeclareNothing (form :: forms)) :
    declared? form = none ∧ DeclareNothing forms := List.forall_mem_cons.1 h

/-- Behind forms that declare nothing what waited in front of them still waits, and their own
`-doc` forms wait too. -/
theorem stillWaiting_of_declareNothing (h : DeclareNothing forms) :
    stillWaiting waiting forms = (docsIn forms).reverse ++ waiting := by
  induction forms generalizing waiting with
  | nil => rfl
  | cons form forms ih =>
    obtain ⟨hform, hforms⟩ := h.of_cons
    show stillWaiting (waitBehind waiting form) forms = _
    rw [ih hforms, waitBehind, docsIn, docsIn, List.filter_cons, hform]
    split <;> simp

/-- Forms that declare nothing come to the same whatever waits in front of them. -/
theorem Reads.of_declareNothing (h : Reads fs waiting forms found) (hforms : DeclareNothing forms)
    (waiting' : List Form) : Reads fs waiting' forms found := by
  induction h generalizing waiting' with
  | nil waiting => exact .nil waiting'
  | cons hfirst _ ih =>
    obtain ⟨hform, hforms⟩ := hforms.of_cons
    refine .cons ?_ (ih hforms _)
    rwa [readOne_of_declared?_eq_none hform] at hfirst ⊢

/-- What waits behind forms is a `-doc` form among them that no declaration follows. -/
theorem exists_of_mem_stillWaiting (h : doc ∈ stillWaiting [] forms) :
    ∃ front mid, forms = front ++ doc :: mid ∧ isDoc doc = true ∧ DeclareNothing mid := by
  -- The last form decides: it waits itself, or ends all waiting, or changes nothing.
  induction forms using List.reverseRecOn with
  | nil => cases h
  | append_singleton forms form ih =>
    rw [stillWaiting, List.foldl_concat] at h
    change doc ∈ waitBehind (stillWaiting [] forms) form at h
    have hkeep (hform : declared? form = none) (hold : doc ∈ stillWaiting [] forms) :
        ∃ front mid, forms ++ [form] = front ++ doc :: mid ∧ isDoc doc = true ∧
          DeclareNothing mid := by
      obtain ⟨front, mid, rfl, hdoc, hmid⟩ := ih hold
      refine ⟨front, mid ++ [form], by simp, hdoc, ?_⟩
      exact List.forall_mem_append.2 ⟨hmid, List.forall_mem_singleton.2 hform⟩
    unfold waitBehind at h
    split at h
    · rename_i hisDoc
      rcases List.mem_cons.1 h with rfl | hold
      · exact ⟨forms, [], rfl, hisDoc, by simp [DeclareNothing]⟩
      · exact hkeep (declared?_of_isDoc hisDoc) hold
    split at h
    · cases h
    · rename_i hnone
      exact hkeep (by simpa using hnone) h

/-! ## Declarations -/

theorem IsAboutModule.isDeclaration (h : IsAboutModule event) : isDeclaration event = false := by
  rcases h with ⟨_, _, rfl⟩ | ⟨_, _, rfl⟩ <;> rfl

/-- The events that are attached to an entity are no declarations. -/
theorem declarations_of_readDocs (h : readDocs fs ref forms = .ok found) :
    found.events.filter isDeclaration = [] := by
  simp only [events_of_readDocs h, List.filter_eq_nil_iff, Bool.not_eq_true, List.mem_filterMap]
  rintro event ⟨doc, _, hevent⟩
  exact (isDocEvent_of_docEvent? hevent).isDeclaration

theorem FormFindings.isAboutModule (h : FormFindings fs form found) :
    ∀ event ∈ found.events, IsAboutModule event := by
  cases h with
  | metadata _ _ => exact List.forall_mem_singleton.2 (.inr ⟨_, _, rfl⟩)
  | text _ _ => exact List.forall_mem_singleton.2 (.inl ⟨_, _, rfl⟩)
  | exports _ _ => exact List.forall_mem_nil _
  | invalid _ => exact List.forall_mem_nil _
  | ignored => exact List.forall_mem_nil _

/-- A form comes to its own declaration, and to no other one. -/
theorem declarations_of_readOne (h : readOne fs waiting form = .ok found) :
    found.events.filter isDeclaration = (declarationOf? form).toList := by
  cases stepFindings_of_readOne h with
  | waits hdoc =>
    rw [declarationOf?, declared?_of_isDoc hdoc]
    rfl
  | refused hform =>
    rw [declarationOf?, hform]
    rfl
  | declares hform hdocs =>
    simp [Findings.append, Findings.ofEvent, declarations_of_readDocs hdocs, declarationOf?, hform,
      isDeclaration]
  | other hform hfound =>
    simp only [declarationOf?, hform, Option.toList_none, List.filter_eq_nil_iff, Bool.not_eq_true]
    exact fun event hevent => (hfound.isAboutModule event hevent).isDeclaration

/-- The declarations are those of the forms, in their order. -/
theorem Reads.declarations (h : Reads fs waiting forms found) :
    found.events.filter isDeclaration = forms.filterMap declarationOf? := by
  induction h with
  | nil waiting => rfl
  | @cons waiting forms form first back hfirst _ ih =>
    rw [Findings.append, List.filter_append, ih, declarations_of_readOne hfirst, List.filterMap_cons]
    cases declarationOf? form <;> rfl

theorem declarationOf?_of_declareNothing (h : DeclareNothing forms) :
    forms.filterMap declarationOf? = [] := by
  rw [List.filterMap_eq_nil_iff]
  intro form hform
  rw [declarationOf?, h form hform]

/-! ## What a `-doc` form adds -/

/-- What a `-doc` form adds to events and diagnostics.  `before` are the declarations in front
of it and `behind` the forms after it, the first declaration of which decides. -/
inductive Adds (fs : FileSystem) (before : List Event) (doc : Form) (behind : List Form) :
    List Event → List Diagnostic → List Event → List Diagnostic → Prop where
  /-- No declaration follows: a warning. -/
  | warning {events : List Event} {D D' : List Diagnostic} (hbehind : DeclareNothing behind) :
      Adds fs before doc behind events (D ++ D') events (D ++ dangling doc :: D')
  /-- The declaration is wrong, which is reported there: nothing. -/
  | nothing {events : List Event} {diagnostics : List Diagnostic} {mid after : List Form}
      {next : Form} {d : Diagnostic} (hbehind : behind = mid ++ next :: after)
      (hmid : DeclareNothing mid) (hnext : declared? next = some (.error d))
      (herror : IsErrorAt next d) (hreported : d ∈ diagnostics) :
      Adds fs before doc behind events diagnostics events diagnostics
  /-- The declaration and the form are valid: an event behind all declarations in front of the
  form.  Between it and the declaration are the events of the `-doc` forms between the two. -/
  | event {A C : List Event} {diagnostics : List Diagnostic} {mid after : List Form} {next : Form}
      {ref : EntityRef} {event : Event} (hbehind : behind = mid ++ next :: after)
      (hmid : DeclareNothing mid) (hnext : declared? next = some (.ok ref))
      (hevent : IsDocEvent fs ref doc event) (hbefore : A.filter isDeclaration = before)
      (hafter : C.filter isDeclaration = after.filterMap declarationOf?) :
      Adds fs before doc behind
        (A ++ (docsIn mid).filterMap (docEvent? fs ref) ++ .declaration ref next.span :: C)
        diagnostics
        (A ++ event :: (docsIn mid).filterMap (docEvent? fs ref) ++ .declaration ref next.span :: C)
        diagnostics
  /-- The declaration is valid and the form is not: an error. -/
  | error {events : List Event} {D D' : List Diagnostic} {mid after : List Form} {next : Form}
      {ref : EntityRef} {d : Diagnostic} (hbehind : behind = mid ++ next :: after)
      (hmid : DeclareNothing mid) (hnext : declared? next = some (.ok ref))
      (hvalue : ∀ items, doc.value ≠ .map items) (hpayload : payloadOf fs doc = .ok (.error d))
      (herror : IsErrorAt doc d) :
      Adds fs before doc behind events (D ++ D') events (D ++ d :: D')

/-- What stands in front of events and diagnostics has no part in what a form adds. -/
theorem Adds.append_left {before events events' : List Event}
    {diagnostics diagnostics' : List Diagnostic}
    (h : Adds fs before doc behind events diagnostics events' diagnostics') (E : List Event)
    (D : List Diagnostic) :
    Adds fs (E.filter isDeclaration ++ before) doc behind (E ++ events) (D ++ diagnostics)
      (E ++ events') (D ++ diagnostics') := by
  cases h with
  | warning hbehind =>
    rw [← List.append_assoc, ← List.append_assoc]
    exact .warning hbehind
  | nothing hbehind hmid hnext herror hreported =>
    exact .nothing hbehind hmid hnext herror (List.mem_append_right D hreported)
  | event hbehind hmid hnext hevent hbefore hafter =>
    simp only [← List.append_assoc]
    exact .event hbehind hmid hnext hevent (by rw [List.filter_append, hbefore]) hafter
  | error hbehind hmid hnext hvalue hpayload herror =>
    rw [← List.append_assoc, ← List.append_assoc]
    exact .error hbehind hmid hnext hvalue hpayload herror

theorem declareNothing_or (forms : List Form) : DeclareNothing forms ∨
    ∃ mid next after result, forms = mid ++ next :: after ∧ DeclareNothing mid ∧
      declared? next = some result := by
  induction forms with
  | nil => exact .inl (by simp [DeclareNothing])
  | cons form forms ih =>
    cases hform : declared? form with
    | some result => exact .inr ⟨[], form, forms, result, rfl, by simp [DeclareNothing], hform⟩
    | none =>
      rcases ih with hnone | ⟨mid, next, after, result, rfl, hmid, hnext⟩
      · exact .inl (List.forall_mem_cons.2 ⟨hform, hnone⟩)
      · exact .inr ⟨form :: mid, next, after, result, rfl, List.forall_mem_cons.2 ⟨hform, hmid⟩, hnext⟩

theorem readAll_append_eq_ok_iff : readAll fs waiting (front ++ behind) = .ok found ↔
    ∃ a b, Reads fs waiting front a ∧ readAll fs (stillWaiting waiting front) behind = .ok b ∧
      found = a.append b := by
  have hwaiting : stillWaiting waiting (front ++ behind)
      = stillWaiting (stillWaiting waiting front) behind := List.foldl_append
  simp only [readAll_eq_ok_iff]
  constructor
  · rintro ⟨read, hread, rfl⟩
    obtain ⟨a, b, ha, hb, rfl⟩ := hread.exists_append
    exact ⟨a, _, ha, ⟨b, hb, rfl⟩, by rw [Findings.append_assoc, hwaiting]⟩
  · rintro ⟨a, _, ha, ⟨b, hb, rfl⟩, rfl⟩
    exact ⟨_, ha.append hb, by rw [Findings.append_assoc, hwaiting]⟩

theorem readAll_of_isDoc (h : isDoc doc = true) :
    readAll fs waiting (doc :: forms) = readAll fs (doc :: waiting) forms := by
  rw [readAll, if_pos (by simpa [isDoc] using h)]

/-- A form that no declaration follows adds a warning, among those of the forms around it. -/
theorem exists_adds_of_declareNothing (hbehind : DeclareNothing behind)
    (h : readAll fs (doc :: waiting) behind = .ok found) :
    ∃ less, readAll fs waiting behind = .ok less ∧ less.exports = found.exports ∧
      Adds fs [] doc behind less.events less.diagnostics found.events found.diagnostics := by
  obtain ⟨read, hread, rfl⟩ := readAll_eq_ok_iff.1 h
  refine ⟨_, readAll_eq_ok_iff.2 ⟨read, hread.of_declareNothing hbehind waiting, rfl⟩, rfl, ?_⟩
  have hadds : Adds fs [] doc behind read.events
      ((read.diagnostics ++ waiting.reverse.map dangling) ++ (docsIn behind).map dangling) read.events
      ((read.diagnostics ++ waiting.reverse.map dangling)
        ++ dangling doc :: (docsIn behind).map dangling) := .warning hbehind
  simpa [Findings.append, stillWaiting_of_declareNothing hbehind] using hadds

/-- A form among those that wait for a valid declaration adds what it comes to itself. -/
theorem exists_of_readOne {late : List Form} (hnext : declared? next = some (.ok ref))
    (h : readOne fs (late.reverse ++ doc :: waiting) next = .ok found) :
    ∃ early own others, docEvent fs ref doc = .ok own ∧ readDocs fs ref late = .ok others ∧
      readDocs fs ref waiting.reverse = .ok early ∧
      readOne fs (late.reverse ++ waiting) next
        = .ok ((early.append others).append (.ofEvent (.declaration ref next.span))) ∧
      found = (early.append ((Findings.ofDoc own).append others)).append
        (.ofEvent (.declaration ref next.span)) := by
  obtain ⟨docs, hdocs, rfl⟩ := (readOne_of_declares hnext).1 h
  have horder : (late.reverse ++ doc :: waiting).reverse = waiting.reverse ++ doc :: late := by simp
  rw [horder] at hdocs
  obtain ⟨early, _, hearly, hrest, rfl⟩ := readDocs_append_eq_ok_iff.1 hdocs
  obtain ⟨own, others, hown, hothers, rfl⟩ := readDocs_cons_eq_ok_iff.1 hrest
  have hwithout : readDocs fs ref (late.reverse ++ waiting).reverse = .ok (early.append others) := by
    rw [List.reverse_append, List.reverse_reverse]
    exact readDocs_append_eq_ok_iff.2 ⟨early, others, hearly, hothers, rfl⟩
  exact ⟨early, own, others, hown, hothers, hearly,
    (readOne_of_declares hnext).2 ⟨_, hwithout, rfl⟩, rfl⟩

/-- Up to the next declaration forms are read whatever waits, and behind it nothing waits. -/
theorem readAll_declared_eq_ok_iff {result : Except Diagnostic EntityRef}
    (hmid : DeclareNothing mid) (hnext : declared? next = some result) :
    readAll fs waiting (mid ++ next :: after) = .ok found ↔ ∃ m r c, Reads fs [] mid m ∧
      readOne fs ((docsIn mid).reverse ++ waiting) next = .ok r ∧ readAll fs [] after = .ok c ∧
      found = m.append (r.append c) := by
  rw [readAll_append_eq_ok_iff, stillWaiting_of_declareNothing hmid, readAll_cons,
    waitBehind_of_declared? hnext]
  constructor
  · rintro ⟨m, _, hm, hb, rfl⟩
    obtain ⟨r, hr, hb⟩ := bind_eq_ok_iff.1 hb
    obtain ⟨c, hc, rfl⟩ := bind_pure_eq_ok_iff.1 hb
    exact ⟨m, r, c, hm.of_declareNothing hmid [], hr, hc, rfl⟩
  · rintro ⟨m, r, c, hm, hr, hc, rfl⟩
    exact ⟨m, _, hm.of_declareNothing hmid waiting,
      bind_eq_ok_iff.2 ⟨r, hr, bind_pure_eq_ok_iff.2 ⟨c, hc, rfl⟩⟩, rfl⟩

/-- A wrong declaration is reported, and drops the forms that wait for it. -/
theorem exists_adds_of_refused (hmid : DeclareNothing mid)
    (hnext : declared? next = some (.error d))
    (h : readAll fs (doc :: waiting) (mid ++ next :: after) = .ok found) :
    ∃ less, readAll fs waiting (mid ++ next :: after) = .ok less ∧ less.exports = found.exports ∧
      Adds fs [] doc (mid ++ next :: after) less.events less.diagnostics found.events
        found.diagnostics := by
  obtain ⟨m, r, c, hm, hr, hc, rfl⟩ := (readAll_declared_eq_ok_iff hmid hnext).1 h
  cases (readOne_of_refused hnext).symm.trans hr
  refine ⟨_, (readAll_declared_eq_ok_iff hmid hnext).2
    ⟨m, _, c, hm, readOne_of_refused hnext, hc, rfl⟩, rfl, ?_⟩
  obtain ⟨kind, _, hentity⟩ := Option.map_eq_some_iff.1 hnext
  exact .nothing rfl hmid hnext (isErrorAt_of_entityOf hentity)
    (by simp [Findings.append, Findings.ofDiagnostic])

/-- A form that a valid declaration follows adds its event, or its error. -/
theorem exists_adds_of_declares (hmid : DeclareNothing mid) (hnext : declared? next = some (.ok ref))
    (h : readAll fs (doc :: waiting) (mid ++ next :: after) = .ok found) :
    ∃ less, readAll fs waiting (mid ++ next :: after) = .ok less ∧ less.exports = found.exports ∧
      Adds fs [] doc (mid ++ next :: after) less.events less.diagnostics found.events
        found.diagnostics := by
  obtain ⟨m, r, c, hm, hr, hc, rfl⟩ := (readAll_declared_eq_ok_iff hmid hnext).1 h
  obtain ⟨early, own, late, hown, hlate, hearly, hwithout, rfl⟩ := exists_of_readOne hnext hr
  refine ⟨_, (readAll_declared_eq_ok_iff hmid hnext).2 ⟨m, _, c, hm, hwithout, hc, rfl⟩, ?_⟩
  -- Without the form the same stands around it, so that only its own outcome is in question.
  cases own with
  | ok event =>
    refine ⟨rfl, ?_⟩
    have hbefore : (m.events ++ early.events).filter isDeclaration = [] := by
      rw [List.filter_append, hm.declarations, declarationOf?_of_declareNothing hmid,
        declarations_of_readDocs hearly, List.append_nil]
    obtain ⟨read, hread, hread'⟩ := readAll_eq_ok_iff.1 hc
    have hafter : c.events.filter isDeclaration = after.filterMap declarationOf? := by
      rw [hread', Findings.append, List.append_nil, hread.declarations]
    have hadds (D : List Diagnostic) : Adds fs [] doc (mid ++ next :: after) _ D _ D :=
      .event rfl hmid hnext (isDocEvent_of_docEvent hown) hbefore hafter
    rw [← events_of_readDocs hlate] at hadds
    simpa [Findings.append, Findings.ofEvent, Findings.ofDoc] using hadds _
  | error d =>
    refine ⟨rfl, ?_⟩
    obtain ⟨hvalue, hpayload⟩ := payloadOf_of_docEvent hown
    have hadds (E : List Event) (D D' : List Diagnostic) :
        Adds fs [] doc (mid ++ next :: after) E (D ++ D') E (D ++ d :: D') :=
      .error rfl hmid hnext hvalue hpayload (isErrorAt_of_payloadOf hpayload)
    simpa [Findings.append, Findings.ofEvent, Findings.ofDoc, Findings.ofDiagnostic] using
      hadds _ (m.diagnostics ++ early.diagnostics) (late.diagnostics ++ c.diagnostics)

theorem exists_adds (hdoc : isDoc doc = true)
    (h : readAll fs [] (front ++ doc :: behind) = .ok found) :
    ∃ less, readAll fs [] (front ++ behind) = .ok less ∧ less.exports = found.exports ∧
      Adds fs (front.filterMap declarationOf?) doc behind less.events less.diagnostics found.events
        found.diagnostics := by
  obtain ⟨a, b, ha, hb, rfl⟩ := readAll_append_eq_ok_iff.1 h
  rw [readAll_of_isDoc hdoc] at hb
  obtain ⟨less, hless, hexports, hadds⟩ : ∃ less,
      readAll fs (stillWaiting [] front) behind = .ok less ∧ less.exports = b.exports ∧
        Adds fs [] doc behind less.events less.diagnostics b.events b.diagnostics := by
    rcases declareNothing_or behind with hbehind | ⟨mid, next, after, result, rfl, hmid, hnext⟩
    · exact exists_adds_of_declareNothing hbehind hb
    · cases result with
      | error d => exact exists_adds_of_refused hmid hnext hb
      | ok ref => exact exists_adds_of_declares hmid hnext hb
  refine ⟨_, readAll_append_eq_ok_iff.2 ⟨a, less, ha, hless, rfl⟩, ?_, ?_⟩
  · rw [Findings.append, Findings.append, hexports]
  · have hall := hadds.append_left a.events a.diagnostics
    rwa [ha.declarations, List.append_nil] at hall

/-! ## Where events come from -/

/-- The event is that of a valid `-doc` form among the forms, about the entity of the next
declaration. -/
def IsAttached (fs : FileSystem) (forms : List Form) (event : Event) : Prop :=
  ∃ front doc mid next after ref, forms = front ++ doc :: (mid ++ next :: after) ∧
    isDoc doc = true ∧ DeclareNothing mid ∧ declared? next = some (.ok ref) ∧
      IsDocEvent fs ref doc event

theorem Reads.origin (h : Reads fs [] forms found) (hevent : event ∈ found.events) :
    IsAboutModule event ∨ (∃ form ∈ forms, declarationOf? form = some event) ∨
      IsAttached fs forms event := by
  obtain ⟨front, form, behind, first, rfl, hfirst, hevent⟩ := h.exists_form hevent
  cases stepFindings_of_readOne hfirst with
  | waits _ => cases hevent
  | refused _ => cases hevent
  | other _ hfound => exact .inl (hfound.isAboutModule event hevent)
  | declares hform hdocs =>
    refine .inr ?_
    rcases List.mem_append.1 hevent with hevent | hevent
    · rw [events_of_readDocs hdocs] at hevent
      obtain ⟨doc, hdoc, hdocEvent⟩ := List.mem_filterMap.1 hevent
      obtain ⟨early, mid, rfl, hisDoc, hmid⟩ := exists_of_mem_stillWaiting (List.mem_reverse.1 hdoc)
      exact .inr ⟨early, doc, mid, form, behind, _, by simp, hisDoc, hmid, hform,
        isDocEvent_of_docEvent? hdocEvent⟩
    · cases List.mem_singleton.1 hevent
      exact .inl ⟨form, by simp, by rw [declarationOf?, hform]⟩

/-! ## Units -/

theorem textForms_subset (waiting forms : List Form) : textForms waiting forms ⊆ waiting ++ forms := by
  induction forms generalizing waiting with
  | nil => simp [textForms]
  | cons form forms ih =>
    have hback (kept : List Form) : textForms kept forms ⊆ kept ++ form :: forms := by
      intro f hf
      have hmem := ih kept hf
      simp only [List.mem_append, List.mem_cons] at hmem ⊢
      tauto
    rw [textForms]
    split
    · intro f hf
      have hmem := ih (form :: waiting) hf
      simp only [List.mem_append, List.mem_cons] at hmem ⊢
      tauto
    split
    · refine List.append_subset.2 ⟨?_, fun f hf => List.mem_append_right _ (hback [] hf)⟩
      split <;> simp
    · refine List.append_subset.2 ⟨?_, hback waiting⟩
      split <;> simp

/-- Forms whose texts are there, or refused by the system, are read. -/
theorem exists_of_readsText (h : ∀ form ∈ forms, ReadsText fs form) :
    ∃ found, readAll fs [] forms = .ok found := by
  rw [← not_fails_iff, readAll_fails_iff]
  rintro ⟨form, hform, hloses⟩
  exact readsText_iff.1 (h form (by simpa using textForms_subset [] forms hform)) hloses

/-- What a unit has of the `-doc` forms behind its first form. -/
structure AttachesDocs (fs : FileSystem) (path : Path) (includes : List Path) (first : Form)
    (rest : List Form) (unit : SourceUnit) (diagnostics : List Diagnostic) : Prop where
  ofForms : SourceUnit.ofForms fs path includes (first :: rest) = .ok (some unit, diagnostics)
  /-- The forms without one of them make a unit that differs from this one by what it adds. -/
  adds : ∀ front doc behind, rest = front ++ doc :: behind → isDoc doc = true →
    ∃ (less : SourceUnit) (others : List Diagnostic),
      SourceUnit.ofForms fs path includes (first :: (front ++ behind)) = .ok (some less, others) ∧
        unit = { less with events := unit.events } ∧
        Adds fs (.declaration (.ofModule unit.module) first.span :: front.filterMap declarationOf?)
          doc behind less.events others unit.events diagnostics
  origin : ∀ event ∈ unit.events, event = .declaration (.ofModule unit.module) first.span ∨
    IsAboutModule event ∨ (∃ form ∈ rest, declarationOf? form = some event) ∨
      IsAttached fs rest event

theorem ofForms_of_moduleName {module : Text} {first : Form} {rest : List Form}
    (hmodule : moduleName first = .ok module) (hfound : readAll fs [] rest = .ok found)
    (path : Path) (includes : List Path) :
    SourceUnit.ofForms fs path includes (first :: rest) = .ok
      (some ⟨module, path, .declaration (.ofModule module) first.span :: found.events,
        distinct found.exports, includes⟩, found.diagnostics) :=
  ofForms_eq_ok_iff.2 (.named hmodule hfound)

/-- No `-doc` form of a source is lost, or attached twice, or attached to another entity than
that of the next declaration. -/
theorem exists_attachesDocs {module : Text} {first : Form} {rest : List Form}
    (hmodule : moduleName first = .ok module) (htexts : ∀ form ∈ rest, ReadsText fs form)
    (path : Path) (includes : List Path) :
    ∃ unit diagnostics, AttachesDocs fs path includes first rest unit diagnostics := by
  obtain ⟨found, hfound⟩ := exists_of_readsText htexts
  refine ⟨_, _, ofForms_of_moduleName hmodule hfound path includes, ?_, ?_⟩
  · rintro front doc behind rfl hdoc
    obtain ⟨less, hless, hexports, hadds⟩ := exists_adds hdoc hfound
    refine ⟨_, _, ofForms_of_moduleName hmodule hless path includes, by rw [hexports], ?_⟩
    exact hadds.append_left [.declaration (.ofModule module) first.span] []
  · intro event hevent
    rcases List.mem_cons.1 hevent with rfl | hevent
    · exact .inl rfl
    · obtain ⟨read, hread, rfl⟩ := readAll_eq_ok_iff.1 hfound
      exact .inr (hread.origin (by simpa [Findings.append] using hevent))

def manualModule : Form := ⟨"module", .atom "m", ⟨1, 1⟩, none⟩

/-- Two texts for a function, the second in a file that is missing, metadata for a type whose
declaration is wrong, and a text that nothing follows. -/
def manualForms : List Form :=
  [⟨"doc", .text "a", ⟨2, 1⟩, none⟩,
    ⟨"moduledoc", .text "b", ⟨3, 1⟩, none⟩,
    ⟨"doc", .tuple [.text "file", .text "c"], ⟨4, 1⟩, none⟩,
    ⟨"fun", .funRef "f" 1, ⟨5, 1⟩, none⟩,
    ⟨"doc", .map [(.atom "since", .text "d")], ⟨6, 1⟩, none⟩,
    ⟨"type", .atom "t", ⟨7, 1⟩, none⟩,
    ⟨"doc", .text "e", ⟨8, 1⟩, none⟩]

theorem exists_attachesDocs_manualForms :
    moduleName manualModule = .ok "m" ∧
    (∀ form ∈ manualForms, ReadsText (.empty ⟨.single, []⟩) form) ∧
    ∃ unit diagnostics, AttachesDocs (.empty ⟨.single, []⟩) ⟨.single, []⟩ [] manualModule manualForms
      unit diagnostics ∧
      unit.events.map (fun event => event.span.line?) = [some 1, some 3, some 2, some 5] ∧
      diagnostics.map (fun d => d.span.line?) = [some 4, some 7, some 8] := by
  have hmodule : moduleName manualModule = .ok "m" := by decide
  have htexts : ∀ form ∈ manualForms, ReadsText (.empty ⟨.single, []⟩) form := by
    have hpaths : ∀ form ∈ manualForms, ∀ p ∈ payloadPath? (.empty ⟨.single, []⟩) form,
        p.names.all (fun name => name.all FileName.canHold) = true := by decide
    intro form hform
    rw [readsText_iff]
    rintro ⟨p, hp, hnameable⟩
    exact hnameable (Path.isNameable_iff.2 (by simpa using hpaths form hform p hp))
  obtain ⟨unit, diagnostics, h⟩ := exists_attachesDocs hmodule htexts ⟨.single, []⟩ []
  obtain ⟨unit', diagnostics', hread, hevents, hdiagnostics⟩ : ∃ unit' diagnostics',
      SourceUnit.ofForms (.empty ⟨.single, []⟩) ⟨.single, []⟩ [] (manualModule :: manualForms)
        = .ok (some unit', diagnostics') ∧
      unit'.events.map (fun event => event.span.line?) = [some 1, some 3, some 2, some 5] ∧
      diagnostics'.map (fun d => d.span.line?) = [some 4, some 7, some 8] :=
    ⟨_, _, rfl, by decide, by decide⟩
  cases h.ofForms.symm.trans hread
  exact ⟨hmodule, htexts, unit, diagnostics, h, hevents, hdiagnostics⟩

end ModuleDocs.Source
