import Mathlib
import ModuleDocs.Proofs.Source.Lookup
import ModuleDocs.Proofs.Source.Unit

/-!
# Texts that forms name by a path

A documentation form may name a file with its text.  Reading it fails just when the path
cannot be given to the system (`payloadOf_fails_iff`); whatever else is wrong with the file
is a diagnostic.  `textForms` are the forms whose values are looked at, so that
`read_fails_iff` says when a source is no unit and has no diagnostics either.
-/

namespace ModuleDocs.Source

open Result

variable {fs : FileSystem} {form : Form} {forms waiting : List Form} {ref : EntityRef}

/-! ## One form -/

/-- The path of the file with the text of a form. -/
def payloadPath? (fs : FileSystem) (form : Form) : Option Path :=
  (filePath? form.value).map fun name =>
    ((form.file?.map fun file => (Path.parse file).parent).getD fs.workingDirectory).join
      (Path.parse name)

/-- The form names its text by a path that cannot be given to the system. -/
def LosesText (fs : FileSystem) (form : Form) : Prop :=
  ∃ p, payloadPath? fs form = some p ∧ ¬ p.IsNameable

/-- A value that names no file loses none. -/
theorem not_losesText (h : filePath? form.value = none) : ¬ LosesText fs form := by
  rintro ⟨p, hp, _⟩
  simp [payloadPath?, h] at hp

/-- The text of a form cannot be read, and is not reported, just when its path cannot be
given to the system. -/
theorem payloadOf_fails_iff : Fails (payloadOf fs form) ↔ LosesText fs form := by
  unfold payloadOf
  dsimp only
  split
  · rename_i hvalue
    exact iff_of_false (not_fails_ok _) (not_losesText (by rw [hvalue]; rfl))
  · rename_i hvalue
    exact iff_of_false (not_fails_ok _) (not_losesText (by rw [hvalue]; rfl))
  · rename_i hvalue
    exact iff_of_false (not_fails_ok _) (not_losesText (by rw [hvalue]; rfl))
  split
  · rename_i hpath
    exact iff_of_false (not_fails_ok _) (not_losesText hpath)
  · rename_i name hpath
    have hloses : ∀ p : Path, payloadPath? fs form = some p →
        (LosesText fs form ↔ FileError.Escapes (fs.read p)) := by
      intro p hp
      simp [LosesText, hp, FileSystem.read_escapes_iff]
    rw [hloses _ (by rw [payloadPath?, hpath]; rfl)]
    split
    · rename_i data hread
      exact iff_of_false (not_fails_ok _) (by simp [FileError.Escapes, hread])
    · rename_i hread
      exact iff_of_false (not_fails_ok _) (by simp [FileError.Escapes, hread, FileError.IsOs])
    · rename_i e hos hread
      refine iff_of_true ⟨e, rfl⟩ ⟨e, hread, ?_⟩
      rintro ⟨cause, t, target?, rfl⟩
      exact hos cause t target? rfl

/-- What is made of a text fails no further. -/
theorem bind_payloadOf_fails_iff {α : Type} {f : Except Diagnostic Payload → Except FileError α}
    (hf : ∀ result, ¬ Fails (f result)) : Fails (payloadOf fs form >>= f) ↔ LosesText fs form := by
  rw [← payloadOf_fails_iff, fails_bind_iff]
  exact or_iff_left fun ⟨result, _, hfails⟩ => hf result hfails

theorem docEvent_fails_iff (ref : EntityRef) : Fails (docEvent fs ref form) ↔ LosesText fs form := by
  unfold docEvent
  split
  · rename_i items hvalue
    exact iff_of_false (not_fails_ok _) (not_losesText (by rw [hvalue]; rfl))
  · refine bind_payloadOf_fails_iff fun result => ?_
    cases result <;> exact not_fails_ok _

/-! ## All forms -/

/-- The forms whose values are looked at as texts: those about the module, and those in
front of the declaration of an entity.  `waiting` are `-doc` forms before them, the last
first. -/
def textForms (waiting : List Form) : List Form → List Form
  | [] => []
  | form :: rest =>
    if form.name = Text.ofString "doc" then textForms (form :: waiting) rest
    else
      match entityKind? form.name with
      | some kind =>
        (if (entityOf kind form).isOk then waiting.reverse else []) ++ textForms [] rest
      | none =>
        (if form.name = Text.ofString "moduledoc" then [form] else []) ++ textForms waiting rest

theorem readDocs_fails_iff : Fails (readDocs fs ref forms) ↔ ∃ form ∈ forms, LosesText fs form := by
  induction forms with
  | nil => simp [readDocs, not_fails_ok]
  | cons form rest ih =>
    rw [readDocs, List.exists_mem_cons_iff, ← ih, ← docEvent_fails_iff ref]
    exact fails_seq_iff

theorem readDeclaration_fails_iff {kind : EntityKind} :
    Fails (readDeclaration fs kind waiting form) ↔
      ∃ doc ∈ (if (entityOf kind form).isOk then waiting else []), LosesText fs doc := by
  unfold readDeclaration
  cases entityOf kind form with
  | error d => simp [not_fails_ok, Except.isOk, Except.toBool]
  | ok ref => exact fails_bind_pure_iff.trans readDocs_fails_iff

theorem readForm_fails_iff : Fails (readForm fs form) ↔
    ∃ doc ∈ (if form.name = Text.ofString "moduledoc" then [form] else []), LosesText fs doc := by
  unfold readForm
  split
  · rename_i hname
    rw [hname, if_neg (by decide)]
    simp [not_fails_ok]
  split
  · rename_i hname
    rw [hname, if_neg (by decide)]
    split <;> simp [not_fails_ok]
  split
  · simp only [List.mem_singleton, exists_eq_left]
    split
    · rename_i items hvalue
      exact iff_of_false (not_fails_ok _) (not_losesText (by rw [hvalue]; rfl))
    · refine bind_payloadOf_fails_iff fun result => ?_
      cases result <;> exact not_fails_ok _
  · simp [not_fails_ok]

/-- Reading forms fails just when one of those that name a file names it by a path that
cannot be given to the system. -/
theorem readAll_fails_iff : Fails (readAll fs waiting forms) ↔
    ∃ form ∈ textForms waiting forms, LosesText fs form := by
  induction forms generalizing waiting with
  | nil => simp [readAll, textForms, not_fails_ok]
  | cons form rest ih =>
    rw [readAll, textForms]
    split
    · exact ih
    cases entityKind? form.name with
    | some kind =>
      simp only [List.mem_append, or_and_right, exists_or, ← ih, ← readDeclaration_fails_iff]
      exact fails_seq_iff
    | none =>
      simp only [List.mem_append, or_and_right, exists_or, ← ih, ← readForm_fails_iff]
      exact fails_seq_iff

/-! ## Units -/

/-- Forms of which the first names a module, and one of the others names its text by a path
that cannot be given to the system. -/
def LoseText (fs : FileSystem) : List Form → Prop
  | [] => False
  | first :: rest => (moduleName first).isOk ∧ ∃ form ∈ textForms [] rest, LosesText fs form

theorem ofForms_fails_iff (path : Path) (includes : List Path) :
    Fails (SourceUnit.ofForms fs path includes forms) ↔ LoseText fs forms := by
  cases forms with
  | nil => exact iff_of_false (not_fails_ok _) id
  | cons first rest =>
    rw [SourceUnit.ofForms, LoseText]
    cases moduleName first with
    | error d => simp [not_fails_ok, Except.isOk, Except.toBool]
    | ok module =>
      simp only [Except.isOk, Except.toBool, true_and, ← readAll_fails_iff]
      exact fails_bind_pure_iff

/-- What stops the reading of a source and is not reported: a lookup of an included file
comes to a path that is too long, or all included files are there and a text is named by a
path that cannot be given to the system. -/
def StopsReading (fs : FileSystem) (includePaths : List Path) (path : Path) : Prop :=
  LosesInclude fs includePaths [path.resolve fs.workingDirectory] path ∨
    ∃ expansion, load fs includePaths path = .ok expansion ∧
      hasErrors expansion.diagnostics = false ∧ LoseText fs expansion.forms

theorem read_fails_iff {includePaths : List Path} {path : Path}
    (htokens : AllTokens Token.HasFewDigits fs) (hhome : fs.workingDirectory.IsNameable)
    (hpath : path.IsNameable) :
    Fails (SourceUnit.read fs includePaths path) ↔ StopsReading fs includePaths path := by
  have hload : Fails (load fs includePaths path) ↔
      LosesInclude fs includePaths [path.resolve fs.workingDirectory] path :=
    expandFile_fails_iff htokens hhome hpath
  rw [StopsReading, ← hload]
  refine fails_bind_iff.trans (or_congr_right (exists_congr fun expansion => and_congr_right fun _ => ?_))
  cases herrors : hasErrors expansion.diagnostics with
  | true => simp [not_fails_ok, pure, Except.pure]
  | false =>
    simp only [Bool.false_eq_true, if_false, true_and]
    rw [← ofForms_fails_iff path expansion.included]
    exact fails_bind_pure_iff.trans fails_mapError_iff

end ModuleDocs.Source
