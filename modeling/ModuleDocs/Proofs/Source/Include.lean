import Mathlib
import ModuleDocs.Proofs.Source.Value
import ModuleDocs.Source.Include

/-!
# What an expansion is made of

`expandForm` is what one form comes to, so that the expansion of forms is theirs one after
the other (`expandForms_cons`).  `Form.leads` are the cases that there are for a form, and for
each of them an equation says what the form comes to.  The induction of this module is
`open_induction`: it goes from the targets of a file, which are opened behind it, to the file.

All forms of an expansion are forms of files that were read
(`forall_forms_of_expandFile`).
-/

namespace ModuleDocs.Source

variable {T : Token → Prop} {P : Term → Prop} {fs : FileSystem}
  {includePaths opened : List Path} {p : Path} {origin? : Option Span}
  {form : Form} {forms : List Form} {expansion : Expansion} {name : Text}

/-! ## One file -/

/-- The tokens of each file that is a sequence of forms have the property. -/
def AllTokens (T : Token → Prop) (fs : FileSystem) : Prop :=
  ∀ p t nodes, fs.readText p = .ok t → Forms.ofText t = .ok nodes →
    ∀ token ∈ (Tokens.ofText t).tokens, T token

theorem AllTokens.of_imp {T' : Token → Prop} (h : AllTokens T fs)
    (hT : ∀ token, T token → T' token) : AllTokens T' fs :=
  fun p t nodes ht hnodes token htoken => hT token (h p t nodes ht hnodes token htoken)

/-- The forms of a file do not depend on what includes it. -/
theorem readForms_eq_ok_iff (origin? : Option Span) : readForms fs p origin? = .ok (.ok forms) ↔
    ∃ t, fs.readText p = .ok t ∧ Form.ofText t (some p.toText) = .ok forms := by
  unfold readForms
  cases fs.readText p with
  | error e =>
    cases e with
    | file e => cases e <;> simp
    | notUtf8 e => simp
  | ok t =>
    simp only [Except.ok.injEq, exists_eq_left']
    split <;> simp_all

/-- The forms of a file are as the tokens of all files say. -/
theorem sound_of_readForms (hP : IsLiteral T P) (htokens : AllTokens T fs)
    (h : readForms fs p origin? = .ok (.ok forms)) : ∀ form ∈ forms, form.Sound T P := by
  obtain ⟨t, ht, hforms⟩ := (readForms_eq_ok_iff origin?).1 h
  obtain ⟨nodes, hnodes⟩ := Form.exists_nodes_of_ofText hforms
  exact fun form hform =>
    (Form.sound_of_ofText hP (htokens p t nodes ht hnodes) hforms form hform).1

/-! ## One form -/

/-- What a form of the file `p` comes to. -/
def expandForm (fs : FileSystem) (includePaths opened : List Path) (p : Path) (form : Form) :
    Except Failure Expansion :=
  if form.name ≠ Text.ofString "include" then .ok (.ofForm form)
  else
    match form.value.chars? with
    | none =>
      .ok (.ofDiagnostic (.error "parser" "E-DOC-INCLUDE"
        "-include expects a file name string" form.span))
    | some name => do
      match ← (resolveInclude fs includePaths p name).mapError .file with
      | none =>
        return .ofDiagnostic (.error "parser" "E-DOC-INCLUDE"
          (("include file not found: " : Text) ++ name) form.span)
      | some target =>
        if opened.contains target = false ∧ (fs.get? target.location).isSome = true then
          return Expansion.append ⟨[], [], [target]⟩
            (← expandFile fs includePaths (opened ++ [target]) target (some form.span))
        else return .ofDiagnostic (cycle form opened target)

theorem includeName?_eq_some_iff : includeName? form = some name ↔
    form.name = Text.ofString "include" ∧ form.value.chars? = some name := by
  unfold includeName?
  split <;> simp_all

/-- Where a form of the file `p` leads.  It is no include, names no file, or names one that cannot
be looked for, is not there, or is found. -/
inductive Form.Leads (fs : FileSystem) (includePaths : List Path) (p : Path) (form : Form) : Prop
  | keep (hname : form.name ≠ Text.ofString "include")
  | noName (hname : form.name = Text.ofString "include") (hvalue : form.value.chars? = none)
  | fails {name : Text} {e : FileError} (hname : includeName? form = some name)
    (htarget : resolveInclude fs includePaths p name = .error e)
  | missing {name : Text} (hname : includeName? form = some name)
    (htarget : resolveInclude fs includePaths p name = .ok none)
  | found {name : Text} {target : Path} (hname : includeName? form = some name)
    (htarget : resolveInclude fs includePaths p name = .ok (some target))

theorem Form.leads (fs : FileSystem) (includePaths : List Path) (p : Path) (form : Form) :
    form.Leads fs includePaths p := by
  by_cases hinclude : form.name = Text.ofString "include"
  swap
  · exact .keep hinclude
  cases hvalue : form.value.chars? with
  | none => exact .noName hinclude hvalue
  | some name =>
    have hname := includeName?_eq_some_iff.2 ⟨hinclude, hvalue⟩
    cases htarget : resolveInclude fs includePaths p name with
    | error e => exact .fails hname htarget
    | ok target? =>
      cases target? with
      | none => exact .missing hname htarget
      | some target => exact .found hname htarget

theorem expandForm_of_ne (hname : form.name ≠ Text.ofString "include") :
    expandForm fs includePaths opened p form = .ok (.ofForm form) := by
  rw [expandForm, if_pos hname]

theorem expandForm_of_noName (hname : form.name = Text.ofString "include")
    (hvalue : form.value.chars? = none) :
    expandForm fs includePaths opened p form = .ok (.ofDiagnostic
      (.error "parser" "E-DOC-INCLUDE" "-include expects a file name string" form.span)) := by
  rw [expandForm, if_neg (not_not.2 hname), hvalue]

/-- What an include comes to, by where its name leads. -/
theorem expandForm_of_includeName? (hname : includeName? form = some name) :
    expandForm fs includePaths opened p form =
      match resolveInclude fs includePaths p name with
      | .error e => .error (.file e)
      | .ok none => .ok (.ofDiagnostic (.error "parser" "E-DOC-INCLUDE"
          (("include file not found: " : Text) ++ name) form.span))
      | .ok (some target) =>
        if opened.contains target = false ∧ (fs.get? target.location).isSome = true then
          (expandFile fs includePaths (opened ++ [target]) target (some form.span)).map
            (Expansion.append ⟨[], [], [target]⟩)
        else .ok (.ofDiagnostic (cycle form opened target)) := by
  obtain ⟨hinclude, hchars⟩ := includeName?_eq_some_iff.1 hname
  rw [expandForm, if_neg (not_not.2 hinclude), hchars]
  dsimp only
  cases resolveInclude fs includePaths p name with
  | error e => rfl
  | ok target? =>
    cases target? with
    | none => rfl
    | some target =>
      dsimp only [bind, Except.bind, Except.mapError]
      split
      · cases expandFile fs includePaths (opened ++ [target]) target (some form.span) <;> rfl
      · rfl

theorem expandForm_of_error {e : FileError} (hname : includeName? form = some name)
    (htarget : resolveInclude fs includePaths p name = .error e) :
    expandForm fs includePaths opened p form = .error (.file e) := by
  rw [expandForm_of_includeName? hname, htarget]

theorem expandForm_of_missing (hname : includeName? form = some name)
    (htarget : resolveInclude fs includePaths p name = .ok none) :
    expandForm fs includePaths opened p form = .ok (.ofDiagnostic (.error "parser" "E-DOC-INCLUDE"
      (("include file not found: " : Text) ++ name) form.span)) := by
  rw [expandForm_of_includeName? hname, htarget]

theorem expandForm_of_found {target : Path} (hname : includeName? form = some name)
    (htarget : resolveInclude fs includePaths p name = .ok (some target)) :
    expandForm fs includePaths opened p form =
      if opened.contains target = false ∧ (fs.get? target.location).isSome = true then
        (expandFile fs includePaths (opened ++ [target]) target (some form.span)).map
          (Expansion.append ⟨[], [], [target]⟩)
      else .ok (.ofDiagnostic (cycle form opened target)) := by
  rw [expandForm_of_includeName? hname, htarget]

/-! ## Forms one after the other -/

theorem expandForms_nil : expandForms fs includePaths opened p [] = .ok .empty := by
  rw [expandForms.eq_def]

theorem expandForms_cons :
    expandForms fs includePaths opened p (form :: forms) = (do
      let first ← expandForm fs includePaths opened p form
      return first.append (← expandForms fs includePaths opened p forms)) := by
  rw [expandForms.eq_def, expandForm]
  dsimp only
  split
  · rfl
  · cases form.value.chars? with
    | none => rfl
    | some name =>
      dsimp only
      cases resolveInclude fs includePaths p name with
      | error e => rfl
      | ok target? =>
        cases target? with
        | none => rfl
        | some target =>
          dsimp only [bind, Except.bind, Except.mapError]
          split
          · cases expandFile fs includePaths (opened ++ [target]) target (some form.span) <;> rfl
          · rfl

/-- Forms without includes stand for themselves. -/
theorem expandForms_of_plain (h : ∀ form ∈ forms, form.name ≠ Text.ofString "include") :
    expandForms fs includePaths opened p forms = .ok ⟨forms, [], []⟩ := by
  induction forms with
  | nil =>
    rw [expandForms_nil]
    rfl
  | cons form rest ih =>
    rw [expandForms_cons, ih fun f hf => h f (List.mem_cons_of_mem _ hf), expandForm,
      if_pos (h form List.mem_cons_self)]
    rfl

theorem expandFile_eq :
    expandFile fs includePaths opened p origin? = (do
      match ← readForms fs p origin? with
      | .error d => return .ofDiagnostic d
      | .ok forms => expandForms fs includePaths opened p forms) := by
  rewrite [expandFile.eq_def]
  cases readForms fs p origin? with
  | error e => rfl
  | ok result => cases result <;> rfl

/-! ## Induction -/

/-- What holds of a file when it holds of all files that it may open holds of every file. -/
theorem open_induction (fs : FileSystem) {motive : List Path → Path → Prop}
    (hstep : ∀ opened p, (∀ target, opened.contains target = false →
      (fs.get? target.location).isSome = true → motive (opened ++ [target]) target) →
      motive opened p)
    (opened : List Path) (p : Path) : motive opened p := by
  induction hn : (closedPaths fs opened).length using Nat.strong_induction_on
    generalizing opened p with
  | _ n ih =>
    refine hstep opened p fun target hclosed hexists => ?_
    have hfewer := length_closedPaths_lt fs opened target hexists hclosed
    exact ih _ (hn ▸ hfewer) _ _ rfl

/-! ## Forms -/

/-- What a form comes to that is no error: itself, nothing, or the forms of a file. -/
theorem expandForm_eq_ok (h : expandForm fs includePaths opened p form = .ok expansion) :
    expansion.forms = [form] ∨ expansion.forms = [] ∨
      ∃ target inner, opened.contains target = false ∧ (fs.get? target.location).isSome = true ∧
        expandFile fs includePaths (opened ++ [target]) target (some form.span) = .ok inner ∧
        expansion.forms = inner.forms := by
  cases form.leads fs includePaths p with
  | keep hname =>
    cases (expandForm_of_ne hname).symm.trans h
    exact Or.inl rfl
  | noName hname hvalue =>
    cases (expandForm_of_noName hname hvalue).symm.trans h
    exact Or.inr (Or.inl rfl)
  | fails hname htarget => cases (expandForm_of_error hname htarget).symm.trans h
  | missing hname htarget =>
    cases (expandForm_of_missing hname htarget).symm.trans h
    exact Or.inr (Or.inl rfl)
  | @found name target hname htarget =>
    rw [expandForm_of_found hname htarget] at h
    split at h
    · rename_i hopen
      obtain ⟨inner, hinner, rfl⟩ := Result.map_eq_ok_iff.1 h
      exact Or.inr (Or.inr ⟨target, inner, hopen.1, hopen.2, hinner, rfl⟩)
    · cases h
      exact Or.inr (Or.inl rfl)

/-- All forms of an expansion are forms of files. -/
theorem forall_forms_of_expandFile {Q : Form → Prop}
    (hread : ∀ p origin? forms, readForms fs p origin? = .ok (.ok forms) → ∀ form ∈ forms, Q form)
    (h : expandFile fs includePaths opened p origin? = .ok expansion) :
    ∀ form ∈ expansion.forms, Q form := by
  induction opened, p using open_induction fs generalizing origin? expansion with
  | hstep opened p ih =>
    -- The forms of one file, each of which may stand for those of another.
    have hforms : ∀ (forms : List Form) (expansion : Expansion), (∀ form ∈ forms, Q form) →
        expandForms fs includePaths opened p forms = .ok expansion →
        ∀ form ∈ expansion.forms, Q form := by
      intro forms
      induction forms with
      | nil =>
        intro expansion _ h
        rw [expandForms_nil] at h
        cases h
        simp [Expansion.empty]
      | cons first rest ihForms =>
        intro expansion hall h
        rw [expandForms_cons] at h
        obtain ⟨front, hfront, h⟩ := Result.bind_eq_ok_iff.1 h
        obtain ⟨back, hback, rfl⟩ := Result.bind_pure_eq_ok_iff.1 h
        have hrest := ihForms back (fun f hf => hall f (List.mem_cons_of_mem _ hf)) hback
        intro form hform
        rcases List.mem_append.1 hform with hform | hform
        · rcases expandForm_eq_ok hfront with hown | hnone |
            ⟨target, inner, hclosed, hexists, hinner, hsame⟩
          · rw [hown, List.mem_singleton] at hform
            exact hform ▸ hall first List.mem_cons_self
          · simp [hnone] at hform
          · exact ih target hclosed hexists hinner form (hsame ▸ hform)
        · exact hrest form hform
    rw [expandFile_eq] at h
    obtain ⟨result, hresult, h⟩ := Result.bind_eq_ok_iff.1 h
    cases result with
    | error d =>
      cases h
      simp [Expansion.ofDiagnostic]
    | ok forms => exact hforms forms expansion (hread p origin? forms hresult) h

end ModuleDocs.Source
