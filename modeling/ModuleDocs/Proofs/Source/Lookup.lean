import Mathlib
import ModuleDocs.Proofs.File.Nameable
import ModuleDocs.Proofs.Source.Include

/-!
# Lookups of included files

A lookup goes through paths in order and ends at the first that names a file.  It fails
just when it comes to a path that is too long for the system (`firstFile_fails_iff`).
That is the only way in which an expansion fails where all integers can be read:
`expandFile_fails_iff` says so for a first file, whose path and working directory can be
given to the system.
-/

namespace ModuleDocs

open Result

/-- The paths lead to one that is too long before they lead to a file. -/
def FileSystem.StopsAtLong (fs : FileSystem) (paths : List Path) : Prop :=
  ∃ front p back t target?, paths = front ++ p :: back ∧ (∀ q ∈ front, fs.isFile q = .ok false) ∧
    fs.nodeAt p = .error (.os .nameTooLong t target?)

namespace Source

variable {fs : FileSystem} {includePaths opened paths : List Path} {p target : Path}
  {origin? : Option Span} {form : Form} {forms : List Form} {name : Text}

/-! ## One lookup -/

theorem isFile_of_nodeAt_long {t : Text} {target? : Option Text}
    (h : fs.nodeAt p = .error (.os .nameTooLong t target?)) :
    fs.isFile p = .error (.os .nameTooLong t target?) := by
  have hstatus : fs.status p = .error (.os .nameTooLong t target?) := by
    unfold FileSystem.status
    rw [h]
  rw [FileSystem.isFile, hstatus]
  rfl

theorem isNameable_of_isFile (h : fs.isFile p = .ok true) : p.IsNameable := by
  by_contra hp
  obtain ⟨e, he, hos⟩ := (FileSystem.nodeAt_escapes_iff fs p).2 hp
  have hstatus : fs.status p = .ok none := by
    unfold FileSystem.status
    rw [he]
    cases e with
    | os cause t target? => exact (hos (FileSystem.isOs_os _ _ _)).elim
    | unencodable run => rfl
    | nullByte => rfl
    | noName t => rfl
  rw [FileSystem.isFile, hstatus] at h
  cases h

/-- A lookup fails just when it comes to a path that is too long. -/
theorem firstFile_fails_iff : Fails (firstFile fs paths) ↔ fs.StopsAtLong paths := by
  induction paths with
  | nil => simp [firstFile, Fails, FileSystem.StopsAtLong]
  | cons p rest ih =>
    rw [firstFile]
    constructor
    · rintro hfails
      rcases fails_bind_iff.1 hfails with ⟨e, he⟩ | ⟨isFile, hfile, hrest⟩
      · obtain ⟨t, target?, rfl, hnode⟩ := FileSystem.isFile_failsWith e he
        exact ⟨[], p, rest, t, target?, rfl, by simp, hnode⟩
      · cases isFile with
        | true => exact (not_fails_ok _ hrest).elim
        | false =>
          obtain ⟨front, q, back, t, target?, rfl, hfront, hnode⟩ := ih.1 hrest
          exact ⟨p :: front, q, back, t, target?, rfl, List.forall_mem_cons.2 ⟨hfile, hfront⟩, hnode⟩
    · rintro ⟨front, q, back, t, target?, hpaths, hfront, hnode⟩
      cases front with
      | nil =>
        obtain ⟨rfl, rfl⟩ := List.cons.inj hpaths
        exact fails_bind_iff.2 (Or.inl ⟨_, isFile_of_nodeAt_long hnode⟩)
      | cons first front =>
        obtain ⟨rfl, rfl⟩ := List.cons.inj hpaths
        refine fails_bind_iff.2 (Or.inr ⟨false, hfront p List.mem_cons_self, ih.2 ?_⟩)
        exact ⟨front, q, back, t, target?, rfl, fun r hr => hfront r (List.mem_cons_of_mem p hr), hnode⟩

theorem isFile_of_firstFile (h : firstFile fs paths = .ok (some p)) : fs.isFile p = .ok true := by
  induction paths with
  | nil => cases h
  | cons q rest ih =>
    rw [firstFile] at h
    obtain ⟨isFile, hfile, h⟩ := bind_eq_ok_iff.1 h
    cases isFile with
    | true =>
      cases h
      exact hfile
    | false => exact ih h

/-- The paths under which an included file is looked for. -/
def lookupPaths (includePaths : List Path) (current : Path) (name : Text) : List Path :=
  current.parent.join (Path.parse name) :: includePaths.map (·.join (Path.parse name))

theorem resolveInclude_fails_iff :
    Fails (resolveInclude fs includePaths p name) ↔
      fs.StopsAtLong (lookupPaths includePaths p name) := by
  rw [← firstFile_fails_iff]
  exact fails_bind_pure_iff

/-- A file that was found has a path that can be given to the system. -/
theorem isNameable_of_resolveInclude (hhome : fs.workingDirectory.IsNameable)
    (h : resolveInclude fs includePaths p name = .ok (some target)) : target.IsNameable := by
  obtain ⟨found?, hfound, h⟩ := bind_pure_eq_ok_iff.1 h
  obtain ⟨found, rfl, rfl⟩ := Option.map_eq_some_iff.1 h
  exact Path.isNameable_resolve (isNameable_of_isFile (isFile_of_firstFile hfound)) hhome

/-! ## Expansions -/

/-- While the file `p` is expanded inside the open files, a lookup comes to a path that is
too long. -/
inductive LosesInclude (fs : FileSystem) (includePaths : List Path) : List Path → Path → Prop
  | here {opened : List Path} {p : Path} {forms : List Form} {form : Form} {name : Text}
    (hforms : readForms fs p none = .ok (.ok forms)) (hform : form ∈ forms)
    (hname : includeName? form = some name)
    (hlong : fs.StopsAtLong (lookupPaths includePaths p name)) :
    LosesInclude fs includePaths opened p
  | inside {opened : List Path} {p target : Path} {forms : List Form} {form : Form} {name : Text}
    (hforms : readForms fs p none = .ok (.ok forms)) (hform : form ∈ forms)
    (hname : includeName? form = some name)
    (htarget : resolveInclude fs includePaths p name = .ok (some target))
    (hclosed : opened.contains target = false)
    (hthere : (fs.get? target.location).isSome = true)
    (hinside : LosesInclude fs includePaths (opened ++ [target]) target) :
    LosesInclude fs includePaths opened p

/-- A file whose path can be given to the system is read, or there is a diagnostic. -/
theorem exists_readForms (htokens : AllTokens Token.HasFewDigits fs) (origin? : Option Span)
    (hp : p.IsNameable) : ∃ result, readForms fs p origin? = .ok result := by
  have hread : FailsWith FileError.IsOs (fs.read p) :=
    FileSystem.failsWith_of_not_escapes (mt (FileSystem.read_escapes_iff fs p).1 (not_not.2 hp))
  have htext : FailsWith (fun e => ∀ e', e = .file e' → e'.IsOs) (fs.readText p) := by
    refine FailsWith.bind (FailsWith.mapError fun e he e' he' => ?_) fun data _ => ?_
    · cases he'
      exact hread e he
    · exact FailsWith.bind (FailsWith.mapError fun e _ e' he' => by cases he') fun t _ => FailsWith.ok _
  unfold readForms
  split
  · exact ⟨_, rfl⟩
  · rename_i e hos he
    obtain ⟨cause, t, target?, rfl⟩ := htext _ he e rfl
    exact (hos cause t target? rfl).elim
  · exact ⟨_, rfl⟩
  · rename_i t ht
    split
    · exact ⟨_, rfl⟩
    · rename_i e at_ he
      exact (Form.failsWith_ofText (fun nodes => htokens p t nodes ht) _ he e at_ rfl).elim
    · exact ⟨_, rfl⟩

theorem expandForm_fails_iff :
    Fails (expandForm fs includePaths opened p form) ↔ ∃ name, includeName? form = some name ∧
      (fs.StopsAtLong (lookupPaths includePaths p name) ∨
        ∃ target, resolveInclude fs includePaths p name = .ok (some target) ∧
          opened.contains target = false ∧ (fs.get? target.location).isSome = true ∧
          Fails (expandFile fs includePaths (opened ++ [target]) target (some form.span))) := by
  constructor
  · intro h
    cases form.leads fs includePaths p with
    | keep hname =>
      rw [expandForm_of_ne hname] at h
      exact (not_fails_ok _ h).elim
    | noName hname hvalue =>
      rw [expandForm_of_noName hname hvalue] at h
      exact (not_fails_ok _ h).elim
    | fails hname htarget =>
      exact ⟨_, hname, Or.inl (resolveInclude_fails_iff.1 ⟨_, htarget⟩)⟩
    | missing hname htarget =>
      rw [expandForm_of_missing hname htarget] at h
      exact (not_fails_ok _ h).elim
    | found hname htarget =>
      rw [expandForm_of_found hname htarget] at h
      split at h
      · rename_i hopen
        exact ⟨_, hname, Or.inr ⟨_, htarget, hopen.1, hopen.2, fails_map_iff.1 h⟩⟩
      · exact (not_fails_ok _ h).elim
  · rintro ⟨name, hname, hlong | ⟨target, htarget, hclosed, hthere, hfails⟩⟩
    · obtain ⟨e, he⟩ := resolveInclude_fails_iff.2 hlong
      exact ⟨.file e, expandForm_of_error hname he⟩
    · rw [expandForm_of_found hname htarget, if_pos ⟨hclosed, hthere⟩]
      exact fails_map_iff.2 hfails

theorem expandForms_fails_iff : Fails (expandForms fs includePaths opened p forms) ↔
    ∃ form ∈ forms, Fails (expandForm fs includePaths opened p form) := by
  induction forms with
  | nil =>
    rw [expandForms_nil]
    simp [not_fails_ok]
  | cons form rest ih =>
    rw [expandForms_cons, List.exists_mem_cons_iff, ← ih]
    exact fails_seq_iff

/-- An expansion fails just when a lookup inside it comes to a path that is too long. -/
theorem expandFile_fails_iff (htokens : AllTokens Token.HasFewDigits fs)
    (hhome : fs.workingDirectory.IsNameable) (hp : p.IsNameable) :
    Fails (expandFile fs includePaths opened p origin?) ↔
      LosesInclude fs includePaths opened p := by
  induction opened, p using open_induction fs generalizing origin? with
  | hstep opened p ih =>
    rw [expandFile_eq]
    obtain ⟨result, hresult⟩ := exists_readForms htokens origin? hp
    have hread : ∀ forms, readForms fs p none = .ok (.ok forms) ↔ result = .ok forms := by
      intro forms
      rw [readForms_eq_ok_iff, ← readForms_eq_ok_iff origin?, hresult, Except.ok.injEq]
    rw [hresult]
    cases result with
    | error d =>
      refine iff_of_false (not_fails_ok _) fun hloses => ?_
      cases hloses with
      | here hforms => cases (hread _).1 hforms
      | inside hforms => cases (hread _).1 hforms
    | ok forms =>
      change Fails (expandForms fs includePaths opened p forms) ↔ _
      rw [expandForms_fails_iff]
      constructor
      · rintro ⟨form, hform, hfails⟩
        obtain ⟨name, hname, hlong | ⟨target, htarget, hclosed, hthere, hfails⟩⟩ :=
          expandForm_fails_iff.1 hfails
        · exact .here ((hread forms).2 rfl) hform hname hlong
        · have hnameable := isNameable_of_resolveInclude hhome htarget
          exact .inside ((hread forms).2 rfl) hform hname htarget hclosed hthere
            ((ih target hclosed hthere hnameable).1 hfails)
      · rintro (⟨hforms, hform, hname, hlong⟩ |
          ⟨hforms, hform, hname, htarget, hclosed, hthere, hinside⟩)
        · cases (hread _).1 hforms
          exact ⟨_, hform, expandForm_fails_iff.2 ⟨_, hname, Or.inl hlong⟩⟩
        · cases (hread _).1 hforms
          have hnameable := isNameable_of_resolveInclude hhome htarget
          exact ⟨_, hform, expandForm_fails_iff.2 ⟨_, hname, Or.inr ⟨_, htarget, hclosed, hthere,
            (ih _ hclosed hthere hnameable).2 hinside⟩⟩⟩

end Source

end ModuleDocs
