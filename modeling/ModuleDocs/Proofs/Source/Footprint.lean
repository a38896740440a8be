import Mathlib
import ModuleDocs.Proofs.Source.Loading
import ModuleDocs.Proofs.Source.Payload

/-!
# What reading a source looks at

Reading a source opens files and tests whether paths name files, and sees no more of the
file system.  `ExpansionLooks` lists the looks of an expansion and `SourceLooks` those of a
whole source, with the texts that its forms name by a path.  Regular file systems in which all
of them show the same give the same unit (`SourceUnit.read_congr`).
-/

namespace ModuleDocs

/-- A look at a path: what the file there holds, or whether there is one. -/
inductive Look where
  | opens (p : Path)
  | tests (p : Path)

/-- Both file systems show the same. -/
def Look.SameIn (fs fs' : FileSystem) : Look → Prop
  | .opens p => fs'.read p = fs.read p
  | .tests p => fs'.isFile p = fs.isFile p

theorem Look.sameIn_refl (fs : FileSystem) (look : Look) : look.SameIn fs fs := by
  cases look <;> rfl

namespace Source

variable {fs fs' : FileSystem} {includePaths opened paths : List Path} {p : Path}
  {origin? : Option Span} {form : Form} {forms waiting : List Form} {name : Text}

/-! ## Looks -/

/-- The paths that are tested until one of them names a file. -/
def testedPaths (fs : FileSystem) : List Path → List Path
  | [] => []
  | p :: rest =>
    p :: match fs.isFile p with
      | .ok false => testedPaths fs rest
      | _ => []

/-- The looks of an expansion of the file `p`; `opened` are the paths of the files that are
open, its own the last of them. -/
inductive ExpansionLooks (fs : FileSystem) (includePaths : List Path) :
    List Path → Path → Look → Prop
  | opens {opened : List Path} {p : Path} : ExpansionLooks fs includePaths opened p (.opens p)
  | tests {opened : List Path} {p q : Path} {forms : List Form} {form : Form} {name : Text}
    (hforms : readForms fs p none = .ok (.ok forms)) (hform : form ∈ forms)
    (hname : includeName? form = some name)
    (hq : q ∈ testedPaths fs (lookupPaths includePaths p name)) :
    ExpansionLooks fs includePaths opened p (.tests q)
  | inside {opened : List Path} {p target : Path} {forms : List Form} {form : Form} {name : Text}
    {look : Look} (hforms : readForms fs p none = .ok (.ok forms)) (hform : form ∈ forms)
    (hname : includeName? form = some name)
    (htarget : resolveInclude fs includePaths p name = .ok (some target))
    (hclosed : target ∉ opened)
    (hlook : ExpansionLooks fs includePaths (opened ++ [target]) target look) :
    ExpansionLooks fs includePaths opened p look

/-- The looks of reading a source: those of its expansion, and behind that, if there is no
error and the first form names a module, at the texts that forms name by a path. -/
inductive SourceLooks (fs : FileSystem) (includePaths : List Path) (path : Path) : Look → Prop
  | expansion {look : Look}
    (hlook : ExpansionLooks fs includePaths [path.resolve fs.workingDirectory] path look) :
    SourceLooks fs includePaths path look
  | text {expansion : Expansion} {first form : Form} {rest : List Form} {q : Path}
    (hload : load fs includePaths path = .ok expansion)
    (hclean : hasErrors expansion.diagnostics = false)
    (hforms : expansion.forms = first :: rest) (hmodule : (moduleName first).isOk = true)
    (hform : form ∈ textForms [] rest) (hq : payloadPath? fs form = some q) :
    SourceLooks fs includePaths path (.opens q)

/-! ## Expansions -/

theorem readForms_congr (h : fs'.read p = fs.read p) (origin? : Option Span) :
    readForms fs' p origin? = readForms fs p origin? := by
  have htext : fs'.readText p = fs.readText p := by
    rw [FileSystem.readText, FileSystem.readText, h]
  rw [readForms, readForms, htext]

theorem firstFile_congr (h : ∀ q ∈ testedPaths fs paths, fs'.isFile q = fs.isFile q) :
    firstFile fs' paths = firstFile fs paths := by
  induction paths with
  | nil => rfl
  | cons p rest ih =>
    rw [testedPaths] at h
    obtain ⟨hp, hrest⟩ := List.forall_mem_cons.1 h
    rw [firstFile, firstFile, hp]
    cases hfile : fs.isFile p with
    | error e => rfl
    | ok found =>
      cases found with
      | true => rfl
      | false =>
        rw [hfile] at hrest
        exact ih hrest

theorem resolveInclude_congr (hhome : fs'.workingDirectory = fs.workingDirectory)
    (h : ∀ q ∈ testedPaths fs (lookupPaths includePaths p name), fs'.isFile q = fs.isFile q) :
    resolveInclude fs' includePaths p name = resolveInclude fs includePaths p name := by
  have hfirst := firstFile_congr h
  rw [lookupPaths] at hfirst
  simp only [resolveInclude, hfirst, hhome]

/-- A form comes to the same where its target is found and expanded alike. -/
theorem expandForm_congr (hfs : fs.IsRegular) (hfs' : fs'.IsRegular)
    (htarget : ∀ name, includeName? form = some name →
      resolveInclude fs' includePaths p name = resolveInclude fs includePaths p name)
    (hinside : ∀ name target, includeName? form = some name →
      resolveInclude fs includePaths p name = .ok (some target) → target ∉ opened →
      expandFile fs' includePaths (opened ++ [target]) target (some form.span)
        = expandFile fs includePaths (opened ++ [target]) target (some form.span)) :
    expandForm fs' includePaths opened p form = expandForm fs includePaths opened p form := by
  cases form.leads fs includePaths p with
  | keep hname => rw [expandForm_of_ne hname, expandForm_of_ne hname]
  | noName hname hvalue =>
    rw [expandForm_of_noName hname hvalue, expandForm_of_noName hname hvalue]
  | fails hname hfound =>
    rw [expandForm_of_error hname hfound,
      expandForm_of_error hname ((htarget _ hname).trans hfound)]
  | missing hname hfound =>
    rw [expandForm_of_missing hname hfound,
      expandForm_of_missing hname ((htarget _ hname).trans hfound)]
  | found hname hfound =>
    rw [expandForm_of_target hfs hname hfound,
      expandForm_of_target hfs' hname ((htarget _ hname).trans hfound)]
    split
    · rfl
    · rename_i hclosed
      rw [hinside _ _ hname hfound hclosed]

theorem expandForms_congr
    (h : ∀ form ∈ forms,
      expandForm fs' includePaths opened p form = expandForm fs includePaths opened p form) :
    expandForms fs' includePaths opened p forms = expandForms fs includePaths opened p forms := by
  induction forms with
  | nil => rw [expandForms_nil, expandForms_nil]
  | cons form rest ih =>
    obtain ⟨hform, hrest⟩ := List.forall_mem_cons.1 h
    rw [expandForms_cons, expandForms_cons, hform, ih hrest]

/-- A file is expanded alike where all that the expansion looks at shows the same. -/
theorem expandFile_congr (hfs : fs.IsRegular) (hfs' : fs'.IsRegular)
    (hhome : fs'.workingDirectory = fs.workingDirectory)
    (h : ∀ look, ExpansionLooks fs includePaths opened p look → look.SameIn fs fs') :
    expandFile fs' includePaths opened p origin? = expandFile fs includePaths opened p origin? := by
  induction opened, p using open_induction fs generalizing origin? with
  | hstep opened p ih =>
    rw [expandFile_eq, expandFile_eq, readForms_congr (h _ .opens)]
    cases hread : readForms fs p origin? with
    | error e => rfl
    | ok result =>
      cases result with
      | error d => rfl
      | ok forms =>
        have hforms := (readForms_eq_ok_iff none).2 ((readForms_eq_ok_iff origin?).1 hread)
        refine expandForms_congr fun form hform => expandForm_congr hfs hfs' ?_ ?_
        · exact fun name hname =>
            resolveInclude_congr hhome fun q hq => h _ (.tests hforms hform hname hq)
        · intro name target hname htarget hclosed
          exact ih target (by simpa using hclosed) (isSome_of_resolveInclude hfs htarget)
            fun look hlook => h look (.inside hforms hform hname htarget hclosed hlook)

/-! ## Texts -/

theorem payloadOf_congr (hhome : fs'.workingDirectory = fs.workingDirectory)
    (h : ∀ q, payloadPath? fs form = some q → fs'.read q = fs.read q) :
    payloadOf fs' form = payloadOf fs form := by
  unfold payloadOf
  dsimp only
  split
  · rfl
  · rfl
  · rfl
  split
  · rfl
  · rename_i name hpath
    have hread := h _ (by rw [payloadPath?, hpath]; rfl)
    rw [hhome, hread]

theorem docEvent_congr {ref : EntityRef} (h : payloadOf fs' form = payloadOf fs form) :
    docEvent fs' ref form = docEvent fs ref form := by
  rw [docEvent, docEvent, h]

theorem readDocs_congr {ref : EntityRef}
    (h : ∀ form ∈ forms, payloadOf fs' form = payloadOf fs form) :
    readDocs fs' ref forms = readDocs fs ref forms := by
  induction forms with
  | nil => rfl
  | cons form rest ih =>
    obtain ⟨hform, hrest⟩ := List.forall_mem_cons.1 h
    rw [readDocs, readDocs, docEvent_congr hform, ih hrest]

theorem readDeclaration_congr {kind : EntityKind}
    (h : ∀ doc ∈ (if (entityOf kind form).isOk then waiting else []),
      payloadOf fs' doc = payloadOf fs doc) :
    readDeclaration fs' kind waiting form = readDeclaration fs kind waiting form := by
  unfold readDeclaration
  cases hentity : entityOf kind form with
  | error d => rfl
  | ok ref =>
    rw [hentity] at h
    have hdocs : ∀ doc ∈ waiting, payloadOf fs' doc = payloadOf fs doc := h
    dsimp only
    rw [readDocs_congr hdocs]

theorem readForm_congr
    (h : ∀ doc ∈ (if form.name = Text.ofString "moduledoc" then [form] else []),
      payloadOf fs' doc = payloadOf fs doc) : readForm fs' form = readForm fs form := by
  unfold readForm
  split
  · rfl
  split
  · rfl
  split
  · rename_i hname
    rw [if_pos hname] at h
    rw [h form List.mem_cons_self]
  · rfl

theorem readAll_congr
    (h : ∀ form ∈ textForms waiting forms, payloadOf fs' form = payloadOf fs form) :
    readAll fs' waiting forms = readAll fs waiting forms := by
  induction forms generalizing waiting with
  | nil => rfl
  | cons form rest ih =>
    rw [textForms] at h
    rw [readAll, readAll]
    split
    · rename_i hname
      rw [if_pos hname] at h
      exact ih h
    · rename_i hname
      rw [if_neg hname] at h
      cases hkind : entityKind? form.name with
      | some kind =>
        rw [hkind] at h
        obtain ⟨hfirst, hrest⟩ := List.forall_mem_append.1 h
        dsimp only
        rw [readDeclaration_congr hfirst, ih hrest]
      | none =>
        rw [hkind] at h
        obtain ⟨hfirst, hrest⟩ := List.forall_mem_append.1 h
        dsimp only
        rw [readForm_congr hfirst, ih hrest]

/-! ## Sources -/

/-- A source is read alike where all that reading it looks at shows the same. -/
theorem SourceUnit.read_congr (hfs : fs.IsRegular) (hfs' : fs'.IsRegular)
    (hhome : fs'.workingDirectory = fs.workingDirectory)
    (h : ∀ look, SourceLooks fs includePaths p look → look.SameIn fs fs') :
    SourceUnit.read fs' includePaths p = SourceUnit.read fs includePaths p := by
  have hload : load fs' includePaths p = load fs includePaths p := by
    rw [load, load, hhome]
    exact expandFile_congr hfs hfs' hhome fun look hlook => h look (.expansion hlook)
  rw [SourceUnit.read, SourceUnit.read, hload]
  cases hexpansion : load fs includePaths p with
  | error e => rfl
  | ok expansion =>
    dsimp only [bind, Except.bind]
    split
    · rfl
    · rename_i hclean
      have hforms : SourceUnit.ofForms fs' p expansion.included expansion.forms
          = SourceUnit.ofForms fs p expansion.included expansion.forms := by
        cases hfirst : expansion.forms with
        | nil => rfl
        | cons first rest =>
          rw [SourceUnit.ofForms, SourceUnit.ofForms]
          cases hmodule : moduleName first with
          | error d => rfl
          | ok module =>
            dsimp only
            rw [readAll_congr fun form hform => payloadOf_congr hhome fun q hq =>
              h _ (.text hexpansion (by simpa using hclean) hfirst (by rw [hmodule]; rfl) hform hq)]
      rw [hforms]

/-! ## Plain sources -/

theorem mem_of_mem_textForms (h : form ∈ textForms waiting forms) :
    form ∈ waiting ∨ form ∈ forms := by
  induction forms generalizing waiting with
  | nil => cases h
  | cons first rest ih =>
    rw [textForms] at h
    rw [List.mem_cons]
    split at h
    · have := ih h
      simp only [List.mem_cons] at this
      tauto
    · split at h
      · rcases List.mem_append.1 h with h | h
        · split at h
          · exact Or.inl (List.mem_reverse.1 h)
          · cases h
        · have := ih h
          simp only [List.not_mem_nil, false_or] at this
          tauto
      · rcases List.mem_append.1 h with h | h
        · split at h
          · exact Or.inr (Or.inl (List.mem_singleton.1 h))
          · cases h
        · have := ih h
          tauto

/-- A source that names no other file is all that is looked at. -/
theorem eq_opens_of_plain {look : Look} (hread : readForms fs p none = .ok (.ok forms))
    (hplain : ∀ form ∈ forms, form.name ≠ Text.ofString "include" ∧ filePath? form.value = none)
    (h : SourceLooks fs includePaths p look) : look = .opens p := by
  have hnone : ∀ form ∈ forms, ∀ name, includeName? form ≠ some name :=
    fun form hform name hname => (hplain form hform).1 (includeName?_eq_some_iff.1 hname).1
  cases h with
  | expansion hlook =>
    cases hlook with
    | opens => rfl
    | tests hforms hform hname =>
      cases hread.symm.trans hforms
      exact (hnone _ hform _ hname).elim
    | inside hforms hform hname =>
      cases hread.symm.trans hforms
      exact (hnone _ hform _ hname).elim
  | text hload _ hforms _ hform hq =>
    rw [load, expandFile_eq, hread] at hload
    cases (expandForms_of_plain fun form hform => (hplain form hform).1).symm.trans hload
    have hmem := (mem_of_mem_textForms hform).resolve_left List.not_mem_nil
    dsimp only at hforms
    rw [hforms] at hplain
    rw [payloadPath?, (hplain _ (List.mem_cons_of_mem _ hmem)).2] at hq
    cases hq

end Source

end ModuleDocs
