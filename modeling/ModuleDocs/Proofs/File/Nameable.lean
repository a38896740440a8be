import Mathlib
import ModuleDocs.Proofs.File.Locate
import ModuleDocs.Proofs.File.Path

/-!
# Paths that can be given to the system

A path can be given to the system when each of its names can (`Path.isNameable_iff`), so
that paths that are made of others can if these can.  On such a path an operation fails,
if it does, with an error of the system; on any other path with an error of another kind
(`FileSystem.read_error_iff` and its like).
-/

namespace ModuleDocs

/-- A code point that a file name can hold. -/
def FileName.canHold (c : CodePoint) : Bool :=
  c ≠ CodePoint.ofNat 0 && (! c.isSurrogate || isByteEscape c)

theorem FileName.firstUnencodable?_eq_none_iff {t : Text} :
    firstUnencodable? t = none ↔ ∀ c ∈ t, (! (c.isSurrogate && ! isByteEscape c)) = true := by
  rw [← List.dropWhile_eq_nil_iff]
  unfold firstUnencodable?
  dsimp only
  split <;> simp_all

theorem Text.all_join {separator : Text} {f : CodePoint → Bool} (hseparator : separator.all f = true)
    (parts : List Text) : (Text.join separator parts).all f = parts.all fun part => part.all f := by
  induction parts with
  | nil => rfl
  | cons part rest ih =>
    cases rest with
    | nil => simp [Text.join]
    | cons next rest =>
      have hjoin : Text.join separator (part :: next :: rest)
          = part ++ (separator ++ Text.join separator (next :: rest)) := by
        simp [Text.join]
      rw [hjoin, List.all_append, List.all_append, hseparator, ih, Bool.true_and,
        List.all_cons (l := next :: rest)]

namespace Path

variable {p q : Path}

theorem isNameable_iff_toText : p.IsNameable ↔ p.toText.all FileName.canHold = true := by
  rw [List.all_eq_true]
  constructor
  · rintro ⟨hencodable, hzero⟩ c hc
    have hbad := FileName.firstUnencodable?_eq_none_iff.1 hencodable c hc
    have hne : c ≠ CodePoint.ofNat 0 := by
      rintro rfl
      simp [hc] at hzero
    simpa [FileName.canHold, hne] using hbad
  · intro h
    refine ⟨FileName.firstUnencodable?_eq_none_iff.2 fun c hc => ?_, ?_⟩
    · have hgood := h c hc
      simp only [FileName.canHold, Bool.and_eq_true] at hgood
      simpa using hgood.2
    · rw [← Bool.not_eq_true, List.contains_iff_mem]
      intro hmem
      have hgood := h _ hmem
      simp [FileName.canHold] at hgood

/-- A path can be given to the system when each of its names can. -/
theorem isNameable_iff : p.IsNameable ↔ ∀ name ∈ p.names, name.all FileName.canHold = true := by
  have hroot : (Root.text p.root).all FileName.canHold = true := by
    cases p.root <;> decide
  have hslash : List.all (Text.ofString "/") FileName.canHold = true := by decide
  rw [isNameable_iff_toText, toText]
  split
  · rename_i hempty
    have hnames : (Text.join "/" p.names).all FileName.canHold = true := by
      have := (List.append_eq_nil_iff.1 (List.isEmpty_iff.1 hempty)).2
      rw [this]
      rfl
    rw [Text.all_join hslash, List.all_eq_true] at hnames
    exact ⟨fun _ => hnames, fun _ => by decide⟩
  · rw [List.all_append, hroot, Bool.true_and, Text.all_join hslash, List.all_eq_true]

theorem isNameable_child_iff {dir : Path} {name : Text} :
    (dir.child name).IsNameable ↔ dir.IsNameable ∧ name.all FileName.canHold = true := by
  rw [isNameable_iff, isNameable_iff, child, List.forall_mem_append, List.forall_mem_singleton]

theorem isNameable_of_subset (hp : p.IsNameable) (h : q.names ⊆ p.names) : q.IsNameable :=
  isNameable_iff.2 fun name hname => isNameable_iff.1 hp name (h hname)

theorem isNameable_parent (hp : p.IsNameable) : p.parent.IsNameable :=
  isNameable_of_subset hp (List.dropLast_subset p.names)

theorem isNameable_join (hp : p.IsNameable) (hq : q.IsNameable) : (p.join q).IsNameable := by
  unfold join
  split
  · refine isNameable_iff.2 fun name hname => ?_
    rcases List.mem_append.1 hname with hname | hname
    · exact isNameable_iff.1 hp name hname
    · exact isNameable_iff.1 hq name hname
  · exact hq

theorem cancelDots_subset (done names : List Text) : cancelDots done names ⊆ done ++ names := by
  induction names generalizing done with
  | nil => simp [cancelDots]
  | cons name rest ih =>
    rw [cancelDots]
    split
    · intro x hx
      rcases List.mem_append.1 (ih done.tail hx) with hx | hx
      · exact List.mem_append_left _ (List.mem_of_mem_tail hx)
      · exact List.mem_append_right _ (List.mem_cons_of_mem name hx)
    · intro x hx
      have := ih (name :: done) hx
      simp only [List.cons_append, List.mem_cons, List.mem_append] at this ⊢
      tauto

theorem isNameable_resolve (hp : p.IsNameable) {workingDirectory : Path}
    (hhome : workingDirectory.IsNameable) : (p.resolve workingDirectory).IsNameable :=
  isNameable_of_subset (isNameable_join hhome hp) (cancelDots_subset [] _)

end Path

/-! ## Errors of the system -/

/-- The step fails with an error that is not of the system. -/
def FileError.Escapes {α : Type} (x : Except FileError α) : Prop := ∃ e, x = .error e ∧ ¬ e.IsOs

namespace FileSystem

open FileError Result

variable {α β : Type} {fs fs' : FileSystem} {p q : Path}

theorem escapes_iff_not_failsWith {x : Except FileError α} : Escapes x ↔ ¬ FailsWith IsOs x := by
  simp [Escapes, FailsWith]

theorem failsWith_of_not_escapes {x : Except FileError α} (h : ¬ Escapes x) : FailsWith IsOs x :=
  not_not.1 (mt escapes_iff_not_failsWith.2 h)

theorem isOs_os (cause : OsCause) (t : Text) (target? : Option Text) :
    IsOs (.os cause t target?) := ⟨cause, t, target?, rfl⟩

/-- A step whose errors are of the system keeps those of the step before it. -/
theorem escapes_bind_iff {x : Except FileError α} {f : α → Except FileError β}
    (hf : ∀ a, x = .ok a → FailsWith IsOs (f a)) : Escapes (x >>= f) ↔ Escapes x := by
  rw [escapes_iff_not_failsWith, escapes_iff_not_failsWith, not_iff_not]
  refine ⟨fun h e he => h e (bind_eq_error_iff.2 (Or.inl he)), fun h => h.bind hf⟩

theorem locate_escapes_iff (fs : FileSystem) (p : Path) :
    Escapes (fs.locate p) ↔ ¬ p.IsNameable := by
  constructor
  · rintro ⟨e, he, hos⟩ hp
    refine hos ?_
    rw [locate_of_isNameable hp] at he
    split at he
    · cases he
      exact isOs_os _ _ _
    · obtain ⟨cause, _, rfl⟩ := mapError_eq_error_iff.1 he
      exact isOs_os _ _ _
  · exact locate_of_not_isNameable fs

theorem nodeAt_escapes_iff (fs : FileSystem) (p : Path) :
    Escapes (fs.nodeAt p) ↔ ¬ p.IsNameable := by
  rw [← locate_escapes_iff fs p]
  refine escapes_bind_iff fun a _ => ?_
  split
  · exact FailsWith.ok _
  · exact FailsWith.error (isOs_os _ _ _)

/-- Just the paths that cannot be given to the system are read with another error than
one of the system. -/
theorem read_escapes_iff (fs : FileSystem) (p : Path) :
    Escapes (fs.read p) ↔ ¬ p.IsNameable := by
  rw [← nodeAt_escapes_iff fs p]
  refine escapes_bind_iff fun node _ => ?_
  cases node with
  | file data => exact FailsWith.ok data
  | directory => exact FailsWith.error (isOs_os _ _ _)

/-- Whether a path names anything fails only for one that is too long. -/
theorem status_failsWith : FailsWith
    (fun e => ∃ t target?, e = .os .nameTooLong t target? ∧ fs.nodeAt p = .error e)
    (fs.status p) := by
  unfold status
  split
  · exact FailsWith.ok _
  · rename_i t target? hnode
    exact FailsWith.error ⟨t, target?, rfl, hnode⟩
  · exact FailsWith.ok none

theorem isFile_failsWith : FailsWith
    (fun e => ∃ t target?, e = .os .nameTooLong t target? ∧ fs.nodeAt p = .error e)
    (fs.isFile p) := by
  refine status_failsWith.bind fun node? _ => ?_
  split
  · exact FailsWith.ok true
  · exact FailsWith.ok false

/-! ## Changes -/

theorem makeDirectory_escapes_iff (fs : FileSystem) (p : Path) :
    Escapes (fs.makeDirectory p).1 ↔ ¬ p.IsNameable := by
  rw [← locate_escapes_iff fs p]
  unfold makeDirectory
  cases fs.locate p with
  | error e => simp [Escapes]
  | ok a =>
    dsimp only
    split <;> simp [Escapes, IsOs]

/-- An error of the system stays one. -/
theorem unlessDirectory_failsWith {e : FileError} (he : e.IsOs) :
    FailsWith IsOs (fs.unlessDirectory p e) := by
  obtain ⟨cause, t, target?, rfl⟩ := he
  have hdirectory : FailsWith IsOs (fs.isDirectory p) := by
    refine FailsWith.bind (status_failsWith.imp ?_) fun _ _ => FailsWith.ok _
    rintro e ⟨t, target?, rfl, -⟩
    exact isOs_os _ _ _
  refine FailsWith.bind hdirectory fun isDirectory _ => ?_
  cases isDirectory with
  | true => exact FailsWith.ok ()
  | false => exact FailsWith.error (isOs_os _ _ _)

theorem unlessDirectory_of_not_isOs {e : FileError} (he : ¬ e.IsOs) :
    fs.unlessDirectory p e = .error e := by
  cases e with
  | os cause t target? => exact (he (isOs_os _ _ _)).elim
  | unencodable run => rfl
  | nullByte => rfl
  | noName t => rfl

theorem makeDirectory_failsWith (fs : FileSystem) (hp : p.IsNameable) :
    FailsWith IsOs (fs.makeDirectory p).1 :=
  failsWith_of_not_escapes (mt (makeDirectory_escapes_iff fs p).1 (not_not.2 hp))

theorem makeDirectoriesFrom_failsWith {root : Root} {names : List Text}
    (hp : Path.IsNameable ⟨root, names.reverse⟩) :
    FailsWith IsOs (makeDirectoriesFrom root fs names).1 := by
  induction names generalizing fs with
  | nil =>
    have hmake := makeDirectory_failsWith fs hp
    rw [makeDirectoriesFrom]
    split
    · rename_i e fs' hfirst
      exact unlessDirectory_failsWith (hmake e (congrArg Prod.fst hfirst))
    · exact hmake
  | cons name above ih =>
    have habove : Path.IsNameable ⟨root, above.reverse⟩ :=
      Path.isNameable_of_subset hp (by simp)
    have hmake := fun fs => makeDirectory_failsWith fs hp
    rw [makeDirectoriesFrom]
    split
    · split
      · rename_i e fs' hrest
        exact FailsWith.error (ih habove e (by rw [hrest]))
      · rename_i fs' hrest
        split
        · exact FailsWith.error (isOs_os _ _ _)
        · rename_i e fs'' _ hsecond
          exact unlessDirectory_failsWith (hmake fs' e (by rw [hsecond]))
        · exact hmake fs'
    · rename_i e fs' _ hfirst
      exact unlessDirectory_failsWith (hmake fs e (by rw [hfirst]))
    · exact hmake fs

theorem makeDirectories_escapes_iff (fs : FileSystem) (p : Path) :
    Escapes (fs.makeDirectories p).1 ↔ ¬ p.IsNameable := by
  obtain ⟨root, names⟩ := p
  rw [makeDirectories]
  constructor
  · intro hescapes hp
    refine escapes_iff_not_failsWith.1 hescapes (makeDirectoriesFrom_failsWith ?_)
    simpa using hp
  · intro hp
    obtain ⟨e, he, hos⟩ := (makeDirectory_escapes_iff fs ⟨root, names⟩).2 hp
    rcases hnames : names.reverse with _ | ⟨name, above⟩
    · refine (hp (Path.isNameable_iff.2 ?_)).elim
      simp [List.reverse_eq_nil_iff.1 hnames]
    have hpath : (⟨root, (name :: above).reverse⟩ : Path) = ⟨root, names⟩ := by
      rw [← hnames, List.reverse_reverse]
    refine ⟨e, ?_, hos⟩
    rw [makeDirectoriesFrom]
    dsimp only
    rw [hpath]
    split
    · rename_i hfirst
      rw [hfirst] at he
      cases he
      exact (hos (isOs_os _ _ _)).elim
    · rename_i e' fs' _ hfirst
      rw [hfirst] at he
      cases he
      exact unlessDirectory_of_not_isOs hos
    · exact he

theorem write_escapes_iff (fs : FileSystem) (p : Path) (data : Bytes) :
    Escapes (fs.write p data).1 ↔ ¬ p.IsNameable := by
  rw [← locate_escapes_iff fs p]
  unfold write
  cases fs.locate p with
  | error e => simp [Escapes]
  | ok a =>
    dsimp only
    split <;> simp [Escapes, IsOs]

theorem rename_failsWith (hp : p.IsNameable) (hq : q.IsNameable) :
    FailsWith IsOs (fs.rename p q).1 := by
  have htarget : ∀ e, e.IsOs → (withTarget p q e).IsOs := by
    rintro e ⟨cause, t, target?, rfl⟩
    exact isOs_os _ _ _
  have hlocate {r : Path} (hr : r.IsNameable) : FailsWith IsOs (fs.locate r) :=
    failsWith_of_not_escapes (mt (locate_escapes_iff fs r).1 (not_not.2 hr))
  unfold rename
  split
  · rename_i e he
    exact FailsWith.error (htarget e (hlocate hp e he))
  · rename_i e he _
    exact FailsWith.error (htarget e (hlocate hq e he))
  split
  · exact FailsWith.error (isOs_os _ _ _)
  split
  · exact FailsWith.error (isOs_os _ _ _)
  · exact FailsWith.error (isOs_os _ _ _)
  · exact FailsWith.ok ()

end FileSystem

end ModuleDocs
