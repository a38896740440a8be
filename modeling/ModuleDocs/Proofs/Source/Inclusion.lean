import Mathlib
import ModuleDocs.Proofs.File.Regular
import ModuleDocs.Proofs.Source.Lookup

/-!
# Which files include which

`Includes` relates a file to the files that its include forms lead to.  Two paths of one
file include the same files, if not under the same paths (`exists_includes_of_sameFile`).
So a file that includes itself over any files and under any paths has no end of includes
(`not_leadsIntoCycle_of_acc`).
-/

namespace ModuleDocs.Source

open Result

variable {fs : FileSystem} {includePaths : List Path} {p q r target : Path} {form : Form}
  {forms : List Form} {name t : Text} {file? : Option Text}

/-! ## Forms of one text -/

theorem Form.ofNodes_eq_ok (other? : Option Text) {nodes : List FormNode}
    (h : Form.ofNodes file? nodes = .ok forms) :
    Form.ofNodes other? nodes = .ok (forms.map fun form => { form with file? := other? }) := by
  induction nodes generalizing forms with
  | nil =>
    cases h
    rfl
  | cons node rest ih =>
    rw [Form.ofNodes] at h ⊢
    obtain ⟨value, hvalue, h⟩ := bind_eq_ok_iff.1 h
    obtain ⟨others, hothers, rfl⟩ := bind_pure_eq_ok_iff.1 h
    rw [hvalue, ih hothers]
    rfl

/-- The forms of a text in one file are those in another but for the file. -/
theorem Form.ofText_eq_ok (other? : Option Text) (h : Form.ofText t file? = .ok forms) :
    Form.ofText t other? = .ok (forms.map fun form => { form with file? := other? }) := by
  unfold Form.ofText at h ⊢
  split at h
  · cases h
  · exact mapError_eq_ok_iff.2 (Form.ofNodes_eq_ok other? (mapError_eq_ok_iff.1 h))

theorem Form.file?_of_ofText (h : Form.ofText t file? = .ok forms) (hform : form ∈ forms) :
    form.file? = file? := by
  have hsame := h.symm.trans (Form.ofText_eq_ok file? h)
  rw [Except.ok.inj hsame] at hform
  obtain ⟨written, -, rfl⟩ := List.mem_map.1 hform
  rfl

/-! ## Files and their includes -/

/-- The file `p` has an include form that leads to the file `target`. -/
def Includes (fs : FileSystem) (includePaths : List Path) (p target : Path) : Prop :=
  ∃ forms form name, readForms fs p none = .ok (.ok forms) ∧ form ∈ forms ∧
    includeName? form = some name ∧ resolveInclude fs includePaths p name = .ok (some target)

/-- The file reads and parses, and each include form in it holds a text that leads to a
file. -/
def IsSound (fs : FileSystem) (includePaths : List Path) (p : Path) : Prop :=
  ∃ forms, readForms fs p none = .ok (.ok forms) ∧
    ∀ form ∈ forms, form.name = Text.ofString "include" →
      ∃ name target, form.value.chars? = some name ∧
        resolveInclude fs includePaths p name = .ok (some target)

/-- The file and all files that it reaches through includes are sound. -/
def IsComplete (fs : FileSystem) (includePaths : List Path) (p : Path) : Prop :=
  ∀ q, Relation.ReflTransGen (Includes fs includePaths) p q → IsSound fs includePaths q

/-- The file reaches one that includes itself, perhaps over other files and under
another path. -/
def LeadsIntoCycle (fs : FileSystem) (includePaths : List Path) (p : Path) : Prop :=
  ∃ q r, Relation.ReflTransGen (Includes fs includePaths) p q ∧
    Relation.TransGen (Includes fs includePaths) q r ∧ fs.SameFile q r

theorem IsComplete.sound (h : IsComplete fs includePaths p) : IsSound fs includePaths p :=
  h p .refl

theorem IsComplete.of_reaches (h : IsComplete fs includePaths p)
    (hq : Relation.ReflTransGen (Includes fs includePaths) p q) : IsComplete fs includePaths q :=
  fun r hr => h r (hq.trans hr)

theorem IsComplete.of_includes (h : IsComplete fs includePaths p)
    (hq : Includes fs includePaths p q) : IsComplete fs includePaths q :=
  h.of_reaches (.single hq)

/-- Files whose includes all lead to one of them are complete. -/
theorem isComplete_of_closed (files : List Path)
    (h : ∀ q ∈ files, ∃ forms, readForms fs q none = .ok (.ok forms) ∧
      ∀ form ∈ forms, form.name = Text.ofString "include" →
        ∃ name, form.value.chars? = some name ∧
          ∃ target ∈ files, resolveInclude fs includePaths q name = .ok (some target))
    (hp : p ∈ files) : IsComplete fs includePaths p := by
  intro q hq
  have hmem : q ∈ files := by
    induction hq with
    | refl => exact hp
    | tail _ hstep ih =>
      obtain ⟨forms, form, name, hforms, hform, hname, htarget⟩ := hstep
      obtain ⟨hinclude, hchars⟩ := includeName?_eq_some_iff.1 hname
      obtain ⟨forms', hforms', hall⟩ := h _ ih
      cases hforms.symm.trans hforms'
      obtain ⟨name', hchars', target, htargetMem, htarget'⟩ := hall form hform hinclude
      obtain rfl := Option.some.inj (hchars.symm.trans hchars')
      cases htarget.symm.trans htarget'
      exact htargetMem
  obtain ⟨forms, hforms, hall⟩ := h q hmem
  refine ⟨forms, hforms, fun form hform hinclude => ?_⟩
  obtain ⟨name, hchars, target, -, htarget⟩ := hall form hform hinclude
  exact ⟨name, target, hchars, htarget⟩

/-- A file that is read is there, and its forms are those of its text. -/
theorem exists_of_readForms (h : readForms fs p none = .ok (.ok forms)) :
    ∃ a data t, fs.locate p = .ok a ∧ fs.get? a = some (.file data) ∧
      fs.readText p = .ok t ∧ Form.ofText t (some p.toText) = .ok forms := by
  obtain ⟨t, htext, hforms⟩ := (readForms_eq_ok_iff none).1 h
  obtain ⟨data, hdata, -⟩ := bind_eq_ok_iff.1 htext
  obtain ⟨node, hnode, hfile⟩ := bind_eq_ok_iff.1 (mapError_eq_ok_iff.1 hdata)
  obtain ⟨a, hlocate, hget⟩ := FileSystem.nodeAt_eq_ok_iff.1 hnode
  cases node with
  | file => exact ⟨a, _, t, hlocate, hget, htext, hforms⟩
  | directory => cases hfile

/-- Each form of a file names the file. -/
theorem file?_of_readForms (h : readForms fs p none = .ok (.ok forms)) (hform : form ∈ forms) :
    form.file? = some p.toText := by
  obtain ⟨t, -, hforms⟩ := (readForms_eq_ok_iff none).1 h
  exact Form.file?_of_ofText hforms hform

/-- What an include form leads to is there. -/
theorem isSome_of_resolveInclude (hfs : fs.IsRegular)
    (h : resolveInclude fs includePaths p name = .ok (some target)) :
    (fs.get? target.location).isSome = true := by
  obtain ⟨found?, hfound, h⟩ := bind_pure_eq_ok_iff.1 h
  obtain ⟨found, rfl, rfl⟩ := Option.map_eq_some_iff.1 h
  obtain ⟨a, data, hlocate, hfile⟩ := FileSystem.isFile_eq_true_iff.1 (isFile_of_firstFile hfound)
  rw [hfs.location_resolve_of_locate hlocate, hfile]
  rfl

/-! ## One file under two paths -/

theorem sameFile_of_readForms (h : readForms fs p none = .ok (.ok forms)) : fs.SameFile p p := by
  obtain ⟨a, data, -, hlocate, hfile, -, -⟩ := exists_of_readForms h
  exact ⟨a, data, hlocate, hlocate, hfile⟩

theorem readText_of_sameFile (h : fs.SameFile p q) : fs.readText p = fs.readText q := by
  obtain ⟨a, data, hp, hq, hfile⟩ := h
  have hread {s : Path} (hs : fs.locate s = .ok a) : fs.read s = .ok data := by
    rw [FileSystem.read, FileSystem.nodeAt_eq_ok_iff.2 ⟨a, hs, hfile⟩]
    rfl
  rw [FileSystem.readText, FileSystem.readText, hread hp, hread hq]

/-- A path without double dots leads to the file that it was made for. -/
theorem sameFile_resolve (hfs : fs.IsRegular) (hp : fs.SameFile p p)
    (hresolved : readForms fs (p.resolve fs.workingDirectory) none = .ok (.ok forms)) :
    fs.SameFile p (p.resolve fs.workingDirectory) := by
  obtain ⟨a, data, hlocate, -, hfile⟩ := hp
  obtain ⟨b, _, _, hb, -⟩ := exists_of_readForms hresolved
  exact ⟨a, data, hlocate, hfs.eq_of_locate_resolve hlocate hb ▸ hb, hfile⟩

/-- A name leads from two paths of one file to one file. -/
theorem resolveInclude_of_sameFile (hfs : fs.IsRegular) (hsame : fs.SameFile p q)
    {there here : Path} {thereForms hereForms : List Form}
    (hthere : resolveInclude fs includePaths p name = .ok (some there))
    (hhere : resolveInclude fs includePaths q name = .ok (some here))
    (hthereForms : readForms fs there none = .ok (.ok thereForms))
    (hhereForms : readForms fs here none = .ok (.ok hereForms)) : fs.SameFile there here := by
  obtain ⟨found?, hfound, hfound?⟩ := bind_pure_eq_ok_iff.1 hthere
  obtain ⟨found, rfl, rfl⟩ := Option.map_eq_some_iff.1 hfound?
  obtain ⟨other?, hother, hother?⟩ := bind_pure_eq_ok_iff.1 hhere
  obtain ⟨other, rfl, rfl⟩ := Option.map_eq_some_iff.1 hother?
  have hfoundFile := FileSystem.isFile_eq_true_iff.1 (isFile_of_firstFile hfound)
  have hotherFile := FileSystem.isFile_eq_true_iff.1 (isFile_of_firstFile hother)
  rw [firstFile] at hfound hother
  obtain ⟨foundFirst, hfirst, hfound⟩ := bind_eq_ok_iff.1 hfound
  obtain ⟨otherFirst, hotherFirst, hother⟩ := bind_eq_ok_iff.1 hother
  obtain rfl := hfs.isFile_join_congr hsame hfirst hotherFirst
  obtain ⟨a, data, ha, hdata⟩ := hfoundFile
  obtain ⟨b, _, hb, -⟩ := hotherFile
  obtain ⟨a', _, _, ha', -⟩ := exists_of_readForms hthereForms
  obtain ⟨b', _, _, hb', -⟩ := exists_of_readForms hhereForms
  have hab : a = b := by
    cases foundFirst with
    | true =>
      cases hfound
      cases hother
      exact hfs.eq_of_locate_join hsame ha hb
    | false =>
      -- Behind the file itself both look in the same places.
      have hlater := hfound.symm.trans hother
      cases hlater
      exact Except.ok.inj (ha.symm.trans hb)
  rw [hfs.eq_of_locate_resolve ha ha'] at ha'
  rw [hfs.eq_of_locate_resolve hb hb', ← hab] at hb'
  exact ⟨a, data, ha', hb', hdata⟩

/-- Two paths of one file include the same files. -/
theorem exists_includes_of_sameFile (hfs : fs.IsRegular) (hsame : fs.SameFile p q)
    (hp : IsComplete fs includePaths p) (hq : IsComplete fs includePaths q)
    (h : Includes fs includePaths p target) :
    ∃ other, Includes fs includePaths q other ∧ fs.SameFile target other := by
  obtain ⟨targetForms, htargetForms, -⟩ := (hp.of_includes h).sound
  obtain ⟨forms, form, name, hforms, hform, hname, htarget⟩ := h
  obtain ⟨t, htext, hoft⟩ := (readForms_eq_ok_iff none).1 hforms
  have hforms' := (readForms_eq_ok_iff none).2
    ⟨t, (readText_of_sameFile hsame).symm.trans htext, Form.ofText_eq_ok (some q.toText) hoft⟩
  have hform' := List.mem_map_of_mem (f := fun form : Form => { form with file? := some q.toText })
    hform
  obtain ⟨hinclude, hchars⟩ := includeName?_eq_some_iff.1 hname
  obtain ⟨sound, hsound, hall⟩ := hq.sound
  rw [hforms', Except.ok.injEq, Except.ok.injEq] at hsound
  obtain ⟨name', other, hchars', hother⟩ :=
    hall { form with file? := some q.toText } (hsound ▸ hform') hinclude
  obtain rfl : name = name' := Option.some.inj (hchars.symm.trans hchars')
  have hincludes : Includes fs includePaths q other :=
    ⟨_, _, name, hforms', hform', includeName?_eq_some_iff.2 ⟨hinclude, hchars⟩, hother⟩
  obtain ⟨otherForms, hotherForms, -⟩ := (hq.of_includes hincludes).sound
  exact ⟨other, hincludes,
    resolveInclude_of_sameFile hfs hsame htarget hother htargetForms hotherForms⟩

/-! ## Cycles -/

/-- Where includes come to an end on every way, no file includes itself. -/
theorem not_leadsIntoCycle_of_acc (hfs : fs.IsRegular) (hp : IsComplete fs includePaths p)
    (h : Acc (fun target q => Includes fs includePaths q target) p) :
    ¬ LeadsIntoCycle fs includePaths p := by
  rintro ⟨q, r, hq, hcycle, hsame⟩
  have hacc : Acc (fun target q => Includes fs includePaths q target) q := by
    clear hcycle hsame
    induction hq with
    | refl => exact h
    | tail _ hstep ih => exact ih.inv hstep
  replace hp := hp.of_reaches hq
  clear hq h
  -- The cycle through `q` also leads from the next file back to it.
  induction hacc generalizing r with
  | intro q _ ih =>
    obtain ⟨next, hnext, hback⟩ := Relation.TransGen.head'_iff.1 hcycle
    have hr := (hp.of_includes hnext).of_reaches hback
    obtain ⟨other, hother, hsameNext⟩ := exists_includes_of_sameFile hfs hsame hp hr hnext
    exact ih next hnext other (.tail' hback hother) hsameNext (hp.of_includes hnext)

end ModuleDocs.Source
