import Mathlib
import ModuleDocs.Proofs.Compile.Check
import ModuleDocs.Proofs.File.Nameable
import ModuleDocs.Proofs.Source.Limits
import ModuleDocs.Proofs.Text.Utf8
import ModuleDocs.Source.Interface

/-!
# Interfaces are written

The exports of a unit are the functions that its forms list (`exports_of_readAll`), each of them
once (`mem_distinct`, `nodup_distinct`).  The names in an interface hold no surrogates: that of the
module was checked, and those of exports are names of ASCII (`isLiteral_namesPlainly`).  So the
interface of a unit that was read always has bytes (`exists_encodeInterface`).
-/

namespace ModuleDocs

open Utf8

/-! ## JSON -/

namespace Json

theorem isEncodable_ofInt (i : Int) : isEncodable (Text.ofInt i) = true := by
  have hnat : ∀ n, isEncodable (Text.ofNat n) = true := by
    intro n
    refine isEncodable_of_val_lt fun c hc => ?_
    obtain ⟨digit, hdigit, rfl⟩ := List.mem_map.1 hc
    have hascii := Nat.isDigit_of_mem_toDigits (by decide) (by decide) hdigit
    simp only [Char.isDigit, Bool.and_eq_true, decide_eq_true_eq] at hascii
    have hhigh : digit.toNat ≤ 57 := UInt32.le_iff_toNat_le.1 hascii.2
    simp only [CodePoint.ofChar]
    omega
  unfold Text.ofInt
  split
  · rw [isEncodable_cons, hnat]
    rfl
  · exact hnat _

/-- Control characters are escaped by their hexadecimal numbers. -/
theorem isEncodable_escapeUnit {n : Nat} (h : n < 0x20) : isEncodable (escapeUnit n) = true := by
  revert n
  decide +kernel

private theorem isEncodable_ite {p : Prop} [Decidable p] {s t : Text}
    (hs : p → isEncodable s = true) (ht : isEncodable t = true) :
    isEncodable (if p then s else t) = true := by
  split
  · exact hs ‹p›
  · exact ht

theorem isEncodable_writePoint {c : CodePoint} (h : c.isSurrogate = false) :
    isEncodable (writePoint .compact c) = true := by
  unfold writePoint
  -- The escapes of single characters come first.
  iterate 7 refine isEncodable_ite (fun _ => by decide) ?_
  refine isEncodable_ite isEncodable_escapeUnit ?_
  simp [Style.compact, isEncodable, h]

theorem isEncodable_writeString {t : Text} (h : isEncodable t = true) :
    isEncodable (writeString .compact t) = true := by
  have hall : isEncodable (t.flatMap (writePoint .compact)) = true := by
    refine List.all_eq_true.2 fun d hd => ?_
    obtain ⟨c, hc, hd⟩ := List.mem_flatMap.1 hd
    have hplain : (! c.isSurrogate) = true := List.all_eq_true.1 h c hc
    exact List.all_eq_true.1 (isEncodable_writePoint (by simpa using hplain)) d hd
  rw [writeString, isEncodable_cons, isEncodable_append, hall]
  rfl

theorem isEncodable_bracketed {level : Nat} {left right : Char} {parts : List Text}
    (hleft : isEncodable [CodePoint.ofChar left] = true)
    (hright : isEncodable [CodePoint.ofChar right] = true)
    (h : ∀ part ∈ parts, isEncodable part = true) :
    isEncodable (bracketed .compact level left right parts) = true := by
  have hjoin : isEncodable (Text.join (Text.ofString ",") parts) = true := by
    rw [isEncodable, Text.all_join (by decide), List.all_eq_true]
    exact h
  rw [isEncodable_cons, isEncodable_nil, Bool.and_true] at hleft hright
  unfold bracketed
  split
  · simp [isEncodable_cons, hleft, hright]
  · simpa [isEncodable_cons, isEncodable_append, hleft, hright, lineBreak, Style.compact]
      using hjoin

theorem writeItems_eq_map (style : Style) (level : Nat) (items : List Json) :
    writeItems style level items = items.map (writeAt style level) := by
  induction items with
  | nil => rfl
  | cons j rest ih => rw [writeItems, ih, List.map_cons]

end Json

namespace Source

variable {fs : FileSystem} {form : Form} {forms waiting : List Form} {found : Findings}
  {module : Text} {exports : List (Text × Int)}

theorem isEncodable_interfaceJson (hmodule : isEncodable module = true)
    (hexports : ∀ e ∈ exports, isEncodable e.1 = true) :
    isEncodable ((interfaceJson module exports).write .compact) = true := by
  have hline : ∀ e : Text × Int, isEncodable e.1 = true →
      isEncodable (Json.writeAt .compact 2 (.array [.string e.1, .int e.2])) = true := by
    intro e he
    refine Json.isEncodable_bracketed (by decide) (by decide) ?_
    simp [Json.writeItems, Json.writeAt, Json.isEncodable_writeString he, Json.isEncodable_ofInt]
  have hlines : isEncodable (Json.writeAt .compact 1 (.array
      ((exports.mergeSort exportBefore).map fun e => .array [.string e.1, .int e.2]))) = true := by
    refine Json.isEncodable_bracketed (by decide) (by decide) ?_
    rw [Json.writeItems_eq_map]
    intro part hpart
    obtain ⟨j, hj, rfl⟩ := List.mem_map.1 hpart
    obtain ⟨e, he, rfl⟩ := List.mem_map.1 hj
    exact hline e (hexports e (List.mem_mergeSort.1 he))
  have hname : ∀ name : Text, isEncodable name = true →
      isEncodable (Json.writeString .compact name ++ Text.ofString Json.Style.compact.nameSeparator)
        = true := by
    intro name h
    rw [isEncodable_append, Json.isEncodable_writeString h]
    rfl
  rw [Json.write, interfaceJson, Json.writeAt]
  refine Json.isEncodable_bracketed (by decide) (by decide) ?_
  refine List.forall_mem_cons.2 ⟨?_, List.forall_mem_cons.2 ⟨?_, by simp [Json.writeMembers]⟩⟩
  · rw [isEncodable_append, hname _ (by decide), hlines]
    rfl
  · rw [isEncodable_append, hname _ (by decide), Json.writeAt, Json.isEncodable_writeString hmodule]
    rfl

/-! ## Names -/

/-- A function that a term names has a name without surrogates. -/
def NamesPlainly : Term → Prop
  | .funRef name _ => isEncodable name = true
  | _ => True

theorem isEncodable_of_isNamePart {t : Text} (h : ∀ c ∈ t, isNamePart c = true) :
    isEncodable t = true := by
  refine isEncodable_of_val_lt fun c hc => ?_
  have hpart := h c hc
  simp only [isNamePart, CodePoint.isLower, CodePoint.isUpper, CodePoint.isDigit, Bool.or_eq_true,
    Bool.and_eq_true, decide_eq_true_eq] at hpart
  rcases hpart with (((hc | hc) | hc) | rfl) | rfl
  · omega
  · omega
  · omega
  · decide
  · decide

theorem isLiteral_namesPlainly : IsLiteral Token.IsPure NamesPlainly where
  text := fun _ => trivial
  atom := fun _ => trivial
  tagged := fun _ _ => trivial
  funRef := fun name _ _ hname _ _ => by
    refine isEncodable_of_isNamePart fun c hc => ?_
    have hallows := hname.1 c hc
    rwa [hname.2] at hallows
  integer := fun _ _ _ _ => trivial
  negative := fun _ _ _ _ => trivial
  list := fun _ => trivial
  tuple := fun _ => trivial
  map := fun _ _ => trivial

/-! ## Units -/

theorem isEncodable_of_moduleName (h : moduleName form = .ok module) :
    isEncodable module = true :=
  (nameProblem?_eq_none_iff.1 (moduleName_eq_ok_iff.1 h).2.2).1

/-- The functions that a form lists as exports. -/
def listedIn (form : Form) : List (Text × Int) :=
  if form.name = Text.ofString "export" then (exportsOf? form.value).getD [] else []

/-- A function that is listed is one of the terms in the value of the form. -/
theorem forall_listedIn {P : Term → Prop} (hform : form.value.Every P) :
    ∀ e ∈ listedIn form, P (.funRef e.1 e.2) := by
  intro e he
  rw [listedIn] at he
  split at he
  · cases hexports : exportsOf? form.value with
    | none =>
      rw [hexports] at he
      cases he
    | some exports =>
      rw [hexports, Option.getD_some] at he
      unfold exportsOf? at hexports
      split at hexports
      · rename_i items hvalue
        rw [hvalue] at hform
        obtain ⟨item, hitem, hmade⟩ := Lists.exists_left (Lists.forall₂_of_mapM hexports) e he
        have hself := (Term.everyItem_iff.1 hform.2 item hitem).self
        split at hmade
        · cases hmade
          exact hself
        · cases hmade
      · cases hexports
  · cases he

theorem exports_of_readDocs {ref : EntityRef} (h : readDocs fs ref forms = .ok found) :
    found.exports = [] := by
  induction forms generalizing found with
  | nil =>
    cases h
    rfl
  | cons form rest ih =>
    obtain ⟨result, back, _, hback, rfl⟩ := readDocs_cons_eq_ok_iff.1 h
    have hnone : back.exports = [] := ih hback
    cases result <;> exact hnone

/-- A form that lists exports is no other form. -/
theorem readOne_of_isExport (hname : form.name = Text.ofString "export") :
    readOne fs waiting form = readForm fs form := by
  have hdoc : isDoc form = false := by
    rw [isDoc, hname]
    decide
  have hkind : entityKind? form.name = none := by
    rw [hname]
    decide
  rw [readOne, hdoc, hkind]
  rfl

theorem exports_of_readOne (h : readOne fs waiting form = .ok found) :
    found.exports = listedIn form := by
  by_cases hname : form.name = Text.ofString "export"
  · rw [readOne_of_isExport hname, readForm, if_neg (by rw [hname]; decide), if_pos hname] at h
    rw [listedIn, if_pos hname]
    split at h
    · rename_i hexports
      cases h
      rw [hexports, Option.getD_some]
    · rename_i hexports
      cases h
      rw [hexports]
      rfl
  · rw [listedIn, if_neg hname]
    cases stepFindings_of_readOne h with
    | waits _ => rfl
    | refused _ => rfl
    | declares _ hdocs => exact (List.append_nil _).trans (exports_of_readDocs hdocs)
    | other _ hfound =>
      cases hfound with
      | exports hname' _ => exact absurd hname' hname
      | metadata _ _ => rfl
      | text _ _ => rfl
      | invalid _ => rfl
      | ignored => rfl

theorem Reads.exports_eq (h : Reads fs waiting forms found) :
    found.exports = forms.flatMap listedIn := by
  induction h with
  | nil waiting => rfl
  | cons hfirst _ ih => rw [List.flatMap_cons, ← exports_of_readOne hfirst, ← ih]; rfl

/-- The exports that forms come to are those that they list, in their order. -/
theorem exports_of_readAll (h : readAll fs waiting forms = .ok found) :
    found.exports = forms.flatMap listedIn := by
  obtain ⟨read, hread, rfl⟩ := readAll_eq_ok_iff.1 h
  simpa [Findings.append] using hread.exports_eq

theorem distinct_concat (exports : List (Text × Int)) (e : Text × Int) :
    distinct (exports ++ [e])
      = if (distinct exports).contains e then distinct exports else distinct exports ++ [e] := by
  rw [distinct, List.foldl_append]
  rfl

theorem mem_distinct {exports : List (Text × Int)} {e : Text × Int} :
    e ∈ distinct exports ↔ e ∈ exports := by
  induction exports using List.reverseRecOn with
  | nil => exact Iff.rfl
  | append_singleton front last ih =>
    rw [distinct_concat, List.mem_append, List.mem_singleton, ← ih]
    split
    · rename_i hold
      rw [or_iff_left_of_imp]
      rintro rfl
      exact List.contains_iff_mem.1 hold
    · rw [List.mem_append, List.mem_singleton]

theorem nodup_distinct (exports : List (Text × Int)) : (distinct exports).Nodup := by
  induction exports using List.reverseRecOn with
  | nil => exact List.nodup_nil
  | append_singleton front last ih =>
    rw [distinct_concat]
    split
    · exact ih
    · rename_i hnew
      rw [← List.concat_eq_append]
      exact ih.concat fun hmem => hnew (List.contains_iff_mem.2 hmem)

/-- The interface of a unit that was read from tokens within the limits has bytes. -/
theorem exists_encodeInterface {includePaths : List Path} {path : Path} {unit : SourceUnit}
    {diagnostics : List Diagnostic} (htokens : AllTokens Token.IsLimited fs)
    (h : SourceUnit.read fs includePaths path = .ok (some unit, diagnostics)) :
    ∃ data, encodeInterface unit.module unit.exports = .ok data := by
  obtain ⟨expansion, _, hload, _, hforms, _⟩ := read_eq_ok h
  have hplain : ∀ form ∈ expansion.forms, form.value.Every NamesPlainly :=
    forall_forms_of_expandFile (fun p origin? forms hread form hform =>
      (sound_of_readForms (isLiteral_namesPlainly.of_imp fun _ h => h.isPure) htokens hread form
        hform).value) hload
  obtain ⟨first, rest, found, hsplit, hmodule, hfound, _, _, hexports, _⟩ := ofForms_eq_ok hforms
  rw [hsplit] at hplain
  refine ⟨_, encode_of_isEncodable
    (isEncodable_interfaceJson (isEncodable_of_moduleName hmodule) ?_)⟩
  intro e he
  rw [hexports, mem_distinct, exports_of_readAll hfound] at he
  obtain ⟨form, hform, he⟩ := List.mem_flatMap.1 he
  exact forall_listedIn (hplain form (List.mem_cons_of_mem _ hform)) e he

end Source

end ModuleDocs
