import Mathlib
import ModuleDocs.Proofs.Json.RoundTrip
import ModuleDocs.Proofs.Source.Interface

/-!
# What an interface says

The interface of a unit is read back as the name of its module and the functions that its forms
list as exports, in the order of their names and arities (`encodeInterface_isFaithful`).  Each of
them is there once, so that the bytes depend on the name and on which functions are listed, but
not on how often and in which order (`mergeSort_eq_of_mem_iff`).

The arities are those that a text was read with (`IsFromText`), so none of them has more digits
than can be written.
-/

namespace ModuleDocs.Source

variable {module : Text} {exports : List (Text × Int)}

/-! ## Order -/

/-- Exports in strictly ascending order: of their names, and of their arities under one name. -/
def InOrder (exports : List (Text × Int)) : Prop :=
  exports.Pairwise fun a b => a.1 < b.1 ∨ a.1 = b.1 ∧ a.2 < b.2

theorem exportBefore_iff {a b : Text × Int} : exportBefore a b = true ↔ toLex a ≤ toLex b := by
  rw [Prod.Lex.toLex_le_toLex, exportBefore]
  split
  · rename_i hname
    simp [hname]
  · rename_i hname
    rw [Text.le, Bool.not_eq_true', decide_eq_false_iff_not, not_lt]
    simp [hname, lt_iff_le_and_ne]

theorem inOrder_iff : InOrder exports ↔ exports.Pairwise fun a b => toLex a < toLex b := by
  simp only [InOrder, Prod.Lex.toLex_lt_toLex]

/-- In strictly ascending order, each export stands once. -/
theorem InOrder.nodup (h : InOrder exports) : exports.Nodup :=
  (inOrder_iff.1 h).imp fun hab hsame => absurd (congrArg toLex hsame) hab.ne

/-- Different exports are sorted strictly. -/
theorem inOrder_mergeSort (h : exports.Nodup) : InOrder (exports.mergeSort exportBefore) := by
  have hle : (exports.mergeSort exportBefore).Pairwise fun a b => exportBefore a b = true := by
    apply List.pairwise_mergeSort
    · intro a b c hab hbc
      rw [exportBefore_iff] at hab hbc ⊢
      exact hab.trans hbc
    · intro a b
      rw [Bool.or_eq_true, exportBefore_iff, exportBefore_iff]
      exact le_total _ _
  have hne := (List.mergeSort_perm exports exportBefore).nodup_iff.2 h
  rw [inOrder_iff]
  refine (hle.and hne).imp fun {a b} hab => lt_of_le_of_ne (exportBefore_iff.1 hab.1) ?_
  exact fun hsame => hab.2 (toLex.injective hsame)

/-- Exports in order can stand in no other order. -/
theorem eq_of_perm_of_inOrder {others : List (Text × Int)} (h : exports.Perm others)
    (hexports : InOrder exports) (hothers : InOrder others) : exports = others := by
  rw [inOrder_iff] at hexports hothers
  exact h.eq_of_pairwise (fun _ _ _ _ hab hba => absurd hba (lt_asymm hab)) hexports hothers

/-- The same exports, each of them once, have one sorted order. -/
theorem mergeSort_eq_of_mem_iff {others : List (Text × Int)} (hexports : exports.Nodup)
    (hothers : others.Nodup) (h : ∀ e, e ∈ exports ↔ e ∈ others) :
    exports.mergeSort exportBefore = others.mergeSort exportBefore := by
  have hperm : exports.Perm others := (List.perm_ext_iff_of_nodup hexports hothers).2 h
  refine eq_of_perm_of_inOrder ?_ (inOrder_mergeSort hexports) (inOrder_mergeSort hothers)
  exact (List.mergeSort_perm _ _).trans (hperm.trans (List.mergeSort_perm _ _).symm)

/-! ## The value -/

/-- The interface of a module as a value, with its exports as they stand. -/
def interfaceOf (module : Text) (exports : List (Text × Int)) : Json :=
  .object [
    ("exports", .array (exports.map fun e => .array [.string e.1, .int e.2])),
    ("module", .string module)]

theorem interfaceJson_eq (module : Text) (exports : List (Text × Int)) :
    interfaceJson module exports = interfaceOf module (exports.mergeSort exportBefore) := rfl

/-- Short arities are all that it takes to write an interface exactly. -/
theorem isExact_interfaceOf (h : ∀ e ∈ exports, e.2.natAbs < Nat.pow 10 Decimal.maxDigits) :
    (interfaceOf module exports).IsExact := by
  have hlines : Json.AllExact (exports.map fun e => .array [.string e.1, .int e.2]) := by
    induction exports with
    | nil => trivial
    | cons e rest ih =>
      obtain ⟨he, hrest⟩ := List.forall_mem_cons.1 h
      exact ⟨⟨trivial, he, trivial⟩, ih hrest⟩
  have hnames : [Text.ofString "exports", Text.ofString "module"].Nodup := by decide
  exact ⟨hnames, hlines, trivial, trivial⟩

/-! ## Forms -/

/-- The form is one of those that a text is read as. -/
def IsFromText (form : Form) : Prop :=
  ∃ t file? written, Form.ofText t file? = .ok written ∧ form ∈ written

variable {form : Form} {forms : List Form}

theorem IsFromText.every {P : Term → Prop} (hP : IsLiteral Token.IsPure P)
    (h : IsFromText form) : form.value.Every P := by
  obtain ⟨t, file?, written, hwritten, hform⟩ := h
  have htokens : ∀ token ∈ (Tokens.ofText t).tokens, token.IsPure := fun token htoken =>
    (isWithin_of_ofText t token htoken).isPure
  exact (Form.sound_of_ofText hP htokens hwritten form hform).1.value

/-- The exports of a unit are those that its forms list, each of them once. -/
theorem exports_of_ofForms {fs : FileSystem} {path : Path} {includes : List Path}
    {unit : SourceUnit} {diagnostics : List Diagnostic}
    (h : SourceUnit.ofForms fs path includes forms = .ok (some unit, diagnostics)) :
    unit.exports.Nodup ∧ ∀ e, e ∈ unit.exports ↔ ∃ form ∈ forms, e ∈ listedIn form := by
  obtain ⟨first, rest, found, rfl, hmodule, hfound, _, _, hexports, _⟩ := ofForms_eq_ok h
  have hfirst : listedIn first = [] := by
    rw [listedIn, (moduleName_eq_ok_iff.1 hmodule).2.1]
    exact if_neg (by decide)
  rw [hexports, exports_of_readAll hfound]
  refine ⟨nodup_distinct _, fun e => ?_⟩
  rw [mem_distinct, List.mem_flatMap]
  simp [hfirst]

/-- The bytes of the interface of a unit depend on its name and on its exports only. -/
theorem encodeInterface_congr {others : List (Text × Int)} (hexports : exports.Nodup)
    (hothers : others.Nodup) (h : ∀ e, e ∈ exports ↔ e ∈ others) :
    encodeInterface module exports = encodeInterface module others := by
  rw [encodeInterface, encodeInterface, interfaceJson_eq, interfaceJson_eq,
    mergeSort_eq_of_mem_iff hexports hothers h]

/-- The interface of a unit whose forms come from texts is written, in UTF-8, as JSON that is read
back as the name that the first form gives and the functions that the forms list as exports, in
their order.  Units with one name and the same exports have the same interface. -/
theorem encodeInterface_isFaithful {fs : FileSystem} {path : Path} {includes : List Path}
    {unit : SourceUnit} {diagnostics : List Diagnostic} (hforms : ∀ form ∈ forms, IsFromText form)
    (h : SourceUnit.ofForms fs path includes forms = .ok (some unit, diagnostics)) :
    ∃ data t exports, encodeInterface unit.module unit.exports = .ok data ∧
      Utf8.decode data = .ok t ∧
      Json.read t = .ok (interfaceOf unit.module exports) ∧
      forms.head?.map (·.value) = some (.atom unit.module) ∧
      InOrder exports ∧
      (∀ e, e ∈ exports ↔ e ∈ unit.exports) ∧
      (∀ e, e ∈ exports ↔ ∃ form ∈ forms, e ∈ listedIn form) ∧
      ∀ fs' path' includes' forms' unit' diagnostics',
        SourceUnit.ofForms fs' path' includes' forms' = .ok (some unit', diagnostics') →
          unit'.module = unit.module → (∀ e, e ∈ unit'.exports ↔ e ∈ unit.exports) →
            encodeInterface unit'.module unit'.exports = .ok data := by
  obtain ⟨hnodup, hlisted⟩ := exports_of_ofForms h
  obtain ⟨first, rest, found, rfl, hmodule, _⟩ := ofForms_eq_ok h
  have hencodable : ∀ e ∈ unit.exports, Utf8.isEncodable e.1 = true := by
    intro e he
    obtain ⟨form, hform, hmem⟩ := (hlisted e).1 he
    have hplain := (hforms form hform).every isLiteral_namesPlainly
    exact forall_listedIn hplain e hmem
  have hshort : ∀ e ∈ unit.exports, e.2.natAbs < Nat.pow 10 Decimal.maxDigits := by
    intro e he
    obtain ⟨form, hform, hmem⟩ := (hlisted e).1 he
    exact forall_listedIn ((hforms form hform).every isLiteral_isShort) e hmem
  have hwritten := Utf8.encode_of_isEncodable
    (isEncodable_interfaceJson (isEncodable_of_moduleName hmodule) hencodable)
  have hsame : ∀ e, e ∈ unit.exports.mergeSort exportBefore ↔ e ∈ unit.exports :=
    fun e => List.mem_mergeSort
  refine ⟨_, _, unit.exports.mergeSort exportBefore, hwritten, Utf8.decode_of_encode hwritten, ?_,
    ?_, inOrder_mergeSort hnodup, hsame, fun e => (hsame e).trans (hlisted e), ?_⟩
  · rw [interfaceJson_eq]
    exact Json.read_write (isExact_interfaceOf fun e he => hshort e ((hsame e).1 he))
  · rw [List.head?_cons, Option.map_some, (moduleName_eq_ok_iff.1 hmodule).1]
  · intro fs' path' includes' forms' unit' diagnostics' h' hname hexports
    rw [hname, encodeInterface_congr (exports_of_ofForms h').1 hnodup hexports]
    exact hwritten

/-- A module with a quote in its name, and one export listed twice. -/
def quotedSource : Text := "-module('q\"').\n-export([g/1, f/2]).\n-export([f/2, f/0])."

theorem encodeInterface_isFaithful_quotedSource :
    ∃ forms unit diagnostics data t, Form.ofText quotedSource none = .ok forms ∧
      (∀ form ∈ forms, IsFromText form) ∧
      SourceUnit.ofForms (.empty ⟨.single, []⟩) ⟨.single, []⟩ [] forms
        = .ok (some unit, diagnostics) ∧
      encodeInterface unit.module unit.exports = .ok data ∧ Utf8.decode data = .ok t ∧
      Json.read t = .ok (interfaceOf "q\"" [("f", 0), ("f", 2), ("g", 1)]) := by
  have hread : Form.ofText quotedSource none = .ok [
      ⟨"module", .atom "q\"", ⟨1, 1⟩, none⟩,
      ⟨"export", .list [.funRef "g" 1, .funRef "f" 2], ⟨2, 1⟩, none⟩,
      ⟨"export", .list [.funRef "f" 2, .funRef "f" 0], ⟨3, 1⟩, none⟩] := by cbv
  have hforms : ∀ form ∈ _, IsFromText form := fun form hform =>
    ⟨quotedSource, none, _, hread, hform⟩
  obtain ⟨data, t, exports, hdata, ht, hvalue, _, horder, hexports, _⟩ :=
    encodeInterface_isFaithful hforms (show SourceUnit.ofForms (.empty ⟨.single, []⟩)
      ⟨.single, []⟩ [] _ = .ok (some _, _) from rfl)
  -- The second listing of an export adds nothing.
  have hlisted : distinct [("g", 1), ("f", 2), ("f", 2), ("f", 0)]
      = [(Text.ofString "g", 1), ("f", 2), ("f", 0)] := by decide
  have hsorted : exports = [(Text.ofString "f", 0), ("f", 2), ("g", 1)] := by
    refine eq_of_perm_of_inOrder ((List.perm_ext_iff_of_nodup horder.nodup (by decide)).2 ?_) horder
      (by unfold InOrder; decide)
    intro e
    refine (hexports e).trans ?_
    change e ∈ distinct [("g", 1), ("f", 2), ("f", 2), ("f", 0)] ↔ _
    rw [hlisted]
    simp only [List.mem_cons, List.not_mem_nil, or_false]
    tauto
  exact ⟨_, _, _, data, t, hread, hforms, rfl, hdata, ht, hsorted ▸ hvalue⟩

end ModuleDocs.Source
