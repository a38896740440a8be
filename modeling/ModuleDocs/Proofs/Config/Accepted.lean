import Mathlib
import ModuleDocs.Config
import ModuleDocs.Proofs.Number.Binary64
import ModuleDocs.Proofs.Result
import ModuleDocs.Proofs.Schema

/-!
# Which JSON values are configurations

`Config.IsAccepted` lists what the members of an object must be, and `Config.IsReadAs` what a
configuration then holds.  A JSON value gives a configuration just if it is an object that is
accepted (`Config.ofJson_accepts`).

The optional fields are alike: one lemma, `Config.field_eq_ok_iff`, is about them all, and each of
them brings the relation between what is written and what is read.  The version alone is compared
and not read, and what is equal to zero is of three types (`Config.isZero_iff`).
-/

namespace ModuleDocs

open Result

namespace Config

/-! ## The version -/

/-- A version that is taken for the version zero: the integer, the zeros among the doubles, and
false. -/
inductive IsZero : Json → Prop
  | int : IsZero (.int 0)
  | false : IsZero (.bool false)
  | positive : IsZero (.float 0)
  | negative : IsZero (.float 0x8000000000000000)

theorem isZero_iff {j : Json} : isZero j = true ↔ IsZero j := by
  constructor
  · intro h
    cases j with
    | bool b =>
      cases b with
      | false => exact .false
      | true => cases h
    | int i =>
      have hi : i = 0 := of_decide_eq_true h
      rw [hi]
      exact .int
    | float bits =>
      rcases Binary64.toInt?_eq_zero_iff.1 (of_decide_eq_true h) with hbits | hbits
      · rw [hbits]
        exact .positive
      · rw [hbits]
        exact .negative
    | _ => cases h
  · intro h
    cases h with
    | int => rfl
    | false => rfl
    | positive => exact decide_eq_true (Binary64.toInt?_eq_zero_iff.2 (Or.inl rfl))
    | negative => exact decide_eq_true (Binary64.toInt?_eq_zero_iff.2 (Or.inr rfl))

/-! ## Values of fields -/

section Values

variable {j : Json}

theorem string?_eq_some_iff {t : Text} : string? j = some t ↔ j = .string t := by
  cases j <;> simp [string?]

/-- An array of strings. -/
def ofTexts (texts : List Text) : Json := .array (texts.map .string)

/-- An object of strings. -/
def ofLines (lines : List (Text × Text)) : Json :=
  .object (lines.map fun line => (line.1, .string line.2))

/-- A list is read member by member just if it was written so. -/
theorem mapM_eq_some_iff {α β : Type} {read : α → Option β} {write : β → α}
    (h : ∀ a b, read a = some b ↔ a = write b) (as : List α) (bs : List β) :
    as.mapM read = some bs ↔ as = bs.map write := by
  induction as generalizing bs with
  | nil => cases bs <;> simp
  | cons a as ih =>
    rw [List.mapM_cons]
    cases bs <;> simp [Option.bind_eq_some_iff, h, ih]

theorem strings?_eq_some_iff {texts : List Text} : strings? j = some texts ↔ j = ofTexts texts := by
  cases j with
  | array items =>
    rw [strings?, mapM_eq_some_iff fun _ _ => string?_eq_some_iff, ofTexts, Json.array.injEq]
  | _ => simp [strings?, ofTexts]

theorem stringMembers?_eq_some_iff {lines : List (Text × Text)} :
    stringMembers? j = some lines ↔ j = ofLines lines := by
  cases j with
  | object members =>
    rw [stringMembers?, ofLines, Json.object.injEq]
    refine mapM_eq_some_iff (fun member line => ?_) members lines
    rw [Option.map_eq_some_iff]
    simp only [string?_eq_some_iff]
    constructor
    · intro ⟨t, hvalue, hline⟩
      rw [← hline, ← hvalue]
    · intro hmember
      rw [hmember]
      exact ⟨line.2, rfl, rfl⟩
  | _ => simp [stringMembers?, ofLines]

end Values

/-! ## Fields -/

section Fields

variable {α : Type} {members : List (Text × Json)} {name expected : String} {missing value : α}
  {value? : Json → Option α} {R : Json → α → Prop}

/-- The field is missing, or what is written there is allowed. -/
def IsAllowed (members : List (Text × Json)) (name : Text) (P : Json → Prop) : Prop :=
  ∀ j, Json.member? name members = some j → P j

/-- The value of a field: one that what is written there stands for, or else the one that stands
for a missing field. -/
def IsField (members : List (Text × Json)) (name : Text) (missing : α) (R : Json → α → Prop)
    (value : α) : Prop :=
  match Json.member? name members with
  | none => value = missing
  | some j => R j value

/-- A field that is read by the values that it stands for is read as its value. -/
theorem field_eq_ok_iff (hread : ∀ j value, value? j = some value ↔ R j value) :
    field members name expected missing value? = .ok value ↔
      IsField members name missing R value := by
  unfold field IsField
  cases Json.member? name members with
  | none => simp [eq_comm]
  | some j =>
    dsimp only
    rw [← hread]
    cases value? j <;> simp

/-- What is written in a field that has a value is allowed. -/
theorem IsField.isAllowed {name : Text} (h : IsField members name missing R value) :
    IsAllowed members name fun j => ∃ value, R j value := by
  intro j hj
  unfold IsField at h
  rw [hj] at h
  exact ⟨value, h⟩

/-- A field in which what is written is allowed has a value. -/
theorem IsAllowed.exists_isField {name : Text}
    (h : IsAllowed members name fun j => ∃ value, R j value) (missing : α) :
    ∃ value, IsField members name missing R value := by
  unfold IsField
  cases hmember : Json.member? name members with
  | none => exact ⟨missing, rfl⟩
  | some j => exact h j hmember

/-- What is required of the values that can be written holds of the value of the field, if it holds
of the one that stands for a missing field. -/
theorem isField_and_iff {name : Text} {P : α → Prop} (hmissing : P missing) :
    IsField members name missing (fun j value => R j value ∧ P value) value ↔
      IsField members name missing R value ∧ P value := by
  unfold IsField
  cases Json.member? name members with
  | none => exact ⟨fun h => ⟨h, h ▸ hmissing⟩, And.left⟩
  | some j => exact Iff.rfl

end Fields

/-! ## Configurations -/

/-- The members of an object that is a configuration. -/
structure IsAccepted (members : List (Text × Json)) : Prop where
  known : ∀ member ∈ members, member.1 ∈ fields
  format : Json.member? "format" members = some (.string "docchunk-config")
  version : ∃ j, Json.member? "version" members = some j ∧ IsZero j
  docFormat : IsAllowed members "doc_format" fun j => ∃ t, j = .string t ∧ t ≠ []
  emitDocs : IsAllowed members "emit_docs" fun j => ∃ b, j = .bool b
  includePaths : IsAllowed members "include_paths" fun j => ∃ texts, j = ofTexts texts
  metadataSchema : IsAllowed members "metadata_schema" fun j =>
    ∃ lines, j = ofLines lines ∧ ∀ line ∈ lines, Shape.IsName line.2
  jobs : IsAllowed members "jobs" fun j => ∃ n, j = .int n ∧ 1 ≤ n
  x : IsAllowed members "x" fun j => ∃ inner, j = .object inner

/-- What a configuration in the directory `base` holds, by the members that it was read from. -/
structure IsReadAs (members : List (Text × Json)) (base : Path) (path? : Option Path)
    (c : Config) : Prop where
  docFormat : IsField members "doc_format" defaultDocFormat (fun j t => j = .string t ∧ t ≠ [])
    c.docFormat
  emitDocs : IsField members "emit_docs" true (fun j b => j = .bool b) c.emitDocs
  includePaths : ∃ texts, IsField members "include_paths" [] (fun j texts => j = ofTexts texts) texts
    ∧ c.includePaths = texts.map fun t => base.join (Path.parse t)
  schema : ∃ lines, IsField members "metadata_schema" [] (fun j lines => j = ofLines lines) lines ∧
    ∀ key, Schema.get? key c.schema =
      ((lines.reverse.lookup key).map Shape.ofName).or (Schema.get? key Schema.default)
  jobs : IsField members "jobs" 1 (fun j n => j = .int n ∧ 1 ≤ n) c.jobs
  path : c.path? = path?

section Configurations

variable {members : List (Text × Json)} {base : Path} {path? : Option Path} {c : Config}

theorem any_isZero_iff {j? : Option Json} :
    j?.any isZero = true ↔ ∃ j, j? = some j ∧ IsZero j := by
  simp only [Option.any_eq_true, isZero_iff]

theorem format_eq_some_iff {j? : Option Json} {t : Text} :
    j?.bind string? = some t ↔ j? = some (.string t) := by
  simp only [Option.bind_eq_some_iff, string?_eq_some_iff, exists_eq_right]

/-- No name is left over just if every one is the name of a field. -/
theorem isEmpty_unknown_iff :
    ((members.map (·.1)).filter fun name => ! fields.contains name).isEmpty = true ↔
      ∀ member ∈ members, member.1 ∈ fields := by
  simp [List.filter_eq_nil_iff]

theorem field_object_eq_ok_iff {u : Unit} : field members "x" "be an object" () (fun
      | .object _ => some ()
      | _ => none) = .ok u ↔ IsField members "x" () (fun j _ => ∃ inner, j = .object inner) u :=
  field_eq_ok_iff fun j u => by cases j <;> simp

theorem field_text_eq_ok_iff {t : Text} :
    field members "doc_format" "be a non-empty string" defaultDocFormat
      (fun j => (string? j).filter (! ·.isEmpty)) = .ok t ↔
      IsField members "doc_format" defaultDocFormat (fun j t => j = .string t ∧ t ≠ []) t :=
  field_eq_ok_iff fun j t => by simp [Option.filter_eq_some_iff, string?_eq_some_iff]

theorem field_bool_eq_ok_iff {b : Bool} : field members "emit_docs" "be a boolean" true (fun
      | .bool b => some b
      | _ => none) = .ok b ↔ IsField members "emit_docs" true (fun j b => j = .bool b) b :=
  field_eq_ok_iff fun j b => by cases j <;> simp

theorem field_count_eq_ok_iff {n : Int} : field members "jobs" "be a positive integer" 1 (fun
      | .int i => if 1 ≤ i then some i else none
      | _ => none) = .ok n ↔ IsField members "jobs" 1 (fun j n => j = .int n ∧ 1 ≤ n) n :=
  field_eq_ok_iff fun j n => by cases j <;> simp; grind

/-- An object gives a configuration when format, version and names are right and every field is
read. -/
theorem ofJson_object_eq_ok_iff : ofJson (.object members) base path? = .ok c ↔
    Json.member? "format" members = some (.string "docchunk-config") ∧
    (∃ j, Json.member? "version" members = some j ∧ IsZero j) ∧
    (∀ member ∈ members, member.1 ∈ fields) ∧
    IsField members "x" () (fun j _ => ∃ inner, j = .object inner) () ∧
    ∃ t, IsField members "doc_format" defaultDocFormat (fun j t => j = .string t ∧ t ≠ []) t ∧
    ∃ b, IsField members "emit_docs" true (fun j b => j = .bool b) b ∧
    ∃ texts, IsField members "include_paths" [] (fun j texts => j = ofTexts texts) texts ∧
    ∃ lines, IsField members "metadata_schema" [] (fun j lines => j = ofLines lines) lines ∧
    ∃ schema, Schema.extend Schema.default lines = .ok schema ∧
    ∃ n, IsField members "jobs" 1 (fun j n => j = .int n ∧ 1 ≤ n) n ∧
      ⟨t, b, texts.map fun t => base.join (Path.parse t), schema, n, path?⟩ = c := by
  unfold ofJson
  simp only [error_bind, ite_error_eq_ok_iff, bind_eq_ok_iff, pure_eq_ok_iff, mapError_eq_ok_iff,
    exists_eq_left', not_or, not_not, format_eq_some_iff, any_isZero_iff, Bool.not_eq_true',
    Bool.not_eq_false, isEmpty_unknown_iff, and_assoc, field_text_eq_ok_iff,
    field_eq_ok_iff fun _ _ => strings?_eq_some_iff,
    field_eq_ok_iff fun _ _ => stringMembers?_eq_some_iff]
  constructor
  · intro ⟨hformat, hversion, hknown, u, hobject, t, ht, b, hb, texts, htexts, lines, hlines, schema,
      hschema, n, hn, hc⟩
    exact ⟨hformat, hversion, hknown, field_object_eq_ok_iff.1 hobject, t, ht, b,
      field_bool_eq_ok_iff.1 hb, texts, htexts, lines, hlines, schema, hschema, n,
      field_count_eq_ok_iff.1 hn, hc⟩
  · intro ⟨hformat, hversion, hknown, hobject, t, ht, b, hb, texts, htexts, lines, hlines, schema,
      hschema, n, hn, hc⟩
    exact ⟨hformat, hversion, hknown, (), field_object_eq_ok_iff.2 hobject, t, ht, b,
      field_bool_eq_ok_iff.2 hb, texts, htexts, lines, hlines, schema, hschema, n,
      field_count_eq_ok_iff.2 hn, hc⟩

/-- An object that gives a configuration is accepted, and read as what the configuration holds. -/
theorem isAccepted_and_isReadAs (h : ofJson (.object members) base path? = .ok c) :
    IsAccepted members ∧ IsReadAs members base path? c := by
  obtain ⟨hformat, hversion, hknown, hx, t, ht, b, hb, texts, htexts, lines, hlines, schema, hschema,
    n, hn, hc⟩ := ofJson_object_eq_ok_iff.1 h
  have hnames : ∀ line ∈ lines, Shape.IsName line.2 := Schema.exists_extend_iff.1 ⟨schema, hschema⟩
  subst hc
  constructor
  · exact {
      known := hknown
      format := hformat
      version := hversion
      docFormat := ht.isAllowed
      emitDocs := hb.isAllowed
      includePaths := htexts.isAllowed
      metadataSchema := ((isField_and_iff (List.forall_mem_nil _)).2 ⟨hlines, hnames⟩).isAllowed
      jobs := hn.isAllowed
      x := fun j hj => (hx.isAllowed j hj).choose_spec }
  · exact {
      docFormat := ht
      emitDocs := hb
      includePaths := ⟨texts, htexts, rfl⟩
      schema := ⟨lines, hlines, Schema.get?_extend hschema⟩
      jobs := hn
      path := rfl }

/-- An accepted object gives a configuration. -/
theorem IsAccepted.exists_ofJson (h : IsAccepted members) (base : Path) (path? : Option Path) :
    ∃ c, ofJson (.object members) base path? = .ok c := by
  obtain ⟨t, ht⟩ := h.docFormat.exists_isField defaultDocFormat
  obtain ⟨b, hb⟩ := h.emitDocs.exists_isField true
  obtain ⟨texts, htexts⟩ := h.includePaths.exists_isField []
  obtain ⟨lines, hlines⟩ := h.metadataSchema.exists_isField []
  obtain ⟨hlines, hnames⟩ := (isField_and_iff (List.forall_mem_nil _)).1 hlines
  obtain ⟨schema, hschema⟩ := Schema.exists_extend_iff.2 hnames
  obtain ⟨n, hn⟩ := h.jobs.exists_isField 1
  obtain ⟨u, hx⟩ := IsAllowed.exists_isField (R := fun j _ => ∃ inner, j = Json.object inner)
    (fun j hj => ⟨(), h.x j hj⟩) ()
  exact ⟨_, ofJson_object_eq_ok_iff.2 ⟨h.format, h.version, h.known, hx, t, ht, b, hb, texts, htexts,
    lines, hlines, schema, hschema, n, hn, rfl⟩⟩

theorem exists_object_of_ofJson {data : Json} (h : ofJson data base path? = .ok c) :
    ∃ members, data = .object members := by
  cases data with
  | object members => exact ⟨members, rfl⟩
  | _ => cases h

/-- A JSON value is a configuration just if it is an object that is accepted, and the configuration
holds what is read from the members of the object.  Everything else is refused. -/
theorem ofJson_accepts (data : Json) (base : Path) (path? : Option Path) :
    ((∃ c, ofJson data base path? = .ok c) ↔
      ∃ members, data = .object members ∧ IsAccepted members) ∧
    (Fails (ofJson data base path?) ↔ ¬ ∃ members, data = .object members ∧ IsAccepted members) ∧
    ∀ members c, data = .object members → ofJson data base path? = .ok c →
      IsReadAs members base path? c := by
  have haccepted : (∃ c, ofJson data base path? = .ok c) ↔
      ∃ members, data = .object members ∧ IsAccepted members := by
    constructor
    · intro ⟨c, h⟩
      obtain ⟨members, hdata⟩ := exists_object_of_ofJson h
      subst hdata
      exact ⟨members, rfl, (isAccepted_and_isReadAs h).1⟩
    · intro ⟨members, hdata, h⟩
      subst hdata
      exact h.exists_ofJson base path?
  refine ⟨haccepted, ?_, ?_⟩
  · rw [← haccepted, ← not_fails_iff, not_not]
  · intro members c hdata h
    subst hdata
    exact (isAccepted_and_isReadAs h).2

/-- The members of a configuration with the version false. -/
def falseVersioned : List (Text × Json) :=
  [("format", .string "docchunk-config"), ("version", .bool false), ("jobs", .int 2),
    ("include_paths", ofTexts ["shared", "/opt"]),
    ("metadata_schema", ofLines [("since", "text_list"), ("owner", "text")])]

theorem ofJson_accepts_falseVersioned :
    (∃ c, ofJson (.object falseVersioned) (Path.parse "/p") none = .ok c ∧
      IsReadAs falseVersioned (Path.parse "/p") none c ∧ c.jobs = 2 ∧
      c.includePaths = [Path.parse "/p/shared", Path.parse "/opt"] ∧
      Schema.get? "since" c.schema = some .textList) ∧
    Fails (ofJson (.object (("jobs", .bool true) :: falseVersioned)) (Path.parse "/p") none) := by
  refine ⟨⟨_, rfl, ?_, rfl, rfl, rfl⟩, ?_⟩
  · exact (ofJson_accepts (.object falseVersioned) (Path.parse "/p") none).2.2 _ _ rfl rfl
  · exact ⟨_, rfl⟩

end Configurations

end Config

end ModuleDocs
