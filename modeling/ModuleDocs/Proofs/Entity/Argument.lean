import Mathlib
import ModuleDocs.Entity.Argument
import ModuleDocs.Proofs.Chunk.Query
import ModuleDocs.Proofs.File.Path
import ModuleDocs.Proofs.Text.Digit
import ModuleDocs.Proofs.Text.Split

/-!
# Which arguments name which entities

A colon ends the name of a kind, and the last slash begins a number of arguments.  `Denotes` and
`IsRefused` say so for every argument, and `ofArgument_eq_ok_iff` and `ofArgument_eq_error_iff` that
an argument is read as the entity that it denotes, or refused for the reason that it is.

Since the first colon and the last slash count, an entity behind the name of its kind is denoted
whatever its own name is (`IsWritable.denotes_qualified`).  So all that a chunk lists can be asked
for (`Chunk.listed_is_denoted`).
-/

namespace ModuleDocs

open Result

/-! ## Kinds -/

namespace EntityKind

variable {kind : EntityKind} {t : Text}

theorem ofName?_name (kind : EntityKind) : ofName? kind.name = some kind := by
  cases kind <;> rfl

theorem name_of_ofName? (h : ofName? t = some kind) : kind.name = t := by
  simpa using List.find?_some h

theorem ofName?_eq_none_iff : ofName? t = none ↔ ∀ kind : EntityKind, kind.name ≠ t := by
  constructor
  · intro h kind hname
    rw [← hname, ofName?_name] at h
    cases h
  · intro h
    cases hname : ofName? t with
    | none => rfl
    | some kind => exact absurd (name_of_ofName? hname) (h kind)

theorem colon_not_mem_name (kind : EntityKind) : CodePoint.ofChar ':' ∉ kind.name := by
  cases kind <;> decide

end EntityKind

namespace EntityRef

variable {argument rest name digits module : Text} {kind : EntityKind} {ref : EntityRef}
  {e : ArgumentError} {n : Nat} {i : Int}

/-! ## Names and numbers of arguments -/

/-- Too many digits are refused before they are read. -/
theorem readArity_eq (digits : Text) : readArity digits =
    if Decimal.maxDigits < digits.decimalLength then
      .error (.tooLong (.read digits.decimalLength))
    else
      match digits.toNat? with
      | some n => .ok n
      | none => .error (.notANumber digits) := by
  unfold readArity Decimal.allow
  split <;> rfl

theorem readArity_eq_ok_iff : readArity digits = .ok i ↔
    ∃ n : Nat, digits.IsNumeral n ∧ digits.length ≤ Decimal.maxDigits ∧ i = n := by
  rw [readArity_eq, ite_error_eq_ok_iff, not_lt]
  constructor
  · intro ⟨hlength, hread⟩
    split at hread
    · rename_i n hn
      have hnumeral := Text.toNat?_eq_some_iff.1 hn
      cases hread
      exact ⟨n, hnumeral, hnumeral.decimalLength ▸ hlength, rfl⟩
    · cases hread
  · intro ⟨n, hnumeral, hlength, hi⟩
    rw [hnumeral.decimalLength, Text.toNat?_eq_some_iff.2 hnumeral, hi]
    exact ⟨hlength, rfl⟩

/-- A name that is not empty, a slash, and one or more digits of any kind. -/
structure IsNameArity (argument name digits : Text) : Prop where
  parts : argument = name ++ CodePoint.ofChar '/' :: digits
  named : name ≠ []
  counted : digits ≠ []
  all : ∀ c ∈ digits, CodePoint.isAnyDigit c = true

/-- Why a text behind the name of a kind, or without one, names no entity of it. -/
inductive IsMalformed (argument : Text) : ArgumentError → Prop
  | expected (h : ∀ name digits, ¬ IsNameArity argument name digits) :
      IsMalformed argument (.nameArityExpected argument)
  | tooLong {name digits : Text} (h : IsNameArity argument name digits)
      (hlong : Decimal.maxDigits < digits.decimalLength) :
      IsMalformed argument (.tooLong (.read digits.decimalLength))
  | notANumber {name digits : Text} (h : IsNameArity argument name digits)
      (hshort : digits.decimalLength ≤ Decimal.maxDigits)
      (hdigit : ∃ c ∈ digits, CodePoint.decimalValue? c = none) :
      IsMalformed argument (.notANumber digits)

/-- A numeral behind a name and a slash. -/
theorem isNameArity_of_isNumeral (hname : name ≠ []) (hdigits : digits.IsNumeral n) :
    IsNameArity (name ++ CodePoint.ofChar '/' :: digits) name digits :=
  ⟨rfl, hname, hdigits.1, hdigits.isAnyDigit⟩

/-- No digit is a slash, and so the last slash is the one before the digits. -/
theorem IsNameArity.splitLast? (h : IsNameArity argument name digits) :
    Text.splitLast? '/' argument = some (name, digits) := by
  have hslash : CodePoint.ofChar '/' ∉ digits := fun hmem => absurd (h.all _ hmem) (by decide)
  rw [h.parts]
  exact Text.splitLast?_append_cons hslash

theorem IsNameArity.unique {name' digits' : Text} (h : IsNameArity argument name digits)
    (h' : IsNameArity argument name' digits') : name = name' ∧ digits = digits' :=
  Prod.mk.inj (Option.some.inj (h.splitLast?.symm.trans h'.splitLast?))

theorem IsNameArity.ofNameArity_eq (h : IsNameArity argument name digits) :
    ofNameArity kind argument = (readArity digits).map fun i => ⟨kind, name, i⟩ := by
  have hall : digits.all (·.isAnyDigit) = true := List.all_eq_true.2 h.all
  rw [ofNameArity, h.splitLast?]
  dsimp only
  rw [if_neg (by simp [h.named, h.counted, hall])]
  rfl

theorem ofNameArity_of_forall_not (h : ∀ name digits, ¬ IsNameArity argument name digits) :
    ofNameArity kind argument = .error (.nameArityExpected argument) := by
  unfold ofNameArity
  split
  · rfl
  · rename_i name digits hsplit
    rw [if_pos]
    by_contra hparts
    simp only [Bool.not_eq_true, Bool.or_eq_false_iff, Bool.not_eq_false', List.isEmpty_eq_false_iff,
      List.all_eq_true] at hparts
    obtain ⟨⟨hname, hdigits⟩, hall⟩ := hparts
    exact h name digits ⟨(Text.splitLast?_eq_some hsplit).1, hname, hdigits, hall⟩

theorem ofNameArity_eq_ok_iff : ofNameArity kind argument = .ok ref ↔
    ∃ name digits, ∃ n : Nat, IsNameArity argument name digits ∧ digits.IsNumeral n ∧
      digits.length ≤ Decimal.maxDigits ∧ ref = ⟨kind, name, n⟩ := by
  constructor
  · intro h
    by_cases hparts : ∃ name digits, IsNameArity argument name digits
    · obtain ⟨name, digits, hparts⟩ := hparts
      rw [hparts.ofNameArity_eq, map_eq_ok_iff] at h
      obtain ⟨i, hread, rfl⟩ := h
      obtain ⟨n, hnumeral, hlength, rfl⟩ := readArity_eq_ok_iff.1 hread
      exact ⟨name, digits, n, hparts, hnumeral, hlength, rfl⟩
    · rw [ofNameArity_of_forall_not fun name digits h' => hparts ⟨name, digits, h'⟩] at h
      cases h
  · intro ⟨name, digits, n, hparts, hnumeral, hlength, href⟩
    rw [hparts.ofNameArity_eq, map_eq_ok_iff]
    exact ⟨n, readArity_eq_ok_iff.2 ⟨n, hnumeral, hlength, rfl⟩, href.symm⟩

theorem ofNameArity_eq_error_iff :
    ofNameArity kind argument = .error e ↔ IsMalformed argument e := by
  by_cases hparts : ∃ name digits, IsNameArity argument name digits
  · obtain ⟨name, digits, hparts⟩ := hparts
    rw [hparts.ofNameArity_eq, map_eq_error_iff, readArity_eq]
    constructor
    · intro h
      split at h
      · rename_i hlong
        cases h
        exact .tooLong hparts hlong
      · rename_i hshort
        split at h
        · cases h
        · rename_i hnone
          cases h
          exact .notANumber hparts (not_lt.1 hshort)
            ((Text.toNat?_eq_none_iff.1 hnone).resolve_left hparts.counted)
    · intro h
      cases h with
      | expected h => exact (h _ _ hparts).elim
      | tooLong h hlong =>
        obtain ⟨-, rfl⟩ := hparts.unique h
        rw [if_pos hlong]
      | notANumber h hshort hdigit =>
        obtain ⟨-, rfl⟩ := hparts.unique h
        rw [if_neg (not_lt.2 hshort), Text.toNat?_eq_none_iff.2 (.inr hdigit)]
  · have hnone : ∀ name digits, ¬ IsNameArity argument name digits :=
      fun name digits h => hparts ⟨name, digits, h⟩
    rw [ofNameArity_of_forall_not hnone]
    constructor
    · intro h
      cases h
      exact .expected hnone
    · intro h
      cases h with
      | expected _ => rfl
      | tooLong h _ => exact (hnone _ _ h).elim
      | notANumber h _ _ => exact (hnone _ _ h).elim

/-! ## Arguments -/

/-- The first colon ends the name of a kind; an argument without one is about a function. -/
inductive Selects : Text → EntityKind → Text → Prop
  | function {argument : Text} (h : CodePoint.ofChar ':' ∉ argument) :
      Selects argument .function argument
  | kind (kind : EntityKind) (rest : Text) :
      Selects (kind.name ++ CodePoint.ofChar ':' :: rest) kind rest

/-- What arguments are about, in a module. -/
inductive Denotes (module : Text) : Text → EntityRef → Prop
  | own : Denotes module [] (ofModule module)
  | ownModule {argument : Text} (h : Selects argument .module []) :
      Denotes module argument (ofModule module)
  | module {argument name : Text} (h : Selects argument .module name) (hname : name ≠ []) :
      Denotes module argument (ofModule name)
  | nameArity {argument rest name digits : Text} {kind : EntityKind} {n : Nat}
      (h : Selects argument kind rest) (hkind : kind ≠ .module)
      (hrest : IsNameArity rest name digits) (hdigits : digits.IsNumeral n)
      (hlength : digits.length ≤ Decimal.maxDigits) : Denotes module argument ⟨kind, name, n⟩

/-- Why an argument is about nothing. -/
inductive IsRefused : Text → ArgumentError → Prop
  | unknownKind {name rest : Text} (hcolon : CodePoint.ofChar ':' ∉ name)
      (hname : ∀ kind : EntityKind, kind.name ≠ name) :
      IsRefused (name ++ CodePoint.ofChar ':' :: rest) (.unknownKind name)
  | malformed {argument rest : Text} {kind : EntityKind} {e : ArgumentError} (hne : argument ≠ [])
      (h : Selects argument kind rest) (hkind : kind ≠ .module) (hrest : IsMalformed rest e) :
      IsRefused argument e

/-- An argument is empty, or it selects a kind, or names one that there is not. -/
theorem selects_or_unknown (argument : Text) : (∃ kind rest, Selects argument kind rest) ∨
    ∃ name rest, argument = name ++ CodePoint.ofChar ':' :: rest ∧ CodePoint.ofChar ':' ∉ name ∧
      ∀ kind : EntityKind, kind.name ≠ name := by
  cases hsplit : Text.splitFirst? ':' argument with
  | none => exact .inl ⟨_, _, .function (Text.splitFirst?_eq_none_iff.1 hsplit)⟩
  | some parts =>
    obtain ⟨name, rest⟩ := parts
    obtain ⟨rfl, hcolon⟩ := Text.splitFirst?_eq_some hsplit
    cases hname : EntityKind.ofName? name with
    | none => exact .inr ⟨name, rest, rfl, hcolon, EntityKind.ofName?_eq_none_iff.1 hname⟩
    | some kind =>
      rw [← EntityKind.name_of_ofName? hname]
      exact .inl ⟨kind, rest, .kind kind rest⟩

theorem ofArgument_unknown (hcolon : CodePoint.ofChar ':' ∉ name)
    (hname : ∀ kind : EntityKind, kind.name ≠ name) :
    ofArgument (some (name ++ CodePoint.ofChar ':' :: rest)) module
      = .error (.unknownKind name) := by
  rw [ofArgument, Option.getD_some, if_neg (by simp), Text.splitFirst?_append_cons hcolon]
  dsimp only
  rw [EntityKind.ofName?_eq_none_iff.2 hname]

theorem Selects.rest_eq_nil (h : Selects argument kind rest) (hnil : argument = []) :
    rest = [] := by
  cases h with
  | function _ => exact hnil
  | kind => exact absurd hnil (by simp)

theorem Selects.ofArgument_module (h : Selects argument .module rest) :
    ofArgument (some argument) module
      = .ok (ofModule (if rest.isEmpty then module else rest)) := by
  cases h
  rw [ofArgument, Option.getD_some, if_neg (by simp),
    Text.splitFirst?_append_cons (EntityKind.colon_not_mem_name .module)]
  dsimp only
  rw [EntityKind.ofName?_name]

theorem Selects.ofArgument_eq (h : Selects argument kind rest) (hkind : kind ≠ .module)
    (hne : argument ≠ []) : ofArgument (some argument) module = ofNameArity kind rest := by
  rw [ofArgument, Option.getD_some, if_neg (by simpa using hne)]
  cases h with
  | function hcolon => rw [Text.splitFirst?_eq_none_iff.2 hcolon]
  | kind =>
    rw [Text.splitFirst?_append_cons (EntityKind.colon_not_mem_name kind)]
    dsimp only
    rw [EntityKind.ofName?_name]
    cases kind with
    | module => exact absurd rfl hkind
    | _ => rfl

/-- An argument is read as what it is about. -/
theorem ofArgument_eq_ok_iff :
    ofArgument (some argument) module = .ok ref ↔ Denotes module argument ref := by
  constructor
  · intro h
    by_cases hne : argument = []
    · subst hne
      cases h
      exact .own
    rcases selects_or_unknown argument with ⟨kind, rest, hselects⟩ | ⟨name, rest, rfl, hcolon, hname⟩
    · by_cases hkind : kind = .module
      · subst hkind
        rw [hselects.ofArgument_module] at h
        cases h
        cases rest with
        | nil => exact .ownModule hselects
        | cons c rest => exact .module hselects (List.cons_ne_nil c rest)
      · rw [hselects.ofArgument_eq hkind hne] at h
        obtain ⟨name, digits, n, hparts, hdigits, hlength, rfl⟩ := ofNameArity_eq_ok_iff.1 h
        exact .nameArity hselects hkind hparts hdigits hlength
    · rw [ofArgument_unknown hcolon hname] at h
      cases h
  · intro h
    cases h with
    | own => rfl
    | ownModule h => rw [h.ofArgument_module, if_pos (by rfl)]
    | module h hname => rw [h.ofArgument_module, if_neg (by simpa using hname)]
    | nameArity h hkind hrest hdigits hlength =>
      have hne : argument ≠ [] := fun hnil =>
        absurd (h.rest_eq_nil hnil ▸ hrest.parts) (by simp)
      rw [h.ofArgument_eq hkind hne, ofNameArity_eq_ok_iff]
      exact ⟨_, _, _, hrest, hdigits, hlength, rfl⟩

/-- An argument is refused for what is wrong with it. -/
theorem ofArgument_eq_error_iff :
    ofArgument (some argument) module = .error e ↔ IsRefused argument e := by
  constructor
  · intro h
    by_cases hne : argument = []
    · subst hne
      cases h
    rcases selects_or_unknown argument with ⟨kind, rest, hselects⟩ | ⟨name, rest, rfl, hcolon, hname⟩
    · by_cases hkind : kind = .module
      · subst hkind
        rw [hselects.ofArgument_module] at h
        cases h
      · rw [hselects.ofArgument_eq hkind hne] at h
        exact .malformed hne hselects hkind (ofNameArity_eq_error_iff.1 h)
    · rw [ofArgument_unknown hcolon hname] at h
      cases h
      exact .unknownKind hcolon hname
  · intro h
    cases h with
    | unknownKind hcolon hname => exact ofArgument_unknown hcolon hname
    | malformed hne h hkind hrest =>
      rw [h.ofArgument_eq hkind hne]
      exact ofNameArity_eq_error_iff.2 hrest

/-! ## Entities as arguments -/

/-- The name of an entity and its number of arguments. -/
def nameArity (r : EntityRef) : Text := r.name ++ CodePoint.ofChar '/' :: Text.ofInt r.arity

/-- The argument for an entity that names its kind. -/
def qualified (r : EntityRef) : Text :=
  r.kind.name ++ CodePoint.ofChar ':' :: if r.kind = .module then r.name else r.nameArity

/-- A number of arguments is written as a numeral of it. -/
theorem exists_isNumeral_ofInt (hpos : 0 ≤ i) (hlimit : i ≤ 0xFFFF) : ∃ n : Nat, i = n ∧
    (Text.ofInt i).IsNumeral n ∧ (Text.ofInt i).length ≤ Decimal.maxDigits := by
  obtain ⟨n, rfl⟩ := Int.eq_ofNat_of_zero_le hpos
  have hwritten : Text.ofInt n = Text.ofNat n := by
    rw [Text.ofInt, if_neg (not_lt.2 hpos)]
    rfl
  refine ⟨n, rfl, hwritten ▸ Text.isNumeral_ofNat n, ?_⟩
  have hfew : (Text.ofNat n).length ≤ 5 := (length_ofNat_le_iff (by decide)).2 (by omega)
  exact hwritten ▸ hfew.trans (by decide)

/-- The entity can be written as an argument: it has a name, the number of its arguments is one that
is written, and a module has none. -/
structure IsWritable (r : EntityRef) : Prop where
  named : r.name ≠ []
  arity : 0 ≤ r.arity ∧ r.arity ≤ 0xFFFF
  module : r.kind = .module → r.arity = 0

/-- A text that selects the kind of an entity in front of its name and its number of arguments
denotes it, whatever its name is. -/
theorem IsWritable.denotes_nameArity (h : ref.IsWritable) (hkind : ref.kind ≠ .module)
    (hselects : Selects argument ref.kind ref.nameArity) (module : Text) :
    Denotes module argument ref := by
  obtain ⟨kind, name, arity⟩ := ref
  obtain ⟨n, hn, hdigits, hlength⟩ := exists_isNumeral_ofInt h.arity.1 h.arity.2
  obtain rfl : arity = n := hn
  exact .nameArity hselects hkind (isNameArity_of_isNumeral h.named hdigits) hdigits hlength

/-- An entity is denoted by its kind, its name and its number of arguments. -/
theorem IsWritable.denotes_qualified (h : ref.IsWritable) (module : Text) :
    Denotes module ref.qualified ref := by
  by_cases hkind : ref.kind = .module
  · obtain ⟨kind, name, arity⟩ := ref
    obtain rfl : kind = .module := hkind
    obtain rfl : arity = 0 := h.module rfl
    exact .module (.kind .module name) h.named
  · refine h.denotes_nameArity hkind ?_ module
    rw [qualified, if_neg hkind]
    exact .kind ref.kind ref.nameArity

/-- No colon is in a number of arguments. -/
theorem IsWritable.colon_not_mem (h : ref.IsWritable) (hcolon : CodePoint.ofChar ':' ∉ ref.name) :
    CodePoint.ofChar ':' ∉ ref.nameArity := by
  obtain ⟨n, _, hdigits, _⟩ := exists_isNumeral_ofInt h.arity.1 h.arity.2
  intro hmem
  rcases List.mem_append.1 hmem with hname | hrest
  · exact hcolon hname
  rcases List.mem_cons.1 hrest with hslash | harity
  · exact absurd hslash (by decide)
  · exact absurd (hdigits.isAnyDigit _ harity) (by decide)

end EntityRef

/-! ## Entities of chunks -/

namespace Chunk

/-- What is listed can be written as an argument, if it has a name. -/
theorem isWritable_of_mem_list {data : Bytes} {c : Chunk} {e : Entry} {kind? : Option EntityKind}
    (h : ofBytes data = .ok c) (hmodule : c.module.ref.arity = 0) (he : e ∈ c.list kind?)
    (hname : e.ref.name ≠ []) : e.ref.IsWritable where
  named := hname
  arity := (isDecoded_of_decode (ofBytes_eq_ok_iff.1 h) e (mem_of_mem_list he)).arity
  module := by
    intro hkind
    rcases (mem_list_iff.1 he).1 with rfl | hother
    · exact hmodule
    · exact absurd hkind ((isArranged_of_decode (ofBytes_eq_ok_iff.1 h)).kinds e hother)

/-- An argument is read as the entity that it denotes or refused for what is wrong with it.  What a
chunk lists can be asked for by kind, name and number of arguments, and a function without a colon
in its name without the kind, and a lookup finds it. -/
theorem listed_is_denoted (module : Text) :
    (∀ argument ref, EntityRef.ofArgument (some argument) module = .ok ref ↔
      EntityRef.Denotes module argument ref) ∧
    (∀ argument e, EntityRef.ofArgument (some argument) module = .error e ↔
      EntityRef.IsRefused argument e) ∧
    ∀ data c, ofBytes data = .ok c → c.module.ref.arity = 0 →
      ∀ kind?, ∀ e ∈ c.list kind?, e.ref.name ≠ [] →
        EntityRef.ofArgument (some e.ref.qualified) module = .ok e.ref ∧
        c.lookup? e.ref = some e ∧
        (e.ref.kind = .function → CodePoint.ofChar ':' ∉ e.ref.name →
          EntityRef.ofArgument (some e.ref.nameArity) module = .ok e.ref) := by
  refine ⟨fun _ _ => EntityRef.ofArgument_eq_ok_iff,
    fun _ _ => EntityRef.ofArgument_eq_error_iff, ?_⟩
  intro data c h hmodule kind? e he hname
  have hwritable := isWritable_of_mem_list h hmodule he hname
  refine ⟨EntityRef.ofArgument_eq_ok_iff.2 (hwritable.denotes_qualified module), ?_, ?_⟩
  · have hc := isArranged_of_decode (ofBytes_eq_ok_iff.1 h)
    exact (lookup?_eq_some_iff hc).2 ⟨(mem_list_iff.1 he).1, rfl⟩
  · intro hkind hcolon
    refine EntityRef.ofArgument_eq_ok_iff.2 (hwritable.denotes_nameArity (by simp [hkind]) ?_ module)
    rw [hkind]
    exact .function (hwritable.colon_not_mem hcolon)

/-- A chunk with a function whose name has a colon and a slash. -/
def punctuatedChunk : Bytes :=
  [0x44, 0x4F, 0x43, 0x43, 1, 0, 0, 0, 0, 0,
    0, 1, 0, 0x6D, 0, 0, 1, 0, 0, 0, 0, 11, 0, 0, 0, 0, 2, 0, 0, 0,
    1, 5, 0, 0x61, 0x3A, 0x62, 0x2F, 0x63, 12, 0, 1, 0, 0, 0, 0, 11, 0, 0, 0, 0,
    1, 1, 0, 0x66, 0, 0, 1, 0, 0, 0, 0, 11, 0, 0, 0, 0]

/-- The function is found behind its kind, and another one without it; behind a superscript there is
no number. -/
theorem listed_is_denoted_punctuatedChunk : ∃ c, ofBytes punctuatedChunk = .ok c ∧
    EntityRef.ofArgument (some "function:a:b/c/12") "n" = .ok ⟨.function, "a:b/c", 12⟩ ∧
    c.lookup? ⟨.function, "a:b/c", 12⟩ = some ⟨⟨.function, "a:b/c", 12⟩, .undocumented, [], true, 1⟩ ∧
    EntityRef.ofArgument (some "module:m") "n" = .ok c.module.ref ∧
    c.lookup? ⟨.module, "m", 0⟩ = some c.module ∧
    EntityRef.ofArgument (some "f/0") "n" = .ok ⟨.function, "f", 0⟩ ∧
    EntityRef.ofArgument (some "f/\u00b2") "n" = .error (.notANumber "\u00b2") := by
  have hread : ofBytes punctuatedChunk = .ok ⟨1, [], ⟨⟨.module, "m", 0⟩, .undocumented, [], true, 1⟩,
      [⟨⟨.function, "a:b/c", 12⟩, .undocumented, [], true, 1⟩,
        ⟨⟨.function, "f", 0⟩, .undocumented, [], true, 1⟩]⟩ := by cbv
  obtain ⟨_, hrefused, hlisted⟩ := listed_is_denoted "n"
  have hall := hlisted _ _ hread rfl none
  obtain ⟨hmodule, hfound, -⟩ := hall _ List.mem_cons_self (by decide)
  obtain ⟨hpunctuated, hfound', -⟩ :=
    hall _ (List.mem_cons_of_mem _ List.mem_cons_self) (by decide)
  obtain ⟨-, -, hplain⟩ :=
    hall _ (List.mem_cons_of_mem _ (List.mem_cons_of_mem _ List.mem_cons_self)) (by decide)
  have hdigit : CodePoint.isAnyDigit '\u00b2' = true := by cbv
  have hvalue : CodePoint.decimalValue? '\u00b2' = none := by cbv
  have hparts : EntityRef.IsNameArity "f/\u00b2" "f" "\u00b2" :=
    ⟨rfl, by decide, by decide, List.forall_mem_singleton.2 hdigit⟩
  refine ⟨_, hread, hpunctuated, hfound', hmodule, hfound, hplain rfl (by decide), ?_⟩
  exact (hrefused _ _).2 (.malformed (by decide) (.function (by decide)) (by decide)
    (.notANumber hparts (by cbv) ⟨_, List.mem_singleton_self _, hvalue⟩))

end Chunk

end ModuleDocs
