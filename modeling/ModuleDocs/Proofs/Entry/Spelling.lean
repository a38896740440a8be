import Mathlib
import ModuleDocs.Proofs.Entry.Canonical
import ModuleDocs.Proofs.Text.Sequences

/-!
# All forms of a text become the same bytes

A text comes as code points, as UTF-8 bytes with or without the name of the encoding, or, if no
code point is past `FF`, as one byte for each.  `Term.Spells` lists these forms, and
`Term.IsAccepted` the values that have a normal form at all.  `Term.normalizeText_converges` says
that all forms of one text have one normal form, which is read as that text, and that every other
value is refused.

The name of an encoding counts in any letter case (`Text.IsCaseOf`).
-/

namespace ModuleDocs

/-! ## Letter case -/

/-- The same code point, or the upper case of a lower case letter. -/
def CodePoint.IsCaseOf (c d : CodePoint) : Prop := d = c ∨ c.isLower = true ∧ d.val + 0x20 = c.val

theorem CodePoint.toLower_eq_iff {c d : CodePoint} (hc : c.isUpper = false) :
    d.toLower = c ↔ c.IsCaseOf d := by
  have hlast := c.isLt
  simp only [isUpper, Bool.and_eq_false_iff, decide_eq_false_iff_not] at hc
  unfold IsCaseOf toLower
  simp only [isUpper, isLower, Bool.and_eq_true, decide_eq_true_eq, Fin.ext_iff]
  split
  · rw [val_ofNat_of_lt (by omega)]
    omega
  · omega

namespace Text

/-- The same text, but for letters in upper case. -/
def IsCaseOf (name t : Text) : Prop := List.Forall₂ CodePoint.IsCaseOf name t

/-- One of the names in any letter case. -/
def IsOneOf (names : List Text) (t : Text) : Prop := ∃ name ∈ names, name.IsCaseOf t

variable {name t : Text} {names : List Text}

/-- A text is the name in any letter case just when it is the name once it is in lower case. -/
theorem map_toLower_eq_iff (hname : ∀ c ∈ name, c.isUpper = false) :
    Text.toLower t = name ↔ name.IsCaseOf t := by
  induction name generalizing t with
  | nil => cases t <;> simp [Text.toLower, IsCaseOf]
  | cons c name ih =>
    obtain ⟨hc, hrest⟩ := List.forall_mem_cons.1 hname
    cases t with
    | nil => simp [Text.toLower, IsCaseOf]
    | cons d t =>
      rw [Text.toLower, List.map_cons, List.cons.injEq, IsCaseOf, List.forall₂_cons]
      exact and_congr (CodePoint.toLower_eq_iff hc) (ih hrest)

theorem contains_toLower_iff (hnames : (names.all fun name => name.all (! ·.isUpper)) = true) :
    names.contains (Text.toLower t) = true ↔ t.IsOneOf names := by
  have hlower : ∀ name ∈ names, ∀ c ∈ name, c.isUpper = false := fun name hname c hc => by
    simpa using List.all_eq_true.1 (List.all_eq_true.1 hnames name hname) c hc
  rw [List.contains_iff_mem]
  constructor
  · intro hmem
    exact ⟨_, hmem, (map_toLower_eq_iff (hlower _ hmem)).1 rfl⟩
  · rintro ⟨name, hmem, hcase⟩
    rwa [(map_toLower_eq_iff (hlower name hmem)).2 hcase]

end Text

namespace Term

variable {t : Term} {chars encoding : Text} {data : Bytes}

theorem contains_utf8Names_iff :
    utf8Names.contains (Text.toLower encoding) = true ↔ encoding.IsOneOf utf8Names :=
  Text.contains_toLower_iff (by decide)

theorem contains_latin1Names_iff :
    latin1Names.contains (Text.toLower encoding) = true ↔ encoding.IsOneOf latin1Names :=
  Text.contains_toLower_iff (by decide)

/-! ## Forms of one text -/

/-- The forms in which a text can come. -/
inductive Spells (chars : Text) : Term → Prop
  | text : Spells chars (.text chars)
  | atom : Spells chars (.atom chars)
  | bytes : Spells chars (.bytes (Utf8.encodeAll chars))
  | utf8 {encoding : Text} (hname : encoding.IsOneOf utf8Names) :
    Spells chars (.tagged (Utf8.encodeAll chars) encoding)
  | latin1 {encoding : Text} {data : Bytes} (hname : encoding.IsOneOf latin1Names)
    (hdata : Utf8.toLatin1? chars = some data) :
    Spells chars (.tagged data encoding)

/-- One byte for each code point gives the code points back. -/
theorem ofLatin1_of_toLatin1? (h : Utf8.toLatin1? chars = some data) :
    Utf8.ofLatin1 data = chars := by
  unfold Utf8.toLatin1? at h
  split at h
  · rename_i hall
    cases h
    rw [List.all_eq_true] at hall
    rw [Utf8.ofLatin1, List.map_map]
    refine (List.map_congr_left fun c hc => ?_).trans (List.map_id chars)
    have hbyte := of_decide_eq_true (hall c hc)
    rw [Function.comp_apply, Utf8.toNat_ofNat_of_lt hbyte, CodePoint.ofNat_val, id]
  · cases h

/-- Each form of a text stands for it. -/
theorem Spells.standsFor (h : t.Spells chars) (hchars : Utf8.isEncodable chars = true) :
    t.StandsFor chars := by
  cases h with
  | text => exact .text chars
  | atom => exact .atom chars
  | bytes => exact .bytes (Utf8.decode_encodeAll hchars)
  | utf8 hname => exact .utf8 (contains_utf8Names_iff.2 hname) (Utf8.decode_encodeAll hchars)
  | @latin1 _ data hname hdata =>
    have hstands := StandsFor.latin1 data (contains_latin1Names_iff.2 hname)
    rwa [ofLatin1_of_toLatin1? hdata] at hstands

/-! ## Values with a normal form -/

/-- The values that have a normal form as a text. -/
inductive IsAccepted : Term → Prop
  | text {chars : Text} (h : Utf8.isEncodable chars = true) : IsAccepted (.text chars)
  | atom {chars : Text} (h : Utf8.isEncodable chars = true) : IsAccepted (.atom chars)
  | bytes {data : Bytes} (h : Utf8.IsTabular data) : IsAccepted (.bytes data)
  | utf8 {data : Bytes} {encoding : Text} (hname : encoding.IsOneOf utf8Names)
    (h : Utf8.IsTabular data) : IsAccepted (.tagged data encoding)
  | latin1 {encoding : Text} (data : Bytes) (hname : encoding.IsOneOf latin1Names) :
    IsAccepted (.tagged data encoding)

/-- The error about a value without a normal form says what is wrong with it. -/
inductive IsRefusedWith : Term → TextError → Prop
  | text (chars : Text) : IsRefusedWith (.text chars) .notEncodable
  | atom (chars : Text) : IsRefusedWith (.atom chars) .notEncodable
  | bytes (data : Bytes) (offset : Nat) : IsRefusedWith (.bytes data) (.notUtf8 "utf8" offset)
  | utf8 {encoding : Text} (hname : encoding.IsOneOf utf8Names) (data : Bytes) (offset : Nat) :
    IsRefusedWith (.tagged data encoding) (.notUtf8 encoding offset)
  | otherName {encoding : Text} (hutf8 : ¬ encoding.IsOneOf utf8Names)
    (hlatin1 : ¬ encoding.IsOneOf latin1Names) (data : Bytes) :
    IsRefusedWith (.tagged data encoding) (.unsupportedEncoding encoding)
  | noText {t : Term} (h : t.isText = false) : IsRefusedWith t (.notText t.typeName)

/-- A value is accepted when it stands for a text that has bytes. -/
theorem isAccepted_iff_hasBytes : t.IsAccepted ↔ ∃ data, t.HasBytes data := by
  constructor
  · rintro (hchars | hchars | hdata | ⟨hname, hdata⟩ | ⟨data, hname⟩)
    · exact ⟨_, _, .text _, Utf8.decode_encodeAll hchars⟩
    · exact ⟨_, _, .atom _, Utf8.decode_encodeAll hchars⟩
    · obtain ⟨chars, hdecode⟩ := Utf8.isTabular_iff_decode.1 hdata
      exact ⟨_, chars, .bytes hdecode, hdecode⟩
    · obtain ⟨chars, hdecode⟩ := Utf8.isTabular_iff_decode.1 hdata
      exact ⟨_, chars, .utf8 (contains_utf8Names_iff.2 hname) hdecode, hdecode⟩
    · exact ⟨_, _, .latin1 data (contains_latin1Names_iff.2 hname),
        Utf8.decode_encodeAll (Utf8.isEncodable_ofLatin1 data)⟩
  · rintro ⟨data, chars, hstands, hdata⟩
    have hchars := (Utf8.encode_eq_ok_iff.1 (Utf8.encode_of_decode hdata)).1
    cases hstands with
    | text => exact .text hchars
    | atom => exact .atom hchars
    | bytes hdecode => exact .bytes (Utf8.isTabular_iff_decode.2 ⟨_, hdecode⟩)
    | utf8 hname hdecode =>
      exact .utf8 (contains_utf8Names_iff.1 hname) (Utf8.isTabular_iff_decode.2 ⟨_, hdecode⟩)
    | latin1 data hname => exact .latin1 data (contains_latin1Names_iff.1 hname)

/-- Bytes with a name of UTF-8 are refused for a place that is not well formed. -/
theorem exists_offset_of_normalizeTagged {e : TextError} (hname : encoding.IsOneOf utf8Names)
    (h : normalizeTagged data encoding = .error e) : ∃ offset, e = .notUtf8 encoding offset := by
  unfold normalizeTagged at h
  dsimp only at h
  rw [if_pos (contains_utf8Names_iff.2 hname)] at h
  split at h
  · cases h
  · cases h
    exact ⟨_, rfl⟩

theorem isRefusedWith_of_normalizeTagged {e : TextError}
    (h : normalizeTagged data encoding = .error e) : IsRefusedWith (.tagged data encoding) e := by
  by_cases hutf8 : encoding.IsOneOf utf8Names
  · obtain ⟨offset, rfl⟩ := exists_offset_of_normalizeTagged hutf8 h
    exact .utf8 hutf8 data offset
  · unfold normalizeTagged at h
    dsimp only at h
    rw [if_neg (mt contains_utf8Names_iff.1 hutf8)] at h
    split at h
    · cases h
    · rename_i hlatin1
      cases h
      exact .otherName hutf8 (mt contains_latin1Names_iff.2 hlatin1) data

/-- The error of normalizing is the one about the value. -/
theorem isRefusedWith_of_normalizeText {e : TextError} (h : t.normalizeText = .error e) :
    t.IsRefusedWith e := by
  cases t with
  | text chars | atom chars =>
    rw [normalizeText] at h
    split at h
    · cases h
    · cases h
      constructor
  | bytes data =>
    have hname : Text.IsOneOf utf8Names "utf8" := contains_utf8Names_iff.1 (by decide)
    obtain ⟨offset, rfl⟩ := exists_offset_of_normalizeTagged hname h
    exact .bytes data offset
  | tagged data encoding => exact isRefusedWith_of_normalizeTagged h
  | _ =>
    cases h
    exact .noText rfl

/-- All forms of a text without surrogates have the same normal form, which is read as that text.
Code points are accepted if none of them is a surrogate, bytes without an encoding or with a name
of UTF-8 if they are well formed; every value that is not accepted is refused. -/
theorem normalizeText_converges :
    (∀ chars, Utf8.isEncodable chars = true → ∃ data, Utf8.decode data = .ok chars ∧
      ∀ t : Term, t.Spells chars → t.normalizeText = .ok data) ∧
    (∀ chars, (∃ data, (Term.text chars).normalizeText = .ok data) ↔
      Utf8.isEncodable chars = true) ∧
    (∀ data, (∃ out, (Term.bytes data).normalizeText = .ok out) ↔ Utf8.IsTabular data) ∧
    (∀ (data : Bytes) (encoding : Text), encoding.IsOneOf utf8Names →
      ((∃ out, (Term.tagged data encoding).normalizeText = .ok out) ↔ Utf8.IsTabular data)) ∧
    (∀ t : Term, (∃ data, t.normalizeText = .ok data) ↔ t.IsAccepted) ∧
    ∀ t : Term, ¬ t.IsAccepted → ∃ e, t.normalizeText = .error e ∧ t.IsRefusedWith e := by
  have haccepted (t : Term) : (∃ data, t.normalizeText = .ok data) ↔ t.IsAccepted := by
    rw [isAccepted_iff_hasBytes]
    exact exists_congr fun data => normalizeText_eq_ok_iff
  refine ⟨?_, ?_, ?_, ?_, haccepted, ?_⟩
  · intro chars hchars
    refine ⟨Utf8.encodeAll chars, Utf8.decode_encodeAll hchars, fun t ht => ?_⟩
    exact normalizeText_eq_ok_iff.2 ⟨chars, ht.standsFor hchars, Utf8.decode_encodeAll hchars⟩
  · intro chars
    refine (haccepted _).trans ⟨?_, .text⟩
    rintro ⟨hchars⟩
    exact hchars
  · intro data
    refine (haccepted _).trans ⟨?_, .bytes⟩
    rintro (_ | _ | hdata)
    exact hdata
  · intro data encoding hname
    refine (haccepted _).trans ⟨?_, .utf8 hname⟩
    rintro (_ | _ | _ | ⟨_, hdata⟩ | ⟨_, hlatin1⟩)
    · exact hdata
    · have hnot := not_utf8_of_latin1 (contains_latin1Names_iff.2 hlatin1)
      rw [contains_utf8Names_iff.2 hname] at hnot
      cases hnot
  · intro t ht
    cases h : t.normalizeText with
    | ok data => exact absurd ((haccepted t).1 ⟨data, h⟩) ht
    | error e => exact ⟨e, rfl, isRefusedWith_of_normalizeText h⟩

/-- The letter `é` in four forms, and bytes that would be a slash if one byte more could be taken
for it than it needs. -/
theorem normalizeText_converges_accent : Utf8.isEncodable [0xE9] = true ∧
    (Term.text [0xE9]).normalizeText = .ok [0xC3, 0xA9] ∧
    (Term.bytes [0xC3, 0xA9]).normalizeText = .ok [0xC3, 0xA9] ∧
    (Term.tagged [0xC3, 0xA9] "UTF-8").normalizeText = .ok [0xC3, 0xA9] ∧
    (Term.tagged [0xE9] "Latin1").normalizeText = .ok [0xC3, 0xA9] ∧
    ∃ e, (Term.tagged [0xC0, 0xAF] "uTf8").normalizeText = .error e := by
  have hchars : Utf8.isEncodable [0xE9] = true := by decide
  have hutf8 : Text.IsOneOf utf8Names "UTF-8" := contains_utf8Names_iff.1 (by decide)
  have hlatin1 : Text.IsOneOf latin1Names "Latin1" := contains_latin1Names_iff.1 (by decide)
  have hmixed : Text.IsOneOf utf8Names "uTf8" := contains_utf8Names_iff.1 (by decide)
  obtain ⟨hforms, _, _, hbytes, haccepted, hrefused⟩ := normalizeText_converges
  obtain ⟨data, hdecode, hdata⟩ := hforms [0xE9] hchars
  obtain rfl : data = [0xC3, 0xA9] :=
    Except.ok.inj ((hdata _ .text).symm.trans (by decide))
  refine ⟨hchars, hdata _ .text, hdata _ .bytes, hdata _ (.utf8 hutf8),
    hdata _ (.latin1 hlatin1 (by decide)), ?_⟩
  have hlong : ¬ Utf8.IsTabular [0xC0, 0xAF] := by
    rw [Utf8.isTabular_iff_decode]
    rintro ⟨chars, h⟩
    cases h
  obtain ⟨e, he, _⟩ := hrefused (.tagged [0xC0, 0xAF] "uTf8") fun h =>
    hlong ((hbytes _ _ hmixed).1 ((haccepted _).2 h))
  exact ⟨e, he⟩

end Term

end ModuleDocs
