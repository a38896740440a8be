import Mathlib
import ModuleDocs.Json.Reader
import ModuleDocs.Json.Writer
import ModuleDocs.Proofs.Number.Numeral
import ModuleDocs.Proofs.Text.Utf8

/-!
# JSON that was written is read back

`Json.read_write` says that a value written without blanks is read as that value, if it holds no
numbers but integers of few enough digits, and no object with two members of one name
(`Json.IsExact`).

`Gives read t a behind` says that the step `read` takes the front of `t`, makes `a` of it and stops
before `behind`.  There is one such fact for each kind of text that is written: strings
(`gives_readString`), words and integers (`gives_readScalar_word`, `gives_readScalar_ofInt`), and
from them all values (`gives_readValue`).  An integer ends where its digits do, so that what stands
behind a value matters: a comma or a closing bracket, or nothing (`IsClosing`).
-/

namespace ModuleDocs.Json

/-- The step takes the front of a text, wherever it is, gives a value and stops in front of the
rest. -/
def Gives {α : Type} (read : Cursor → Except ReadError (α × Cursor)) (t : Text) (a : α)
    (behind : Text) : Prop :=
  ∀ start, ∃ stop, read ⟨start, t⟩ = .ok (a, ⟨stop, behind⟩)

/-- What may stand behind a value that is written without blanks. -/
def IsClosing (rest : Text) : Prop :=
  ∀ c ∈ rest.head?, c ∈ ([',', ']', Char.ofNat 0x7D].map CodePoint.ofChar)

variable {rest : Text}

namespace Cursor

/-- There is no white space to pass over. -/
theorem skipSpace_cons {c : CodePoint} (hc : isSpace c = false) (start : Nat) :
    (Cursor.mk start (c :: rest)).skipSpace = ⟨start, c :: rest⟩ := by
  rw [skipSpace, List.takeWhile_cons_of_neg (by simp [hc])]
  rfl

theorem advance_append (start : Nat) (t : Text) :
    (Cursor.mk start (t ++ rest)).advance t.length = ⟨start + t.length, rest⟩ := by
  rw [advance, List.drop_left]

theorem isAt_cons {c : CodePoint} {start : Nat} {ch : Char} :
    (Cursor.mk start (c :: rest)).isAt ch = decide (c = CodePoint.ofChar ch) := by
  simp [isAt]

end Cursor

theorem IsClosing.skipSpace (h : IsClosing rest) (start : Nat) :
    (Cursor.mk start rest).skipSpace = ⟨start, rest⟩ := by
  cases rest with
  | nil => rfl
  | cons c rest =>
    have hc := h c rfl
    refine Cursor.skipSpace_cons ?_ start
    revert hc
    simp only [List.map_cons, List.map_nil, List.mem_cons, List.not_mem_nil, or_false]
    rintro (rfl | rfl | rfl) <;> decide

/-! ## Strings -/

section Strings

variable {start position : Nat} {done : Text}

/-- A letter behind a backslash. -/
theorem stringBody_letter {d e : CodePoint} (hd : d ≠ 'u') (he : simpleEscape? d = some e) :
    stringBody start position done (CodePoint.ofChar '\\' :: d :: rest)
      = stringBody start (position + 2) (e :: done) rest := by
  rw [stringBody.eq_def]
  dsimp only
  rw [if_neg (by decide), if_neg (by decide), if_neg (by decide), if_pos hd, he]

theorem stringBody_plain {c : CodePoint} (hquote : c ≠ '"') (hslash : c ≠ '\\')
    (hprintable : ¬ c.val < 0x20) :
    stringBody start position done (c :: rest)
      = stringBody start (position + 1) (c :: done) rest := by
  rw [stringBody.eq_def]
  dsimp only
  rw [if_neg hquote, if_neg hprintable, if_pos hslash]

variable (start position done)

/-- A unit of four digits that is no half of a pair. -/
theorem stringBody_unit {a b c d : CodePoint} {n : Nat} (hn : hexUnit? a b c d = some n)
    (hplain : n < 0xD800) (hrest : rest ≠ []) :
    stringBody start position done
        (CodePoint.ofChar '\\' :: CodePoint.ofChar 'u' :: a :: b :: c :: d :: rest)
      = stringBody start (position + 6) (.ofNat n :: done) rest := by
  have hhigh : ¬ 0xD800 ≤ n := by omega
  rw [stringBody.eq_def]
  dsimp only
  rw [if_neg (by decide), if_neg (by decide), if_neg (by decide), if_neg (by decide), hn]
  dsimp only
  split
  · exact absurd rfl hrest
  · rw [if_neg fun h => hhigh h.1]
  · rfl

theorem escapeUnit_eq {n : Nat} (h : n < 0x20) :
    escapeUnit n = [CodePoint.ofChar '\\', CodePoint.ofChar 'u', CodePoint.ofChar '0',
      CodePoint.ofChar '0', CodePoint.ofChar (Nat.digitChar (n / 16)),
      CodePoint.ofChar (Nat.digitChar (n % 16))] := by
  revert n
  decide +kernel

theorem hexUnit?_digitChar {n : Nat} (h : n < 0x20) :
    hexUnit? (CodePoint.ofChar '0') (CodePoint.ofChar '0')
      (CodePoint.ofChar (Nat.digitChar (n / 16))) (CodePoint.ofChar (Nat.digitChar (n % 16)))
        = some n := by
  revert n
  decide +kernel

/-- A code point is written as a letter behind a backslash, as a unit or as it is. -/
theorem writePoint_cases (c : CodePoint) :
    (∃ d : CodePoint, d ≠ 'u' ∧ simpleEscape? d = some c ∧
      writePoint .compact c = [CodePoint.ofChar '\\', d]) ∨
    (c.val < 0x20 ∧ writePoint .compact c = escapeUnit c.val) ∨
    (c ≠ '"' ∧ c ≠ '\\' ∧ ¬ c.val < 0x20 ∧ writePoint .compact c = [c]) := by
  by_cases hquote : c = '"'
  · subst hquote
    exact .inl ⟨'"', by decide, by decide, rfl⟩
  by_cases hslash : c = '\\'
  · subst hslash
    exact .inl ⟨'\\', by decide, by decide, rfl⟩
  by_cases hnewline : c = '\n'
  · subst hnewline
    exact .inl ⟨'n', by decide, by decide, rfl⟩
  by_cases hreturn : c = '\r'
  · subst hreturn
    exact .inl ⟨'r', by decide, by decide, rfl⟩
  by_cases htab : c = '\t'
  · subst htab
    exact .inl ⟨'t', by decide, by decide, rfl⟩
  by_cases hfeed : c.val = 0x0C
  · obtain rfl : c = 0x0C := Fin.ext hfeed
    exact .inl ⟨'f', by decide, by decide, rfl⟩
  by_cases hback : c.val = 0x08
  · obtain rfl : c = 0x08 := Fin.ext hback
    exact .inl ⟨'b', by decide, by decide, rfl⟩
  rw [writePoint, if_neg hquote, if_neg hslash, if_neg hnewline, if_neg hreturn, if_neg htab,
    if_neg hfeed, if_neg hback]
  by_cases hcontrol : c.val < 0x20
  · exact .inr (.inl ⟨hcontrol, if_pos hcontrol⟩)
  · exact .inr (.inr ⟨hquote, hslash, hcontrol, if_neg hcontrol⟩)

/-- One code point is read back inside a string. -/
theorem stringBody_writePoint (c : CodePoint) (hrest : rest ≠ []) :
    ∃ next, stringBody start position done (writePoint .compact c ++ rest)
      = stringBody start next (c :: done) rest := by
  rcases writePoint_cases c with ⟨d, hd, he, hwrite⟩ | ⟨hc, hwrite⟩ | ⟨hquote, hslash, hc, hwrite⟩
  · rw [hwrite]
    exact ⟨_, stringBody_letter hd he⟩
  · rw [hwrite, escapeUnit_eq hc]
    have hread := stringBody_unit start position done (hexUnit?_digitChar hc) (by omega) hrest
    rw [CodePoint.ofNat_val] at hread
    exact ⟨position + 6, hread⟩
  · rw [hwrite]
    exact ⟨position + 1, stringBody_plain hquote hslash hc⟩

/-- What was written up to the closing quote is read back. -/
theorem stringBody_flatMap (t : Text) :
    ∃ stop, stringBody start position done
        (t.flatMap (writePoint .compact) ++ CodePoint.ofChar '"' :: rest)
      = .ok (done.reverse ++ t, ⟨stop, rest⟩) := by
  induction t generalizing position done with
  | nil =>
    refine ⟨position + 1, ?_⟩
    rw [List.flatMap_nil, List.nil_append, List.append_nil, stringBody.eq_def]
    exact if_pos rfl
  | cons c t ih =>
    obtain ⟨next, hpoint⟩ := stringBody_writePoint start position done c
      (List.append_ne_nil_of_right_ne_nil (t.flatMap (writePoint .compact))
        (List.cons_ne_nil (CodePoint.ofChar '"') rest))
    obtain ⟨stop, hstop⟩ := ih next (c :: done)
    refine ⟨stop, ?_⟩
    rw [List.flatMap_cons, List.append_assoc, hpoint, hstop]
    simp

theorem gives_readString (t rest : Text) :
    Gives readString (writeString .compact t ++ rest) t rest := by
  intro start
  rw [readString, writeString, List.cons_append, List.append_assoc]
  exact stringBody_flatMap start (start + 1) [] t

end Strings

/-! ## Integers -/

section Integers

variable {n : Nat} {i : Int}

/-- No number but zero begins with a zero. -/
theorem head?_toDigits (hn : n ≠ 0) : (Nat.toDigits 10 n).head? ≠ some '0' := by
  induction n using Nat.strongRecOn with
  | ind n ih =>
    rw [Nat.toDigits_eq_if (by decide)]
    split
    · rename_i hlt
      have hdigit : ∀ d < 10, d ≠ 0 → Nat.digitChar d ≠ '0' := by decide
      exact fun h => hdigit n hlt hn (Option.some.inj h)
    · rename_i hle
      rw [List.head?_append_of_ne_nil _ Nat.toDigits_ne_nil]
      exact ih (n / 10) (Nat.div_lt_self (by omega) (by decide)) (by omega)

theorem head?_ofNat (hn : n ≠ 0) : (Text.ofNat n).head? ≠ some (CodePoint.ofChar '0') := by
  intro h
  rw [Text.ofNat, List.head?_map, Option.map_eq_some_iff] at h
  obtain ⟨digit, hdigit, hzero⟩ := h
  have hval : (CodePoint.ofChar digit).val = (CodePoint.ofChar '0').val := by rw [hzero]
  exact head?_toDigits hn (hdigit.trans (congrArg some (Char.ext (UInt32.toNat_inj.1 hval))))

/-- What stands behind a value goes on no number. -/
structure EndsNumber (t : Text) : Prop where
  digits : digitsOf t = []
  fraction : fractionOf t = []
  exponent : exponentOf t = none

theorem IsClosing.endsNumber (h : IsClosing rest) : EndsNumber rest := by
  cases rest with
  | nil => exact ⟨rfl, rfl, rfl⟩
  | cons c rest =>
    have hc := h c rfl
    simp only [List.map_cons, List.map_nil, List.mem_cons, List.not_mem_nil, or_false] at hc
    rcases hc with rfl | rfl | rfl <;> exact ⟨rfl, rfl, rfl⟩

theorem digitsOf_append {digits : Text} (hdigits : ∀ c ∈ digits, c.isDigit = true)
    (hrest : EndsNumber rest) : digitsOf (digits ++ rest) = digits := by
  rw [digitsOf, List.takeWhile_append_of_pos hdigits]
  exact (congrArg (digits ++ ·) hrest.digits).trans (List.append_nil digits)

/-- The digits of a number are its whole part: a zero that stands alone, or all of them. -/
theorem whole_eq (n : Nat) (hrest : EndsNumber rest) :
    (if (Text.ofNat n ++ rest).head? = some (CodePoint.ofChar '0')
      then (Text.ofNat n ++ rest).take 1
      else digitsOf (Text.ofNat n ++ rest)) = Text.ofNat n := by
  rcases Nat.eq_zero_or_pos n with rfl | hn
  · rfl
  · rw [List.head?_append_of_ne_nil _ (ofNat_ne_nil n), if_neg (head?_ofNat hn.ne')]
    exact digitsOf_append (fun _ => isDigit_of_mem_ofNat) hrest

theorem integerOf_ofNat (negative : Bool) (hn : n < Nat.pow 10 Decimal.maxDigits) :
    integerOf negative (Text.ofNat n) = .ok (.int (if negative then -(n : Int) else n)) := by
  rw [integerOf, Decimal.allow, if_neg (Nat.not_lt.2 (length_ofNat_le_maxDigits_iff.2 hn)),
    digitsValue, ofDigits_ofNat]
  rfl

theorem exists_ofNat_eq_cons (n : Nat) :
    ∃ d t, Text.ofNat n = d :: t ∧ d.isDigit = true := by
  obtain ⟨d, t, hcons⟩ := List.exists_cons_of_ne_nil (ofNat_ne_nil n)
  exact ⟨d, t, hcons, isDigit_of_mem_ofNat (hcons ▸ List.mem_cons_self)⟩

/-- A number of digits only is an integer. -/
theorem number?_of_body {t : Text} {negative : Bool}
    (hsign : t.head? = some (CodePoint.ofChar '-') ↔ negative = true)
    (hbody : (if negative then t.tail else t) = Text.ofNat n ++ rest) (hrest : EndsNumber rest) :
    number? t = some ((if negative then 1 else 0) + (Text.ofNat n).length,
      integerOf negative (Text.ofNat n)) := by
  have hne : (Text.ofNat n).isEmpty = false := by
    rw [← Bool.not_eq_true, List.isEmpty_iff]
    exact ofNat_ne_nil n
  unfold number?
  simp only [hsign, hbody, whole_eq n hrest, hne, List.drop_left, hrest.fraction, hrest.exponent,
    List.isEmpty_nil, if_true, Nat.add_zero, Bool.false_eq_true, if_false, Bool.decide_eq_true]

theorem number?_ofInt (hi : i.natAbs < Nat.pow 10 Decimal.maxDigits) (hrest : EndsNumber rest) :
    number? (Text.ofInt i ++ rest) = some ((Text.ofInt i).length, .ok (.int i)) := by
  rw [Text.ofInt]
  split
  · rename_i hneg
    have hvalue : -(i.natAbs : Int) = i := by omega
    rw [number?_of_body (iff_of_true rfl rfl) rfl hrest, integerOf_ofNat true hi, if_pos rfl,
      if_pos rfl, hvalue, List.length_cons, Nat.add_comm]
  · rename_i hneg
    obtain ⟨d, t, hcons, hd⟩ := exists_ofNat_eq_cons i.natAbs
    have hsign : ¬ (Text.ofNat i.natAbs ++ rest).head? = some (CodePoint.ofChar '-') := by
      rw [hcons, List.cons_append, List.head?_cons, Option.some.injEq]
      rintro rfl
      cases hd
    have hvalue : (i.natAbs : Int) = i := by omega
    rw [number?_of_body (iff_of_false hsign Bool.false_ne_true) rfl hrest, integerOf_ofNat false hi,
      if_neg Bool.false_ne_true, if_neg Bool.false_ne_true, hvalue, Nat.zero_add]

/-- One of the first two characters of an integer is a digit. -/
theorem exists_digit_ofInt (i : Int) (rest : Text) :
    ∃ d ∈ (Text.ofInt i ++ rest).take 2, d.isDigit = true := by
  obtain ⟨d, t, hcons, hd⟩ := exists_ofNat_eq_cons i.natAbs
  refine ⟨d, ?_, hd⟩
  rw [Text.ofInt, hcons]
  split <;> simp

/-- No word begins as an integer does: words have at least two characters, and no digits. -/
theorem find?_words_ofInt (i : Int) (rest : Text) :
    (words.find? fun w => w.1.isPrefixOf (Text.ofInt i ++ rest)) = none := by
  have hwords : ∀ w ∈ words, 2 ≤ w.1.length ∧ w.1.all (! ·.isDigit) = true := by
    simp only [words, List.forall_mem_cons]
    exact ⟨by decide, by decide, by decide, by decide, by decide, by decide, List.forall_mem_nil _⟩
  obtain ⟨d, hmem, hd⟩ := exists_digit_ofInt i rest
  refine List.find?_eq_none.2 fun w hw hstart => ?_
  obtain ⟨hlong, hletters⟩ := hwords w hw
  obtain ⟨behind, hbehind⟩ := List.isPrefixOf_iff_prefix.1 hstart
  rw [← hbehind, List.take_append_of_le_length hlong] at hmem
  have hletter := List.all_eq_true.1 hletters d (List.mem_of_mem_take hmem)
  rw [hd] at hletter
  cases hletter

theorem gives_readScalar_ofInt (hi : i.natAbs < Nat.pow 10 Decimal.maxDigits)
    (hrest : EndsNumber rest) : Gives readScalar (Text.ofInt i ++ rest) (.int i) rest := by
  intro start
  refine ⟨start + (Text.ofInt i).length, ?_⟩
  rw [readScalar, find?_words_ofInt]
  dsimp only
  rw [number?_ofInt hi hrest]
  dsimp only
  rw [Cursor.advance_append]

end Integers

/-! ## Values -/

mutual

/-- Whether a value is written as a text that is read as the same value: its numbers are integers
of few enough digits, and no two members of an object have one name. -/
def IsExact : Json → Prop
  | .null | .bool _ | .string _ => True
  | .int i => i.natAbs < Nat.pow 10 Decimal.maxDigits
  | .float _ => False
  | .array items => AllExact items
  | .object members => (members.map Prod.fst).Nodup ∧ MembersExact members

def AllExact : List Json → Prop
  | [] => True
  | j :: rest => IsExact j ∧ AllExact rest

def MembersExact : List (Text × Json) → Prop
  | [] => True
  | (_, j) :: rest => IsExact j ∧ MembersExact rest

end

/-! ### What stands in front -/

/-- A value begins with a character that is no white space, no bracket that closes an array and no
byte order mark. -/
structure Opens (c : CodePoint) : Prop where
  isSpace : Cursor.isSpace c = false
  notClosing : c ≠ ']'
  notMark : c ≠ 0xFEFF

/-- An integer begins with a digit or a minus sign. -/
theorem exists_ofInt_eq_cons (i : Int) :
    ∃ c t, Text.ofInt i = c :: t ∧ (c.isDigit = true ∨ c = CodePoint.ofChar '-') := by
  obtain ⟨d, t, hcons, hd⟩ := exists_ofNat_eq_cons i.natAbs
  rw [Text.ofInt, hcons]
  split
  · exact ⟨_, _, rfl, .inr rfl⟩
  · exact ⟨_, _, rfl, .inl hd⟩

theorem opens_of_isDigit {c : CodePoint} (h : c.isDigit = true ∨ c = CodePoint.ofChar '-') :
    Opens c := by
  rcases h with h | rfl
  · have hspace : Cursor.isSpace c = false := by
      rw [← Bool.not_eq_true]
      intro hspace
      simp only [Cursor.isSpace, Bool.or_eq_true, decide_eq_true_eq] at hspace
      rcases hspace with ((rfl | rfl) | rfl) | rfl <;> cases h
    refine ⟨hspace, ?_, ?_⟩
    · rintro rfl
      cases h
    · rintro rfl
      cases h
  · exact ⟨by decide, by decide, by decide⟩

theorem exists_bracketed_eq_cons (level : Nat) (left right : Char) (parts : List Text) :
    ∃ t, bracketed .compact level left right parts = CodePoint.ofChar left :: t := by
  unfold bracketed
  split
  · exact ⟨_, rfl⟩
  · exact ⟨_, rfl⟩

/-- Each value that is written begins with such a character. -/
theorem exists_writeAt_eq_cons {j : Json} (hj : j.IsExact) (level : Nat) :
    ∃ c t, writeAt .compact level j = c :: t ∧ Opens c := by
  cases j with
  | null => exact ⟨_, _, rfl, by decide, by decide, by decide⟩
  | bool b => cases b <;> exact ⟨_, _, rfl, by decide, by decide, by decide⟩
  | int i =>
    obtain ⟨c, t, hcons, hc⟩ := exists_ofInt_eq_cons i
    exact ⟨c, t, by rw [writeAt, hcons], opens_of_isDigit hc⟩
  | float bits => exact hj.elim
  | string t => exact ⟨_, _, rfl, by decide, by decide, by decide⟩
  | array items =>
    obtain ⟨t, ht⟩ := exists_bracketed_eq_cons level '[' ']' (writeItems .compact (level + 1) items)
    exact ⟨_, t, ht, by decide, by decide, by decide⟩
  | object members =>
    obtain ⟨t, ht⟩ := exists_bracketed_eq_cons level (Char.ofNat 0x7B) (Char.ofNat 0x7D)
      (writeMembers .compact (level + 1) members)
    exact ⟨_, t, ht, by decide, by decide, by decide⟩

/-! ### Arrays and objects -/

/-- Parts with commas between them. -/
def listed (parts : List Text) : Text := Text.join (Text.ofString ",") parts

theorem listed_singleton (part : Text) : listed [part] = part := by
  simp [listed, Text.join]

theorem listed_cons_cons (part next : Text) (parts : List Text) :
    listed (part :: next :: parts) = part ++ CodePoint.ofChar ',' :: listed (next :: parts) := by
  rw [listed, Text.join, List.intercalate_cons_cons]
  simp [listed, Text.join, Text.ofString]

theorem bracketed_cons (level : Nat) (left right : Char) (part : Text) (parts : List Text) :
    bracketed .compact level left right (part :: parts)
      = CodePoint.ofChar left :: (listed (part :: parts) ++ [CodePoint.ofChar right]) := by
  simp [bracketed, lineBreak, Style.compact, listed]

theorem exists_writeItems_eq_cons {j : Json} (hj : j.IsExact) (level : Nat) (items : List Json) :
    ∃ c t, listed (writeItems .compact level (j :: items)) = c :: t ∧ Opens c := by
  obtain ⟨c, t, hcons, hc⟩ := exists_writeAt_eq_cons hj level
  cases items with
  | nil => exact ⟨c, t, by rw [writeItems, writeItems, listed_singleton, hcons], hc⟩
  | cons k items =>
    have hlisted := listed_cons_cons (writeAt .compact level j) (writeAt .compact level k)
      (writeItems .compact level items)
    rw [hcons, List.cons_append] at hlisted
    exact ⟨c, _, by rw [writeItems, writeItems, hcons, hlisted], hc⟩

theorem writeMembers_cons (level : Nat) (name : Text) (j : Json) (members : List (Text × Json)) :
    writeMembers .compact level ((name, j) :: members)
      = (writeString .compact name ++ CodePoint.ofChar ':' :: writeAt .compact level j)
        :: writeMembers .compact level members := by
  rw [writeMembers, List.append_assoc]
  rfl

theorem exists_writeMembers_eq_cons (name : Text) (j : Json) (level : Nat)
    (members : List (Text × Json)) :
    ∃ t, listed (writeMembers .compact level ((name, j) :: members))
      = CodePoint.ofChar '"' :: t := by
  rw [writeMembers_cons]
  cases members with
  | nil =>
    rw [writeMembers, listed_singleton]
    exact ⟨_, rfl⟩
  | cons m members =>
    rw [writeMembers_cons, listed_cons_cons]
    exact ⟨_, rfl⟩

section Parts

variable {fuel : Nat} {t : Text} {c : CodePoint} {j a : Json} {name : Text}

theorem Gives.item_last (done : List Json)
    (hitem : Gives (readValue fuel) t j (CodePoint.ofChar ']' :: rest)) :
    Gives (readItems (fuel + 1) done) t (.array (j :: done).reverse) rest := by
  intro start
  obtain ⟨stop, hstop⟩ := hitem start
  refine ⟨stop + 1, ?_⟩
  rw [readItems, hstop]
  rfl

theorem Gives.item_next {done : List Json} (hc : Cursor.isSpace c = false)
    (hitem : Gives (readValue fuel) t j (CodePoint.ofChar ',' :: c :: rest)) {behind : Text}
    (hothers : Gives (readItems fuel (j :: done)) (c :: rest) a behind) :
    Gives (readItems (fuel + 1) done) t a behind := by
  intro start
  obtain ⟨middle, hmiddle⟩ := hitem start
  obtain ⟨stop, hstop⟩ := hothers (middle + 1)
  refine ⟨stop, ?_⟩
  rw [readItems, hmiddle, ← hstop, ← Cursor.skipSpace_cons hc]
  rfl

/-- The name of a member, the colon and what is read of it. -/
theorem readMembers_name (fuel : Nat) (done : List (Text × Json)) (name rest : Text)
    (hc : Cursor.isSpace c = false) (start : Nat) :
    ∃ middle, readMembers (fuel + 1) done
        ⟨start, writeString .compact name ++ CodePoint.ofChar ':' :: c :: rest⟩ = (do
      let (value, after) ← readValue fuel ⟨middle, c :: rest⟩
      let after := after.skipSpace
      if after.isAt (Char.ofNat 0x7D) then
        return (ofMembers ((name, value) :: done).reverse, after.advance 1)
      else if after.isAt ',' then
        readMembers fuel ((name, value) :: done) (after.advance 1).skipSpace
      else after.fail .expectingComma) := by
  obtain ⟨stop, hstop⟩ := gives_readString name (CodePoint.ofChar ':' :: c :: rest) start
  refine ⟨stop + 1, ?_⟩
  rw [readMembers, hstop, ← Cursor.skipSpace_cons hc]
  rfl

theorem Gives.member_last (done : List (Text × Json)) (name : Text) {behind : Text}
    (hc : Cursor.isSpace c = false)
    (hvalue : Gives (readValue fuel) (c :: rest) j (CodePoint.ofChar (Char.ofNat 0x7D) :: behind)) :
    Gives (readMembers (fuel + 1) done)
      (writeString .compact name ++ CodePoint.ofChar ':' :: c :: rest)
      (ofMembers ((name, j) :: done).reverse) behind := by
  intro start
  obtain ⟨middle, hmiddle⟩ := readMembers_name fuel done name _ hc start
  obtain ⟨stop, hstop⟩ := hvalue middle
  refine ⟨stop + 1, ?_⟩
  rw [hmiddle, hstop]
  rfl

theorem Gives.member_next {done : List (Text × Json)} {c' : CodePoint} {t' : Text}
    (hc : Cursor.isSpace c = false) (hc' : Cursor.isSpace c' = false)
    (hvalue : Gives (readValue fuel) (c :: rest) j (CodePoint.ofChar ',' :: c' :: t'))
    {behind : Text} (hothers : Gives (readMembers fuel ((name, j) :: done)) (c' :: t') a behind) :
    Gives (readMembers (fuel + 1) done)
      (writeString .compact name ++ CodePoint.ofChar ':' :: c :: rest) a behind := by
  intro start
  obtain ⟨middle, hmiddle⟩ := readMembers_name fuel done name _ hc start
  obtain ⟨second, hsecond⟩ := hvalue middle
  obtain ⟨stop, hstop⟩ := hothers (second + 1)
  refine ⟨stop, ?_⟩
  rw [hmiddle, hsecond, ← hstop, ← Cursor.skipSpace_cons hc']
  rfl

theorem Gives.array (hc : Opens c) {behind : Text}
    (hitems : Gives (readItems fuel []) (c :: rest) a behind) :
    Gives (readValue (fuel + 1)) (CodePoint.ofChar '[' :: c :: rest) a behind := by
  intro start
  obtain ⟨stop, hstop⟩ := hitems (start + 1)
  have harray : readValue (fuel + 1) ⟨start, CodePoint.ofChar '[' :: c :: rest⟩ =
      (let inside := (Cursor.mk (start + 1) (c :: rest)).skipSpace
      if inside.isAt ']' then .ok (.array [], inside.advance 1)
      else readItems fuel [] inside) := rfl
  refine ⟨stop, ?_⟩
  rw [harray, Cursor.skipSpace_cons hc.isSpace]
  dsimp only
  rw [Cursor.isAt_cons, decide_eq_false hc.notClosing, if_neg Bool.false_ne_true, hstop]

/-- The members of an object begin with the quote in front of a name. -/
theorem Gives.object {behind : Text}
    (hmembers : Gives (readMembers fuel []) (CodePoint.ofChar '"' :: rest) a behind) :
    Gives (readValue (fuel + 1))
      (CodePoint.ofChar (Char.ofNat 0x7B) :: CodePoint.ofChar '"' :: rest) a behind := by
  intro start
  obtain ⟨stop, hstop⟩ := hmembers (start + 1)
  exact ⟨stop, hstop⟩

end Parts

/-! ### Members -/

theorem setMember_of_notMem {name : Text} {value : Json} {members : List (Text × Json)}
    (h : name ∉ members.map Prod.fst) :
    setMember name value members = members ++ [(name, value)] := by
  induction members with
  | nil => rfl
  | cons m rest ih =>
    rw [List.map_cons, List.mem_cons, not_or] at h
    rw [setMember, if_neg (Ne.symm h.1), ih h.2, List.cons_append]

/-- Members of different names are the members of their object. -/
theorem ofMembers_of_nodup {members : List (Text × Json)} (h : (members.map Prod.fst).Nodup) :
    ofMembers members = .object members := by
  rw [ofMembers]
  congr 1
  induction members using List.reverseRecOn with
  | nil => rfl
  | append_singleton front last ih =>
    rw [List.map_append, List.map_singleton, List.nodup_append] at h
    rw [List.foldl_append, ih h.1]
    refine setMember_of_notMem fun hmem => ?_
    exact h.2.2 _ hmem _ (List.mem_singleton_self _) rfl

/-! ### All values -/

theorem isClosing_cons {ch : Char} (h : ch ∈ [',', ']', Char.ofNat 0x7D]) (rest : Text) :
    IsClosing (CodePoint.ofChar ch :: rest) := by
  intro c hc
  cases hc
  exact List.mem_map_of_mem h

/-- An integer is no string, no array and no object. -/
theorem gives_readValue_ofInt {i : Int} {fuel : Nat} (hi : i.natAbs < Nat.pow 10 Decimal.maxDigits)
    (hrest : EndsNumber rest) :
    Gives (readValue (fuel + 1)) (Text.ofInt i ++ rest) (.int i) rest := by
  intro start
  obtain ⟨stop, hstop⟩ := gives_readScalar_ofInt hi hrest start
  refine ⟨stop, ?_⟩
  obtain ⟨c, t, hcons, hc⟩ := exists_ofInt_eq_cons i
  have hother : ∀ ch ∈ ['"', '[', Char.ofNat 0x7B], c ≠ CodePoint.ofChar ch := by
    have hneither : ∀ ch ∈ ['"', '[', Char.ofNat 0x7B],
        ¬ ((CodePoint.ofChar ch).isDigit = true ∨ CodePoint.ofChar ch = CodePoint.ofChar '-') := by
      simp only [List.forall_mem_cons]
      exact ⟨by decide, by decide, by decide, List.forall_mem_nil _⟩
    rintro ch hch rfl
    exact hneither ch hch hc
  rw [hcons] at hstop ⊢
  rw [List.cons_append] at hstop ⊢
  rw [readValue, Cursor.isAt_cons, Cursor.isAt_cons, Cursor.isAt_cons]
  simp only [hother '"' (by simp), hother '[' (by simp), hother (Char.ofNat 0x7B) (by simp),
    decide_false, Bool.false_eq_true, if_false, hstop]

mutual

/-- A value is read back in front of what may stand behind it. -/
theorem gives_readValue : ∀ (j : Json) (level fuel : Nat) (rest : Text), j.IsExact →
    IsClosing rest → (writeAt .compact level j).length ≤ fuel →
      Gives (readValue fuel) (writeAt .compact level j ++ rest) j rest
  | _, _, 0, _, hj, _, hfuel => by
    obtain ⟨c, t, hcons, _⟩ := exists_writeAt_eq_cons hj _
    rw [hcons] at hfuel
    cases hfuel
  | .null, _, fuel + 1, rest, _, _, _ => fun start => ⟨start + 4, rfl⟩
  | .bool true, _, fuel + 1, rest, _, _, _ => fun start => ⟨start + 4, rfl⟩
  | .bool false, _, fuel + 1, rest, _, _, _ => fun start => ⟨start + 5, rfl⟩
  | .int i, level, fuel + 1, rest, hj, hrest, _ => by
    rw [writeAt]
    exact gives_readValue_ofInt hj hrest.endsNumber
  | .float _, _, _ + 1, _, hj, _, _ => hj.elim
  | .string t, level, fuel + 1, rest, _, _, _ => fun start => by
    obtain ⟨stop, hstop⟩ := gives_readString t rest start
    have hstring : readValue (fuel + 1) ⟨start, writeString .compact t ++ rest⟩ = (do
        let (t, c) ← readString ⟨start, writeString .compact t ++ rest⟩
        return (.string t, c)) := rfl
    exact ⟨stop, by rw [writeAt, hstring, hstop]; rfl⟩
  | .array [], _, fuel + 1, rest, _, _, _ => fun start => ⟨start + 2, rfl⟩
  | .array (j :: items), level, fuel + 1, rest, hj, _, hfuel => by
    obtain ⟨c, t, hcons, hc⟩ := exists_writeItems_eq_cons hj.1 (level + 1) items
    have hitems := gives_readItems (j :: items) (level + 1) fuel [] rest (List.cons_ne_nil _ _) hj
    rw [writeAt, writeItems, bracketed_cons, ← writeItems, hcons] at hfuel ⊢
    rw [hcons, List.cons_append] at hitems
    simp only [List.length_append, List.length_cons, List.length_nil] at hfuel
    simpa only [List.append_assoc, List.cons_append, List.nil_append, List.reverse_nil] using
      Gives.array hc (hitems (by rw [List.length_cons]; omega))
  | .object [], _, fuel + 1, rest, _, _, _ => fun start => ⟨start + 2, rfl⟩
  | .object ((name, j) :: members), level, fuel + 1, rest, hj, _, hfuel => by
    obtain ⟨t, hcons⟩ := exists_writeMembers_eq_cons name j (level + 1) members
    have hmembers := gives_readMembers ((name, j) :: members) (level + 1) fuel [] rest
      (List.cons_ne_nil _ _) hj.2
    rw [writeAt, writeMembers_cons, bracketed_cons, ← writeMembers_cons, hcons] at hfuel ⊢
    rw [hcons, List.reverse_nil, List.nil_append, ofMembers_of_nodup hj.1,
      List.cons_append] at hmembers
    simp only [List.length_append, List.length_cons, List.length_nil] at hfuel
    simpa only [List.append_assoc, List.cons_append, List.nil_append] using
      Gives.object (hmembers (by rw [List.length_cons]; omega))

theorem gives_readItems : ∀ (items : List Json) (level fuel : Nat) (done : List Json) (rest : Text),
    items ≠ [] → AllExact items → (listed (writeItems .compact level items)).length + 1 ≤ fuel →
      Gives (readItems fuel done)
        (listed (writeItems .compact level items) ++ CodePoint.ofChar ']' :: rest)
        (.array (done.reverse ++ items)) rest
  | [], _, _, _, _, hne, _, _ => (hne rfl).elim
  | [j], level, fuel + 1, done, rest, _, hitems, hfuel => by
    have hitem := gives_readValue j level fuel (CodePoint.ofChar ']' :: rest) hitems.1
      (isClosing_cons (by simp) rest) (by simpa [writeItems, listed_singleton] using hfuel)
    simpa [writeItems, listed_singleton] using hitem.item_last done
  | j :: k :: items, level, fuel + 1, done, rest, _, hitems, hfuel => by
    rw [writeItems, writeItems, listed_cons_cons, ← writeItems] at hfuel ⊢
    simp only [List.length_append, List.length_cons] at hfuel
    obtain ⟨c, t, hcons, hc⟩ := exists_writeItems_eq_cons hitems.2.1 level items
    have hothers := gives_readItems (k :: items) level fuel (j :: done) rest (List.cons_ne_nil _ _)
      hitems.2 (by omega)
    rw [hcons, List.cons_append] at hothers
    rw [hcons, List.append_assoc, List.cons_append, List.cons_append]
    have hitem := gives_readValue j level fuel
      (CodePoint.ofChar ',' :: c :: (t ++ CodePoint.ofChar ']' :: rest)) hitems.1
      (isClosing_cons (by simp) _) (by omega)
    simpa only [List.reverse_cons, List.append_assoc, List.cons_append, List.nil_append] using
      hitem.item_next hc.isSpace hothers

theorem gives_readMembers : ∀ (members : List (Text × Json)) (level fuel : Nat)
    (done : List (Text × Json)) (rest : Text), members ≠ [] → MembersExact members →
      (listed (writeMembers .compact level members)).length + 1 ≤ fuel →
        Gives (readMembers fuel done)
          (listed (writeMembers .compact level members)
            ++ CodePoint.ofChar (Char.ofNat 0x7D) :: rest)
          (ofMembers (done.reverse ++ members)) rest
  | [], _, _, _, _, hne, _, _ => (hne rfl).elim
  | [(name, j)], level, fuel + 1, done, rest, _, hmembers, hfuel => by
    obtain ⟨c, t, hcons, hc⟩ := exists_writeAt_eq_cons hmembers.1 level
    have hvalue := gives_readValue j level fuel (CodePoint.ofChar (Char.ofNat 0x7D) :: rest)
      hmembers.1 (isClosing_cons (by simp) rest)
    rw [writeMembers_cons, writeMembers, listed_singleton, List.length_append, List.length_cons]
      at hfuel
    rw [writeMembers_cons, writeMembers, listed_singleton, hcons]
    rw [hcons] at hvalue hfuel
    rw [List.cons_append] at hvalue
    simpa only [List.reverse_cons, List.append_assoc, List.cons_append, List.nil_append] using
      Gives.member_last done name hc.isSpace (hvalue (by omega))
  | (name, j) :: (other, k) :: members, level, fuel + 1, done, rest, _, hmembers, hfuel => by
    obtain ⟨c, t, hcons, hc⟩ := exists_writeAt_eq_cons hmembers.1 level
    obtain ⟨t', hcons'⟩ := exists_writeMembers_eq_cons other k level members
    rw [writeMembers_cons, writeMembers_cons, listed_cons_cons, ← writeMembers_cons] at hfuel ⊢
    simp only [List.length_append, List.length_cons] at hfuel
    have hothers := gives_readMembers ((other, k) :: members) level fuel ((name, j) :: done) rest
      (List.cons_ne_nil _ _) hmembers.2 (by omega)
    have hvalue := gives_readValue j level fuel (CodePoint.ofChar ',' :: CodePoint.ofChar '"'
      :: (t' ++ CodePoint.ofChar (Char.ofNat 0x7D) :: rest)) hmembers.1 (isClosing_cons (by simp) _)
      (by omega)
    rw [hcons', List.cons_append] at hothers
    rw [hcons, List.cons_append] at hvalue
    rw [hcons, hcons']
    simpa only [List.reverse_cons, List.append_assoc, List.cons_append, List.nil_append] using
      Gives.member_next hc.isSpace (by decide) hvalue hothers

end

/-- A value that is written without blanks is read back, if it is one that is written exactly. -/
theorem read_write {j : Json} (hj : j.IsExact) : read (j.write .compact) = .ok j := by
  obtain ⟨c, t, hcons, hc⟩ := exists_writeAt_eq_cons hj 0
  obtain ⟨stop, hstop⟩ := gives_readValue j 0 (2 * (j.write .compact).length + 2) [] hj nofun
    (by rw [write]; omega) 0
  rw [List.append_nil] at hstop
  rw [write, hcons] at hstop ⊢
  have hmark : ¬ (c :: t).head? = some 0xFEFF := fun h => hc.notMark (Option.some.inj h)
  rw [read, if_neg hmark, Cursor.skipSpace_cons hc.isSpace, hstop]
  rfl

end ModuleDocs.Json
