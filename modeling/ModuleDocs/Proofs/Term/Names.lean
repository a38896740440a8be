import Mathlib
import ModuleDocs.Proofs.Number.Layout
import ModuleDocs.Proofs.Result
import ModuleDocs.Proofs.Term.Fits
import ModuleDocs.Proofs.Text.Quoted
import ModuleDocs.Term.Display
import ModuleDocs.Entry.View

/-!
# Which keys get one name

In a plain term each key of a map becomes a text, its name: a text, an atom or bytes the text that
they spell, and any other key what messages write for it (`Term.name`, `Term.eq_name`).

`Term.name_eq_iff` settles which keys get one name.  They are alike, in that they differ in nothing
but how a text is spelled and which NaN stands somewhere, or one of them is a text in which the
other is written out.  The reason is that what is written for a key can be read again, even in front
of the rest of a tuple (`Term.alike_of_writing`).
-/

namespace ModuleDocs.Term

open Result Shortest

variable {a b t : Term} {u v : Text}

/-! ## Names -/

/-- The text that a key spells, what is not UTF-8 in it replaced. -/
def spelling? : Term → Option Text
  | .bytes data => some (Utf8.decodeLossy data)
  | .text t => some t
  | .atom t => some t
  | _ => Option.none

mutual

/-- What is written for a key, and for each part of one. -/
def writing : Term → Text
  | .none => "None"
  | .bool b => if b then "True" else "False"
  | .int i => Text.ofInt i
  | .float bits => floatLayout.text bits
  | .bytes data => (Utf8.decodeLossy data : Text).quoted
  | .text t => t.quoted
  | .atom t => t.quoted
  | .tagged data encoding =>
    ("\x7b'encoding': " : Text) ++ encoding.quoted ++ (", 'hex': " : Text)
      ++ (Text.hexOfBytes data).quoted ++ ("\x7d" : Text)
  | .tuple items => ("[" : Text) ++ Text.join ", " (writingAll items) ++ ("]" : Text)
  | _ => []

def writingAll : List Term → List Text
  | [] => []
  | t :: rest => writing t :: writingAll rest

end

/-- The name that a key gets. -/
def name (t : Term) : Text := t.spelling?.getD t.writing

mutual

/-- The keys differ in nothing but the spelling of texts and in what is not a number. -/
inductive Alike : Term → Term → Prop
  | same (t : Term) : Alike t t
  | spelled {s t : Term} {text : Text} (hs : s.spelling? = some text)
    (ht : t.spelling? = some text) : Alike s t
  | nan {a b : UInt64} (ha : Binary64.isNaN a = true) (hb : Binary64.isNaN b = true) :
    Alike (.float a) (.float b)
  | tuple {items others : List Term} (h : AreAlike items others) :
    Alike (.tuple items) (.tuple others)

inductive AreAlike : List Term → List Term → Prop
  | nil : AreAlike [] []
  | cons {a b : Term} {items others : List Term} (h : Alike a b) (hrest : AreAlike items others) :
    AreAlike (a :: items) (b :: others)

end

/-- The first key is a text in which the second is written out, which is no text itself. -/
def SpellsOut (a b : Term) : Prop := b.spelling? = Option.none ∧ a.spelling? = some b.writing

/-- The keys get one name, as `name_eq_iff` says. -/
def SameName (a b : Term) : Prop := Alike a b ∨ SpellsOut a b ∨ SpellsOut b a

/-- A key whose parts are all of kinds that can be stored. -/
def IsKey (t : Term) : Prop := t.isHashable = true ∧ t.Every HasTag

theorem isKey_text (t : Text) : (Term.text t).IsKey := ⟨rfl, trivial⟩

theorem IsKey.head {rest : List Term} (h : (Term.tuple (t :: rest)).IsKey) : t.IsKey :=
  ⟨(Bool.and_eq_true_iff.1 h.1).1, h.2.2.1⟩

theorem IsKey.tail {rest : List Term} (h : (Term.tuple (t :: rest)).IsKey) :
    (Term.tuple rest).IsKey :=
  ⟨(Bool.and_eq_true_iff.1 h.1).2, trivial, h.2.2.2⟩

/-! ## Kinds

The first code point that is written for a key tells the kind of key. -/

/-- The kinds of keys that begin in different ways. -/
inductive KeyKind where
  | word
  | spelled
  | tagged
  | tuple
deriving DecidableEq

/-- The code points of words and numbers. -/
def isWordPoint (c : CodePoint) : Bool :=
  c.isDigit || c.isLower || c.isUpper || c = '.' || c = '-' || c = '+'

def kind : Term → KeyKind
  | .tuple _ => .tuple
  | .tagged _ _ => .tagged
  | .bytes _ | .text _ | .atom _ => .spelled
  | _ => .word

/-- The kind of key that begins with a code point. -/
def kindOf? (c : CodePoint) : Option KeyKind :=
  if isWordPoint c then some .word
  else if c = '\'' ∨ c = '"' then some .spelled
  else if c = Char.ofNat 0x7B then some .tagged
  else if c = '[' then some .tuple
  else Option.none

theorem isClear_floatLayout : floatLayout.IsClear where
  nan := by
    rintro c ⟨⟩
    decide
  infinity := by
    rintro c ⟨⟩
    decide
  different := by decide

theorem cases_of_word (ht : t.IsKey) (hkind : t.kind = .word) :
    (t = .none ∨ ∃ b, t = .bool b) ∨ (∃ i, t = .int i) ∨ ∃ bits, t = .float bits := by
  cases t with
  | none => exact .inl (.inl rfl)
  | bool b => exact .inl (.inr ⟨b, rfl⟩)
  | int i => exact .inr (.inl ⟨i, rfl⟩)
  | float bits => exact .inr (.inr ⟨bits, rfl⟩)
  | list items | map items => exact absurd ht.1 (by simp [isHashable])
  | funRef name arity | foreign name => exact absurd ht.2 id
  | _ => cases hkind

theorem isWordPoint_of_isNumeric {c : CodePoint} (h : Layout.IsNumeric c) :
    isWordPoint c = true := by
  rcases h with hdigit | rfl | rfl | rfl | rfl
  · simp [isWordPoint, hdigit]
  all_goals decide

/-- Words and numbers are made of word points. -/
theorem forall_mem_word (ht : t.IsKey) (hkind : t.kind = .word) :
    ∀ c ∈ t.writing, isWordPoint c = true := by
  rcases cases_of_word ht hkind with (rfl | ⟨b, rfl⟩) | ⟨i, rfl⟩ | ⟨bits, rfl⟩
  · exact List.all_eq_true.1 (by decide : (Text.ofString "None").all isWordPoint = true)
  · cases b
    · exact List.all_eq_true.1 (by decide : (Text.ofString "False").all isWordPoint = true)
    · exact List.all_eq_true.1 (by decide : (Text.ofString "True").all isWordPoint = true)
  · exact fun c hc => isWordPoint_of_isNumeric (Layout.isNumeric_of_mem_ofInt hc)
  · intro c hc
    rcases Layout.mem_text hc with hnumeric | hnan | hinfinity
    · exact isWordPoint_of_isNumeric hnumeric
    · exact List.all_eq_true.1 (by decide : (Text.ofString "nan").all isWordPoint = true) c hnan
    · have hall : (Text.ofString "inf").all isWordPoint = true := by decide
      exact List.all_eq_true.1 hall c hinfinity

theorem writing_ne_nil_of_word (ht : t.IsKey) (hkind : t.kind = .word) : t.writing ≠ [] := by
  rcases cases_of_word ht hkind with (rfl | ⟨b, rfl⟩) | ⟨i, rfl⟩ | ⟨bits, rfl⟩
  · exact List.cons_ne_nil _ _
  · cases b <;> exact List.cons_ne_nil _ _
  · rw [writing, Text.ofInt]
    split
    · exact List.cons_ne_nil _ _
    · exact ofNat_ne_nil _
  · exact Layout.text_ne_nil (by decide) (by decide)

theorem exists_spelling? (hkind : t.kind = .spelled) :
    ∃ text, t.spelling? = some text ∧ t.writing = text.quoted := by
  cases t with
  | bytes data => exact ⟨_, rfl, rfl⟩
  | text t => exact ⟨_, rfl, rfl⟩
  | atom t => exact ⟨_, rfl, rfl⟩
  | _ => cases hkind

/-- A key begins with a code point of its kind. -/
theorem exists_head_writing (ht : t.IsKey) :
    ∃ c rest, t.writing = c :: rest ∧ kindOf? c = some t.kind := by
  cases hkind : t.kind with
  | word =>
    obtain ⟨c, rest, hcons⟩ := List.exists_cons_of_ne_nil (writing_ne_nil_of_word ht hkind)
    exact ⟨c, rest, hcons, if_pos (forall_mem_word ht hkind c (hcons ▸ List.mem_cons_self))⟩
  | spelled =>
    obtain ⟨text, _, hwriting⟩ := exists_spelling? hkind
    refine ⟨chooseQuote text, _, hwriting, ?_⟩
    rcases isQuote_chooseQuote text with hquote | hquote
    · rw [hquote]
      decide
    · rw [hquote]
      decide
  | tagged =>
    cases t with
    | tagged data encoding => exact ⟨_, _, rfl, by decide⟩
    | _ => cases hkind
  | tuple =>
    cases t with
    | tuple items => exact ⟨_, _, rfl, by decide⟩
    | _ => cases hkind

theorem kind_eq (ha : a.IsKey) (hb : b.IsKey) (h : a.writing ++ u = b.writing ++ v) :
    a.kind = b.kind := by
  obtain ⟨c, rest, hcons, hc⟩ := exists_head_writing ha
  obtain ⟨d, others, hcons', hd⟩ := exists_head_writing hb
  rw [hcons, hcons'] at h
  rw [(List.cons.inj h).1, hd] at hc
  exact (Option.some.inj hc).symm

/-- No key is written as the end of a tuple. -/
theorem writing_append_ne_bracket (ht : t.IsKey) (u v : Text) :
    t.writing ++ u ≠ CodePoint.ofChar ']' :: v := by
  obtain ⟨c, rest, hcons, hc⟩ := exists_head_writing ht
  intro h
  rw [hcons] at h
  rw [(List.cons.inj h).1] at hc
  cases hc

/-! ## Reading what is written -/

theorem isUpper_eq_false_of_isNumeric {c : CodePoint} (h : Layout.IsNumeric c) : c.isUpper = false := by
  rcases h with hdigit | rfl | rfl | rfl | rfl
  · simp only [CodePoint.isDigit, CodePoint.isUpper, Bool.and_eq_true, decide_eq_true_eq,
      Bool.and_eq_false_iff, decide_eq_false_iff_not] at hdigit ⊢
    omega
  all_goals decide

/-- Numbers, and what is none, are written without capital letters. -/
theorem isUpper_eq_false_of_mem_number (ht : (∃ i, t = .int i) ∨ ∃ bits, t = .float bits) {c : CodePoint}
    (hc : c ∈ t.writing) : c.isUpper = false := by
  rcases ht with ⟨i, rfl⟩ | ⟨bits, rfl⟩
  · exact isUpper_eq_false_of_isNumeric (Layout.isNumeric_of_mem_ofInt hc)
  · rcases Layout.mem_text hc with hnumeric | hnan | hinfinity
    · exact isUpper_eq_false_of_isNumeric hnumeric
    · have hall : (Text.ofString "nan").all (! ·.isUpper) = true := by decide
      simpa using List.all_eq_true.1 hall c hnan
    · have hall : (Text.ofString "inf").all (! ·.isUpper) = true := by decide
      simpa using List.all_eq_true.1 hall c hinfinity

theorem exists_isUpper (ht : t = .none ∨ ∃ b, t = .bool b) :
    ∃ c ∈ t.writing, c.isUpper = true := by
  rcases ht with rfl | ⟨b, rfl⟩
  · exact ⟨_, List.mem_cons_self, by decide⟩
  · cases b <;> exact ⟨_, List.mem_cons_self, by decide⟩

theorem writing_ne (ha : a = .none ∨ ∃ b, a = .bool b)
    (hb : (∃ i, b = .int i) ∨ ∃ bits, b = .float bits) : a.writing ≠ b.writing := by
  obtain ⟨c, hc, hupper⟩ := exists_isUpper ha
  intro h
  rw [isUpper_eq_false_of_mem_number hb (h ▸ hc)] at hupper
  cases hupper

theorem eq_of_writing_eq (ha : a = .none ∨ ∃ b, a = .bool b) (hb : b = .none ∨ ∃ c, b = .bool c)
    (h : a.writing = b.writing) : a = b := by
  rcases ha with rfl | ⟨_ | _, rfl⟩ <;> rcases hb with rfl | ⟨_ | _, rfl⟩
  all_goals first
    | rfl
    | exact absurd h (by decide)

theorem alike_of_numbers (ha : (∃ i, a = .int i) ∨ ∃ bits, a = .float bits)
    (hb : (∃ i, b = .int i) ∨ ∃ bits, b = .float bits) (h : a.writing = b.writing) : Alike a b := by
  rcases ha with ⟨i, rfl⟩ | ⟨bits, rfl⟩ <;> rcases hb with ⟨j, rfl⟩ | ⟨bits', rfl⟩
  · rw [Layout.ofInt_inj h]
    exact .same _
  · exact absurd h.symm (Layout.text_ne_ofInt isClear_floatLayout _ _)
  · exact absurd h (Layout.text_ne_ofInt isClear_floatLayout _ _)
  · rcases Layout.text_inj isClear_floatLayout h with rfl | ⟨hnan, hnan'⟩
    · exact .same _
    · exact .nan hnan hnan'

/-- Words and numbers that are written in the same way are the same, or no numbers. -/
theorem alike_of_writing_eq (ha : a.IsKey) (hb : b.IsKey) (hakind : a.kind = .word)
    (hbkind : b.kind = .word) (h : a.writing = b.writing) : Alike a b := by
  rcases cases_of_word ha hakind with hword | hnumber <;>
    rcases cases_of_word hb hbkind with hword' | hnumber'
  · rw [eq_of_writing_eq hword hword' h]
    exact .same _
  · exact absurd h (writing_ne hword hnumber')
  · exact absurd h.symm (writing_ne hword' hnumber)
  · exact alike_of_numbers hnumber hnumber' h

/-- What follows a key in a tuple or on its own. -/
def Stops (u : Text) : Prop := ∀ c ∈ u.head?, isWordPoint c = false

/-- What stands in a tuple behind its first item. -/
def closing : List Term → Text
  | [] => "]"
  | t :: rest => (", " : Text) ++ t.writing ++ closing rest

theorem join_append_closing (t : Term) (rest : List Term) :
    Text.join ", " (t.writing :: writingAll rest) ++ ("]" : Text) = t.writing ++ closing rest := by
  induction rest generalizing t with
  | nil => simp [Text.join, writingAll, closing]
  | cons next rest ih =>
    have hjoin : Text.join ", " (t.writing :: next.writing :: writingAll rest)
        = t.writing ++ (", " : Text) ++ Text.join ", " (next.writing :: writingAll rest) := by
      simp [Text.join]
    rw [writingAll, hjoin, List.append_assoc, ih, closing, List.append_assoc, List.append_assoc]

theorem writing_tuple_cons (t : Term) (rest : List Term) :
    (Term.tuple (t :: rest)).writing = ("[" : Text) ++ (t.writing ++ closing rest) := by
  rw [writing, writingAll, List.append_assoc, join_append_closing]

theorem stops_closing (items : List Term) (u : Text) : Stops (closing items ++ u) := by
  cases items with
  | nil =>
    rintro c ⟨⟩
    decide
  | cons t rest =>
    rintro c ⟨⟩
    decide

theorem alike_of_spelled (hakind : a.kind = .spelled) (hbkind : b.kind = .spelled)
    (h : a.writing ++ u = b.writing ++ v) : Alike a b ∧ u = v := by
  obtain ⟨s, hs, hwriting⟩ := exists_spelling? hakind
  obtain ⟨t, ht, hwriting'⟩ := exists_spelling? hbkind
  rw [hwriting, hwriting'] at h
  obtain ⟨rfl, huv⟩ := Text.quoted_append_inj h
  exact ⟨.spelled hs ht, huv⟩

theorem alike_of_words (ha : a.IsKey) (hb : b.IsKey) (hakind : a.kind = .word)
    (hbkind : b.kind = .word) (hu : Stops u) (hv : Stops v)
    (h : a.writing ++ u = b.writing ++ v) : Alike a b ∧ u = v := by
  obtain ⟨hword, huv⟩ := Text.append_inj_of_words h
    (forall_mem_word ha hakind) (forall_mem_word hb hbkind) hu hv
  exact ⟨alike_of_writing_eq ha hb hakind hbkind hword, huv⟩

theorem alike_of_tagged {data data' : Bytes} {encoding encoding' : Text}
    (h : (Term.tagged data encoding).writing ++ u = (Term.tagged data' encoding').writing ++ v) :
    Alike (.tagged data encoding) (.tagged data' encoding') ∧ u = v := by
  rw [writing, writing] at h
  simp only [List.append_assoc] at h
  obtain ⟨rfl, hdata⟩ := Text.quoted_append_inj (List.append_cancel_left h)
  obtain ⟨hhex, hrest⟩ := Text.quoted_append_inj (List.append_cancel_left hdata)
  obtain rfl := Text.hexOfBytes_inj hhex
  exact ⟨.same _, List.append_cancel_left hrest⟩

mutual

/-- What is written for a key is read again, whatever follows it. -/
theorem alike_of_writing : ∀ (a b : Term) (u v : Text), a.IsKey → b.IsKey → Stops u → Stops v →
    a.writing ++ u = b.writing ++ v → Alike a b ∧ u = v
  | .tuple items, b, u, v, ha, hb, hu, hv, h => by
    have hkind := kind_eq ha hb h
    cases b with
    | tuple others => exact alike_of_tuple items others u v ha hb h
    | _ => cases hkind
  | .tagged _ _, b, u, v, ha, hb, hu, hv, h => by
    have hkind := kind_eq ha hb h
    cases b with
    | tagged data encoding => exact alike_of_tagged h
    | _ => cases hkind
  | .bytes _, _, u, v, ha, hb, _, _, h | .text _, _, u, v, ha, hb, _, _, h
  | .atom _, _, u, v, ha, hb, _, _, h => alike_of_spelled rfl (kind_eq ha hb h).symm h
  | .none, _, u, v, ha, hb, hu, hv, h | .bool _, _, u, v, ha, hb, hu, hv, h
  | .int _, _, u, v, ha, hb, hu, hv, h | .float _, _, u, v, ha, hb, hu, hv, h =>
    alike_of_words ha hb rfl (kind_eq ha hb h).symm hu hv h
  | .list _, _, _, _, ha, _, _, _, _ | .map _, _, _, _, ha, _, _, _, _ =>
    absurd ha.1 (by simp [isHashable])
  | .funRef _ _, _, _, _, ha, _, _, _, _ | .foreign _, _, _, _, ha, _, _, _, _ => absurd ha.2 id

theorem alike_of_tuple : ∀ (items others : List Term) (u v : Text), (Term.tuple items).IsKey →
    (Term.tuple others).IsKey → (Term.tuple items).writing ++ u = (Term.tuple others).writing ++ v →
    Alike (.tuple items) (.tuple others) ∧ u = v
  | [], [], u, v, _, _, h => ⟨.same _, List.append_cancel_left h⟩
  | [], b :: others, u, v, _, hb, h => by
    rw [writing_tuple_cons, List.append_assoc, List.append_assoc] at h
    exact absurd (List.cons.inj h).2.symm (writing_append_ne_bracket hb.head _ u)
  | a :: items, [], u, v, ha, _, h => by
    rw [writing_tuple_cons, List.append_assoc, List.append_assoc] at h
    exact absurd (List.cons.inj h).2 (writing_append_ne_bracket ha.head _ v)
  | a :: items, b :: others, u, v, ha, hb, h => by
    rw [writing_tuple_cons, writing_tuple_cons, List.append_assoc, List.append_assoc,
      List.append_assoc, List.append_assoc] at h
    obtain ⟨hfirst, hrest⟩ := alike_of_writing a b _ _ ha.head hb.head (stops_closing items u)
      (stops_closing others v) (List.append_cancel_left h)
    obtain ⟨hothers, huv⟩ := areAlike_of_closing items others u v ha.tail hb.tail hrest
    exact ⟨.tuple (.cons hfirst hothers), huv⟩

theorem areAlike_of_closing : ∀ (items others : List Term) (u v : Text), (Term.tuple items).IsKey →
    (Term.tuple others).IsKey → closing items ++ u = closing others ++ v →
    AreAlike items others ∧ u = v
  | [], [], u, v, _, _, h => ⟨.nil, List.append_cancel_left h⟩
  | [], _ :: _, _, _, _, _, h => absurd (List.cons.inj h).1 (by decide)
  | _ :: _, [], _, _, _, _, h => absurd (List.cons.inj h).1 (by decide)
  | a :: items, b :: others, u, v, ha, hb, h => by
    rw [closing, closing, List.append_assoc, List.append_assoc, List.append_assoc,
      List.append_assoc] at h
    obtain ⟨hfirst, hrest⟩ := alike_of_writing a b _ _ ha.head hb.head (stops_closing items u)
      (stops_closing others v) (List.append_cancel_left h)
    obtain ⟨hothers, huv⟩ := areAlike_of_closing items others u v ha.tail hb.tail hrest
    exact ⟨.cons hfirst hothers, huv⟩

end

/-! ## Keys of one name -/

theorem writing_of_spelling? {text : Text} (h : t.spelling? = some text) :
    t.writing = text.quoted := by
  cases t with
  | bytes data => rw [writing, Option.some.inj h]
  | text t => rw [writing, Option.some.inj h]
  | atom t => rw [writing, Option.some.inj h]
  | _ => cases h

theorem writing_of_isNaN {bits : UInt64} (h : Binary64.isNaN bits = true) :
    (Term.float bits).writing = "nan" := by
  have hclass : Binary64.classify bits = .nan := of_decide_eq_true h
  rw [writing, Layout.text, hclass]
  rfl

mutual

theorem Alike.writing_eq : ∀ {a b : Term}, Alike a b → a.writing = b.writing
  | _, _, .same _ => rfl
  | _, _, .spelled hs ht => (writing_of_spelling? hs).trans (writing_of_spelling? ht).symm
  | _, _, .nan ha hb => (writing_of_isNaN ha).trans (writing_of_isNaN hb).symm
  | _, _, .tuple h => by rw [writing, writing, AreAlike.writingAll_eq h]

theorem AreAlike.writingAll_eq : ∀ {items others : List Term}, AreAlike items others →
    writingAll items = writingAll others
  | _, _, .nil => rfl
  | _, _, .cons h hrest => by rw [writingAll, writingAll, Alike.writing_eq h, hrest.writingAll_eq]

end

theorem Alike.name_eq (h : Alike a b) : a.name = b.name := by
  cases h with
  | same => rfl
  | spelled hs ht =>
    rw [name, name, hs, ht]
    rfl
  | nan ha hb => exact (Alike.nan ha hb).writing_eq
  | tuple h => exact (Alike.tuple h).writing_eq

theorem SpellsOut.name_eq (h : SpellsOut a b) : a.name = b.name := by
  rw [name, name, h.1, h.2]
  rfl

/-- Two keys get one name if they are alike or one spells the other out, and only then. -/
theorem name_eq_iff (ha : a.IsKey) (hb : b.IsKey) :
    a.name = b.name ↔ SameName a b := by
  constructor
  · intro h
    cases hspelling : a.spelling? with
    | some text =>
      cases hspelling' : b.spelling? with
      | some text' =>
        rw [name, name, hspelling, hspelling'] at h
        exact .inl (.spelled hspelling (hspelling'.trans (congrArg some h.symm)))
      | none =>
        rw [name, name, hspelling, hspelling'] at h
        exact .inr (.inl ⟨hspelling', hspelling.trans (congrArg some h)⟩)
    | none =>
      cases hspelling' : b.spelling? with
      | some text' =>
        rw [name, name, hspelling, hspelling'] at h
        exact .inr (.inr ⟨hspelling, hspelling'.trans (congrArg some h.symm)⟩)
      | none =>
        rw [name, name, hspelling, hspelling'] at h
        refine .inl (alike_of_writing a b [] [] ha hb nofun nofun ?_).1
        rw [List.append_nil, List.append_nil]
        exact h
  · rintro (halike | hout | hout)
    · exact halike.name_eq
    · exact hout.name_eq
    · exact hout.name_eq.symm

/-- A tuple has the name of a text in which it is written out. -/
example : (Term.tuple [.int 1, .text "a"]).name = (Term.text "[1, 'a']").name := by decide +kernel

/-! ## Names of members -/

/-- Tagged bytes are written as the map that they become. -/
theorem written_tagged (data : Bytes) (encoding : Text) :
    ("\x7b" : Text) ++ Text.join ", " [Text.quoted "encoding" ++ (": " : Text) ++ encoding.quoted,
      Text.quoted "hex" ++ (": " : Text) ++ (Text.hexOfBytes data).quoted] ++ ("\x7d" : Text)
      = (Term.tagged data encoding).writing := by
  have hencoding : Text.quoted "encoding" = "'encoding'" := by decide +kernel
  have hhex : Text.quoted "hex" = "'hex'" := by decide +kernel
  have hjoin : ∀ first second : Text, Text.join ", " [first, second]
      = first ++ ((", " : Text) ++ second) := by
    intro first second
    simp [Text.join]
  rw [hencoding, hhex, hjoin, writing]
  simp only [List.append_assoc]
  rfl

theorem eq_of_write {i : Int} {shown : Text} (h : Decimal.write i = .ok shown) :
    shown = Text.ofInt i := by
  unfold Decimal.write at h
  split at h
  · exact (Except.ok.inj h).symm
  · cases h

mutual

/-- What is displayed for a key that was made plain is what is written for it. -/
theorem eq_writing : ∀ (t : Term) {plain : Term} {shown : Text}, t.IsKey → t.simplify = .ok plain →
    plain.display = .ok shown → shown = t.writing
  | .tuple items, _, _, ht, hplain, hshown => by
    obtain ⟨parts, hparts, rfl⟩ := bind_pure_eq_ok_iff.1 hplain
    obtain ⟨texts, htexts, rfl⟩ := bind_pure_eq_ok_iff.1 hshown
    rw [eq_writingAll items ht hparts htexts, writing]
  | .tagged data encoding, _, _, _, hplain, hshown => by
    cases hplain
    cases hshown
    exact written_tagged data encoding
  | .int i, _, _, _, hplain, hshown => by
    cases hplain
    exact eq_of_write hshown
  | .bool b, _, _, _, hplain, hshown => by
    cases hplain
    cases b <;> cases hshown <;> rfl
  | .none, _, _, _, hplain, hshown | .float _, _, _, _, hplain, hshown
  | .bytes _, _, _, _, hplain, hshown | .text _, _, _, _, hplain, hshown
  | .atom _, _, _, _, hplain, hshown => by
    cases hplain
    cases hshown
    rfl
  | .list _, _, _, ht, _, _ | .map _, _, _, ht, _, _ => absurd ht.1 (by simp [isHashable])
  | .funRef _ _, _, _, ht, _, _ | .foreign _, _, _, ht, _, _ => absurd ht.2 id

theorem eq_writingAll : ∀ (items : List Term) {parts : List Term} {texts : List Text},
    (Term.tuple items).IsKey → simplifyAll items = .ok parts → displayAll parts = .ok texts →
    texts = writingAll items
  | [], _, _, _, hparts, htexts => by
    cases hparts
    cases htexts
    rfl
  | t :: rest, _, _, ht, hparts, htexts => by
    obtain ⟨part, hpart, hparts⟩ := bind_eq_ok_iff.1 hparts
    obtain ⟨others, hothers, rfl⟩ := bind_pure_eq_ok_iff.1 hparts
    obtain ⟨shown, hshown, htexts⟩ := bind_eq_ok_iff.1 htexts
    obtain ⟨texts, hrest, rfl⟩ := bind_pure_eq_ok_iff.1 htexts
    rw [eq_writing t ht.head hpart hshown, eq_writingAll rest ht.tail hothers hrest, writingAll]

end

/-- The member that an item becomes has the name of the item's key. -/
theorem eq_name {plain : Term} {shown : Text} (ht : t.IsKey) (hplain : t.simplify = .ok plain)
    (hshown : plain.plain = .ok shown) : shown = t.name := by
  cases t with
  | bytes _ | text _ | atom _ =>
    cases hplain
    cases hshown
    rfl
  | tuple items =>
    obtain ⟨parts, hparts, rfl⟩ := bind_pure_eq_ok_iff.1 hplain
    exact eq_writing _ ht hplain hshown
  | list items | map items => exact absurd ht.1 (by simp [isHashable])
  | funRef _ _ | foreign _ => exact absurd ht.2 id
  | none | bool _ | int _ | float _ | tagged _ _ =>
    cases hplain
    exact eq_writing _ ht rfl hshown

end ModuleDocs.Term
