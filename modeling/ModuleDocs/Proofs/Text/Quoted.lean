import Mathlib
import ModuleDocs.Proofs.Number.Numeral
import ModuleDocs.Text.Quoted

/-!
# Quoted texts are told apart

What stands between quotes can be read back one code point at a time (`unquotePoint?_append`), since
an escape says with its first letter how long it is.  The closing quote is escaped wherever it is
not the end, so that a quoted text also ends where it does whatever follows it
(`Text.quoted_append_inj`).
-/

namespace ModuleDocs

/-! ## Hexadecimal digits of fixed width -/

namespace Text

variable {a b width n : Nat} {s t u v : Text}

/-- The number that hexadecimal digits write. -/
def hexadecimal (t : Text) : Nat := ofDigits 16 (t.map fun c => c.hexValue?.getD 0)

theorem hexadecimal_zeros_append (k : Nat) (t : Text) :
    hexadecimal ((List.replicate k '0' : Text) ++ t) = hexadecimal t := by
  induction k with
  | zero => rfl
  | succ k ih =>
    rw [List.replicate_succ, List.cons_append, ← ih, hexadecimal, hexadecimal, List.map_cons,
      ofDigits_eq_foldl, ofDigits_eq_foldl]
    rfl

theorem hexadecimal_hexPadded (width n : Nat) : hexadecimal (hexPadded width n) = n := by
  rw [hexPadded, hexadecimal_zeros_append]
  exact ofDigits_hexOfNat n

theorem length_hexPadded (hwidth : 0 < width) (h : n < 16 ^ width) :
    (hexPadded width n).length = width := by
  have hle : (hexOfNat n).length ≤ width := by
    rw [hexOfNat, List.length_map]
    exact Nat.toDigits_length 16 n width hwidth h
  rw [hexPadded, List.length_append, List.length_replicate]
  omega

theorem length_hexPadded_byte (b : UInt8) : (hexPadded 2 b.toNat).length = 2 :=
  length_hexPadded (by decide) b.toNat_lt

theorem hexOfBytes_cons (b : UInt8) (data : Bytes) :
    hexOfBytes (b :: data) = hexPadded 2 b.toNat ++ hexOfBytes data := rfl

theorem hexOfBytes_cons_ne_nil (b : UInt8) (data : Bytes) : hexOfBytes (b :: data) ≠ [] := by
  have hlength := length_hexPadded_byte b
  rw [hexOfBytes_cons]
  exact List.append_ne_nil_of_left_ne_nil (List.ne_nil_of_length_pos (by omega)) _

/-- Bytes are told apart by their digits. -/
theorem hexOfBytes_inj {data data' : Bytes} (h : hexOfBytes data = hexOfBytes data') :
    data = data' := by
  induction data generalizing data' with
  | nil =>
    cases data' with
    | nil => rfl
    | cons b rest => exact absurd h.symm (hexOfBytes_cons_ne_nil b rest)
  | cons a rest ih =>
    cases data' with
    | nil => exact absurd h (hexOfBytes_cons_ne_nil a rest)
    | cons b rest' =>
      rw [hexOfBytes_cons, hexOfBytes_cons] at h
      obtain ⟨hfirst, hrest⟩ :=
        List.append_inj h ((length_hexPadded_byte a).trans (length_hexPadded_byte b).symm)
      have hvalue := congrArg hexadecimal hfirst
      rw [hexadecimal_hexPadded, hexadecimal_hexPadded, UInt8.toNat_inj] at hvalue
      rw [hvalue, ih hrest]

end Text

/-! ## Escapes -/

section Escapes

variable {quote c d : CodePoint} {rest : Text}

/-- The code point whose hexadecimal digits a text begins with, and what follows them. -/
def hexPoint (width : Nat) (t : Text) : CodePoint × Text :=
  (.ofNat (Text.hexadecimal (t.take width)), t.drop width)

/-- The code point that is escaped, and what follows the escape. -/
def unescapePoint? : Text → Option (CodePoint × Text)
  | [] => none
  | c :: rest =>
    if c = 'n' then some ('\n', rest)
    else if c = 'r' then some ('\r', rest)
    else if c = 't' then some ('\t', rest)
    else if c = 'x' then some (hexPoint 2 rest)
    else if c = 'u' then some (hexPoint 4 rest)
    else if c = 'U' then some (hexPoint 8 rest)
    else some (c, rest)

/-- The code point that a text between quotes begins with, and what follows it. -/
def unquotePoint? : Text → Option (CodePoint × Text)
  | [] => none
  | c :: rest => if c = '\\' then unescapePoint? rest else some (c, rest)

/-- The quotes that are used. -/
def IsQuote (quote : CodePoint) : Prop := quote = '\'' ∨ quote = '"'

theorem isQuote_chooseQuote (t : Text) : IsQuote (chooseQuote t) := by
  unfold chooseQuote
  split
  · exact .inr rfl
  · exact .inl rfl

theorem hexPoint_append {width : Nat} (hwidth : 0 < width) (h : c.val < 16 ^ width) (rest : Text) :
    hexPoint width (Text.hexPadded width c.val ++ rest) = (c, rest) := by
  have hlength := Text.length_hexPadded hwidth h
  rw [hexPoint, List.take_left' hlength, List.drop_left' hlength, Text.hexadecimal_hexPadded]
  have hc : CodePoint.ofNat c.val = c := Fin.ext (by
    dsimp only [CodePoint.ofNat]
    omega)
  rw [hc]

/-- A code point between quotes is read back. -/
theorem unquotePoint?_append (hquote : IsQuote quote) (c : CodePoint) (rest : Text) :
    unquotePoint? (quotePoint quote c ++ rest) = some (c, rest) := by
  unfold quotePoint
  split
  · rename_i hself
    have hself : c = '\'' ∨ c = '"' ∨ c = '\\' := by
      rw [Bool.or_eq_true, decide_eq_true_eq, decide_eq_true_eq] at hself
      rcases hself with rfl | rfl
      · exact hquote.imp_right .inl
      · exact .inr (.inr rfl)
    rcases hself with rfl | rfl | rfl <;> rfl
  · rename_i hself
    have hslash : c ≠ '\\' := by
      rintro rfl
      simp at hself
    split
    · rename_i escape hescape
      unfold shortEscape? at hescape
      split_ifs at hescape with hn hr ht <;> cases hescape
      · rw [hn]
        rfl
      · rw [hr]
        rfl
      · rw [ht]
        rfl
    · split_ifs with hprintable hbyte hshort
      · rw [List.singleton_append, unquotePoint?, if_neg hslash]
      · exact congrArg some (hexPoint_append (by decide) hbyte rest)
      · exact congrArg some (hexPoint_append (by decide) hshort rest)
      · exact congrArg some (hexPoint_append (by decide) (by omega) rest)

theorem head?_quotePoint (hquote : IsQuote quote) (c : CodePoint) :
    ∃ d rest, quotePoint quote c = d :: rest ∧ d ≠ quote := by
  have hslash : CodePoint.ofChar '\\' ≠ quote := by
    rcases hquote with rfl | rfl <;> decide
  unfold quotePoint
  split
  · exact ⟨_, _, rfl, hslash⟩
  · rename_i hself
    split
    · rename_i escape hescape
      unfold shortEscape? at hescape
      split_ifs at hescape <;> cases hescape <;> exact ⟨_, _, rfl, hslash⟩
    · split_ifs
      · refine ⟨_, _, rfl, ?_⟩
        rintro rfl
        simp at hself
      all_goals exact ⟨_, _, rfl, hslash⟩

end Escapes

/-! ## Texts between quotes -/

namespace Text

variable {quote : CodePoint} {s t u v : Text}

/-- A quote that is not escaped ends the text. -/
theorem flatMap_quotePoint_inj (hquote : IsQuote quote) (s t : Text)
    (h : s.flatMap (quotePoint quote) ++ quote :: u = t.flatMap (quotePoint quote) ++ quote :: v) :
    s = t ∧ u = v := by
  induction s generalizing t with
  | nil =>
    cases t with
    | nil => exact ⟨rfl, (List.cons.inj h).2⟩
    | cons d t =>
      obtain ⟨first, others, hfirst, hne⟩ := head?_quotePoint hquote d
      rw [List.flatMap_cons, hfirst] at h
      exact absurd (List.cons.inj h).1.symm hne
  | cons c s ih =>
    cases t with
    | nil =>
      obtain ⟨first, others, hfirst, hne⟩ := head?_quotePoint hquote c
      rw [List.flatMap_cons, hfirst] at h
      exact absurd (List.cons.inj h).1 hne
    | cons d t =>
      have hpoint := congrArg unquotePoint? h
      rw [List.flatMap_cons, List.flatMap_cons, List.append_assoc, List.append_assoc,
        unquotePoint?_append hquote, unquotePoint?_append hquote] at hpoint
      obtain ⟨rfl, hrest⟩ := Prod.mk.inj (Option.some.inj hpoint)
      obtain ⟨rfl, huv⟩ := ih t hrest
      exact ⟨rfl, huv⟩

/-- Quoted texts are told apart whatever follows them. -/
theorem quoted_append_inj (h : s.quoted ++ u = t.quoted ++ v) : s = t ∧ u = v := by
  unfold quoted at h
  dsimp only at h
  rw [List.cons_append, List.cons_append, List.append_assoc, List.append_assoc] at h
  obtain ⟨hquote, h⟩ := List.cons.inj h
  rw [← hquote] at h
  exact flatMap_quotePoint_inj (isQuote_chooseQuote s) s t h

end Text

end ModuleDocs
