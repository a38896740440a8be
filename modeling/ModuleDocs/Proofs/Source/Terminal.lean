import Mathlib
import ModuleDocs.Proofs.Languages
import ModuleDocs.Source.Token

/-!
# The terminals of a source

Each kind of token has a regular language of texts, and so have white space and comments.
At a place of a text, a terminal takes the longest text of its language that starts there
(`IsLongest`).  `Splits` is the cutting of a text into what terminals take one after the
other, up to its end.

* `lexeme?_of_isLongest` and `exists_of_lexeme?`: what is cut off at a character is what a
  terminal takes.  So no two terminals take something at one place (`isLongest_unique`).
* `Tokens.ofText_eq_iff`: a text is read up to its end as the tokens it splits into.
-/

namespace ModuleDocs.Source

open Computability

/-! ## Terminals -/

/-- The parts of a literal between its quotes: a backslash and a character that is no line
feed, or a plain character. -/
def literalPart (quote : CodePoint) (acrossLines : Bool) : Language CodePoint :=
  {[CodePoint.ofChar '\\']} * oneOf (fun c => c ≠ CodePoint.ofChar '\n')
    + oneOf fun c => c ≠ quote && c ≠ CodePoint.ofChar '\\'
        && (acrossLines || c ≠ CodePoint.ofChar '\n')

/-- A literal with its quotes. -/
def literal (quote : CodePoint) (acrossLines : Bool) : Language CodePoint :=
  {[quote]} * (literalPart quote acrossLines)∗ * {[quote]}

/-- The texts of the tokens of a kind. -/
def TokenKind.words : TokenKind → Language CodePoint
  | .name => oneOf CodePoint.isLower * (oneOf isNamePart)∗
  | .quotedAtom => literal '\'' false
  | .string => literal '"' true
  | .integer => oneOf CodePoint.isDigit * (oneOf CodePoint.isDigit)∗
  | .leftParen => {("(" : Text)}
  | .rightParen => {(")" : Text)}
  | .minus => {("-" : Text)}
  | .dot => {("." : Text)}
  | .slash => {("/" : Text)}
  | .comma => {("," : Text)}
  | .leftBracket => {("[" : Text)}
  | .rightBracket => {("]" : Text)}
  | .leftBrace => {("\x7b" : Text)}
  | .rightBrace => {("\x7d" : Text)}
  | .openBinary => {("<<" : Text)}
  | .closeBinary => {(">>" : Text)}
  | .openMap => {("#\x7b" : Text)}
  | .arrow => {("=>" : Text)}

/-- What a source is cut into: tokens, and what may stand between them. -/
inductive Terminal where
  | token (kind : TokenKind)
  | space
  | comment
deriving DecidableEq, Repr

namespace Terminal

/-- The texts of a terminal. -/
def words : Terminal → Language CodePoint
  | .token kind => kind.words
  | .space => oneOf isSpace * (oneOf isSpace)∗
  | .comment => oneOf (· = CodePoint.ofChar '%') * (oneOf fun c => c ≠ CodePoint.ofChar '\n')∗

/-- The kind of its tokens, unless white space and comments are meant. -/
def kind? : Terminal → Option TokenKind
  | .token kind => some kind
  | .space | .comment => none

end Terminal

/-- The token that a text of a kind is; what has no kind is left out. -/
def tokenOf (kind? : Option TokenKind) (lexeme : Text) (at_ : Position) : List Token :=
  kind?.toList.map fun kind => ⟨kind, lexeme, at_⟩

/-- A text at a place is cut into what terminals take, up to its end; the tokens among it
are listed. -/
inductive Splits : Position → Text → List Token → Prop
  | nil (at_ : Position) : Splits at_ [] []
  | cons {at_ : Position} {terminal : Terminal} {lexeme rest : Text} {tokens : List Token}
      (htaken : IsLongest terminal.words lexeme rest)
      (hrest : Splits (at_.after lexeme) rest tokens) :
      Splits at_ (lexeme ++ rest) (tokenOf terminal.kind? lexeme at_ ++ tokens)

/-! ## Literals -/

section Literals

variable {quote : CodePoint} {acrossLines : Bool} {length n : Nat} {body rest t : Text}

theorem mem_literalPart_iff {w : Text} : w ∈ literalPart quote acrossLines ↔
    (∃ c, c ≠ CodePoint.ofChar '\n' ∧ w = [CodePoint.ofChar '\\', c]) ∨
      ∃ c, c ≠ quote ∧ c ≠ CodePoint.ofChar '\\'
        ∧ (acrossLines = true ∨ c ≠ CodePoint.ofChar '\n') ∧ w = [c] := by
  rw [literalPart, Language.mem_add, mem_singleton_mul]
  simp [mem_oneOf, and_assoc]

theorem literalLength?_quote :
    literalLength? quote acrossLines length (quote :: rest) = some (length + 1) := by
  rw [literalLength?.eq_def]
  exact if_pos rfl

theorem literalLength?_escape {c : CodePoint} (hquote : quote ≠ CodePoint.ofChar '\\')
    (hc : c ≠ CodePoint.ofChar '\n') :
    literalLength? quote acrossLines length (CodePoint.ofChar '\\' :: c :: rest)
      = literalLength? quote acrossLines (length + 2) rest := by
  rw [literalLength?.eq_def]
  dsimp only
  rw [if_neg hquote.symm, if_pos rfl, if_neg hc]

theorem literalLength?_plain {c : CodePoint} (hc : c ≠ quote) (hslash : c ≠ CodePoint.ofChar '\\')
    (hline : acrossLines = true ∨ c ≠ CodePoint.ofChar '\n') :
    literalLength? quote acrossLines length (c :: rest)
      = literalLength? quote acrossLines (length + 1) rest := by
  rw [literalLength?.eq_def]
  dsimp only
  rw [if_neg hc, if_neg hslash, if_neg]
  rcases hline with h | h <;> simp [h]

/-- A literal is read up to the first quote behind its parts. -/
theorem literalLength?_append (hquote : quote ≠ CodePoint.ofChar '\\')
    (hbody : body ∈ (literalPart quote acrossLines)∗) :
    literalLength? quote acrossLines length (body ++ quote :: rest)
      = some (length + body.length + 1) := by
  obtain ⟨parts, rfl, hparts⟩ := Language.mem_kstar.1 hbody
  clear hbody
  induction parts generalizing length with
  | nil => exact literalLength?_quote
  | cons part parts ih =>
    have hrest : ∀ p ∈ parts, p ∈ literalPart quote acrossLines :=
      fun p hp => hparts p (List.mem_cons_of_mem _ hp)
    rw [List.flatten_cons, List.append_assoc, List.length_append, ← Nat.add_assoc]
    rcases mem_literalPart_iff.1 (hparts part List.mem_cons_self) with
      ⟨c, hc, rfl⟩ | ⟨c, hc, hslash, hline, rfl⟩
    · exact (literalLength?_escape hquote hc).trans (ih hrest)
    · exact (literalLength?_plain hc hslash hline).trans (ih hrest)

/-- What is read as a literal is parts up to a quote. -/
theorem exists_of_literalLength? (h : literalLength? quote acrossLines length t = some n) :
    ∃ body rest, t = body ++ quote :: rest ∧ body ∈ (literalPart quote acrossLines)∗
      ∧ n = length + body.length + 1 := by
  fun_induction literalLength? quote acrossLines length t with
  | case1 => cases h
  | case2 length rest =>
    cases h
    exact ⟨[], rest, rfl, Language.nil_mem_kstar _, rfl⟩
  | case3 => cases h
  | case4 => cases h
  | case5 length d rest hd hquote ih =>
    obtain ⟨body, rest, rfl, hbody, rfl⟩ := ih h
    refine ⟨CodePoint.ofChar '\\' :: d :: body, rest, rfl, ?_, ?_⟩
    · exact append_mem_kstar (mem_literalPart_iff.2 (Or.inl ⟨d, hd, rfl⟩)) hbody
    · simp only [List.length_cons]
      omega
  | case6 => cases h
  | case7 length c rest hquote hslash hline ih =>
    obtain ⟨body, rest, rfl, hbody, rfl⟩ := ih h
    refine ⟨c :: body, rest, rfl, ?_, ?_⟩
    · refine append_mem_kstar (w := [c])
        (mem_literalPart_iff.2 (Or.inr ⟨c, hquote, hslash, ?_, rfl⟩)) hbody
      cases acrossLines <;> simp_all
    · simp only [List.length_cons]
      omega

theorem mem_literal_iff {w : Text} : w ∈ literal quote acrossLines ↔
    ∃ body ∈ (literalPart quote acrossLines)∗, w = quote :: (body ++ [quote]) := by
  rw [literal, mul_assoc, mem_singleton_mul]
  constructor
  · intro h
    obtain ⟨_, hv, rfl⟩ := h
    obtain ⟨body, hbody, _, rfl, rfl⟩ := Language.mem_mul.1 hv
    exact ⟨body, hbody, rfl⟩
  · intro h
    obtain ⟨body, hbody, rfl⟩ := h
    exact ⟨_, Language.append_mem_mul hbody rfl, rfl⟩

/-- No literal goes on behind another one. -/
theorem isLongest_literal_iff (hquote : quote ≠ CodePoint.ofChar '\\') {w : Text} :
    IsLongest (literal quote acrossLines) w rest ↔ w ∈ literal quote acrossLines := by
  constructor
  · exact fun h => h.mem
  · intro h
    refine ⟨h, fun other hother hfront => ?_⟩
    obtain ⟨body, hbody, rfl⟩ := mem_literal_iff.1 h
    obtain ⟨otherBody, hotherBody, rfl⟩ := mem_literal_iff.1 hother
    obtain ⟨more, hmore⟩ := hfront
    have hends : otherBody ++ quote :: more = body ++ quote :: rest := by simpa using hmore
    have hlength : literalLength? quote acrossLines 0 (otherBody ++ quote :: more) = _ :=
      literalLength?_append hquote hotherBody
    rw [hends, literalLength?_append hquote hbody] at hlength
    have hsame := Option.some.inj hlength
    simp only [List.length_cons, List.length_append, List.length_nil]
    omega

end Literals

/-! ## What is cut off -/

section Lexemes

variable {c : CodePoint} {w rest t : Text} {n : Nat}

theorem lexeme?_of_isSpace (h : isSpace c = true) :
    lexeme? c rest = some (none, (rest.takeWhile isSpace).length) :=
  if_pos h

/-- White space comes before all visible characters. -/
theorem val_le_of_isSpace (h : isSpace c = true) : c.val ≤ 0x20 := by
  simp only [isSpace, Bool.or_eq_true, decide_eq_true_eq] at h
  rcases h with (((rfl | rfl) | rfl) | rfl) | h
  · decide
  · decide
  · decide
  · decide
  · omega

theorem lexeme?_of_isLower (h : c.isLower = true) :
    lexeme? c rest = some (some .name, (rest.takeWhile isNamePart).length) := by
  have hspace : ¬ isSpace c = true := by
    intro hspace
    have hval := val_le_of_isSpace hspace
    simp only [CodePoint.isLower, Bool.and_eq_true, decide_eq_true_eq] at h
    omega
  have hcomment : c ≠ CodePoint.ofChar '%' := fun hc => absurd h (by rw [hc]; decide)
  rw [lexeme?.eq_def, if_neg hspace, if_neg hcomment, if_pos h]

theorem lexeme?_of_isDigit (h : c.isDigit = true) :
    lexeme? c rest = some (some .integer, (rest.takeWhile (·.isDigit)).length) := by
  have hcomment : c ≠ CodePoint.ofChar '%' := fun hc => absurd h (by rw [hc]; decide)
  simp only [CodePoint.isDigit, Bool.and_eq_true, decide_eq_true_eq] at h
  have hspace : ¬ isSpace c = true := fun hspace => by
    have hval := val_le_of_isSpace hspace
    omega
  have hlower : ¬ c.isLower = true := by
    simp only [CodePoint.isLower, Bool.and_eq_true, decide_eq_true_eq]
    omega
  have hdigit : c.isDigit = true := by simpa [CodePoint.isDigit] using h
  rw [lexeme?.eq_def, if_neg hspace, if_neg hcomment, if_neg hlower, if_pos hdigit]

/-- A word of a terminal is not empty. -/
theorem exists_cons_of_mem_words {terminal : Terminal} (h : w ∈ terminal.words) :
    ∃ c v, w = c :: v := by
  match terminal with
  | .space | .comment | .token .name | .token .integer =>
    obtain ⟨c, v, _, _, rfl⟩ := mem_oneOf_mul.1 h
    exact ⟨c, v, rfl⟩
  | .token .quotedAtom | .token .string =>
    obtain ⟨body, _, rfl⟩ := mem_literal_iff.1 h
    exact ⟨_, _, rfl⟩
  | .token .leftParen | .token .rightParen | .token .minus | .token .dot | .token .slash
  | .token .comma | .token .leftBracket | .token .rightBracket | .token .leftBrace
  | .token .rightBrace | .token .openBinary | .token .closeBinary | .token .openMap
  | .token .arrow =>
    exact ⟨_, _, h⟩

private theorem length_takeWhile_of_isLongest {p q : CodePoint → Bool}
    (h : IsLongest (oneOf p * (oneOf q)∗) (c :: w) rest) :
    ((w ++ rest).takeWhile q).length = w.length :=
  congrArg List.length (isLongest_run_iff.1 h).2

private theorem lexeme?_literal {quote : CodePoint} {acrossLines : Bool} {kind : TokenKind}
    (hquote : quote ≠ CodePoint.ofChar '\\')
    (hlexeme : ∀ t, lexeme? quote t
      = (literalLength? quote acrossLines 0 t).map fun n => (some kind, n))
    (h : c :: w ∈ literal quote acrossLines) :
    lexeme? c (w ++ rest) = some (some kind, w.length) := by
  obtain ⟨body, hbody, heq⟩ := mem_literal_iff.1 h
  cases heq
  rw [hlexeme, List.append_assoc, List.cons_append, List.nil_append,
    literalLength?_append hquote hbody]
  simp

/-- What a terminal takes is what is cut off. -/
theorem lexeme?_of_isLongest {terminal : Terminal}
    (h : IsLongest terminal.words (c :: w) rest) :
    lexeme? c (w ++ rest) = some (terminal.kind?, w.length) := by
  match terminal with
  | .space =>
    rw [lexeme?_of_isSpace (isLongest_run_iff.1 h).1, length_takeWhile_of_isLongest h]
    rfl
  | .comment =>
    obtain rfl : c = CodePoint.ofChar '%' := of_decide_eq_true (isLongest_run_iff.1 h).1
    rw [← length_takeWhile_of_isLongest h]
    rfl
  | .token .name =>
    rw [lexeme?_of_isLower (isLongest_run_iff.1 h).1, length_takeWhile_of_isLongest h]
    rfl
  | .token .integer =>
    rw [lexeme?_of_isDigit (isLongest_run_iff.1 h).1, length_takeWhile_of_isLongest h]
    rfl
  | .token .quotedAtom => exact lexeme?_literal (by decide) (fun _ => rfl) h.mem
  | .token .string => exact lexeme?_literal (by decide) (fun _ => rfl) h.mem
  | .token .leftParen | .token .rightParen | .token .minus | .token .dot | .token .slash
  | .token .comma | .token .leftBracket | .token .rightBracket | .token .leftBrace
  | .token .rightBrace | .token .openBinary | .token .closeBinary | .token .openMap
  | .token .arrow =>
    cases isLongest_singleton_iff.1 h
    rfl

private theorem words_of_ite {p : Prop} [Decidable p] {first kind : TokenKind}
    {other : Option TokenKind} {L : Language CodePoint} (hfirst : p → first.words = L)
    (hother : other = some kind → kind.words = L) :
    (if p then some first else other) = some kind → kind.words = L := by
  intro h
  split at h
  · cases h
    exact hfirst ‹p›
  · exact hother h

theorem words_of_single? {kind : TokenKind} : single? c = some kind → kind.words = {[c]} := by
  unfold single?
  iterate 8 refine words_of_ite (fun hc => by rw [hc]; rfl) ?_
  refine words_of_ite (fun hc => ?_) (words_of_ite (fun hc => ?_) nofun)
  · rw [Fin.ext (a := c) (b := CodePoint.ofChar '\x7b') hc]
    rfl
  · rw [Fin.ext (a := c) (b := CodePoint.ofChar '\x7d') hc]
    rfl

theorem words_of_double? {d : CodePoint} {kind : TokenKind} :
    double? c d = some kind → kind.words = {[c, d]} := by
  unfold double?
  refine words_of_ite (fun h => by rw [h.1, h.2]; rfl) ?_
  refine words_of_ite (fun h => by rw [h.1, h.2]; rfl) ?_
  refine words_of_ite (fun h => ?_) (words_of_ite (fun h => by rw [h.1, h.2]; rfl) nofun)
  rw [h.1, Fin.ext (a := d) (b := CodePoint.ofChar '\x7b') h.2]
  rfl

private theorem exists_isLongest_run {p q : CodePoint → Bool} {terminal : Terminal}
    (hc : p c = true) (hwords : terminal.words = oneOf p * (oneOf q)∗) :
    ∃ w rest, t = w ++ rest ∧ (t.takeWhile q).length = w.length
      ∧ IsLongest terminal.words (c :: w) rest := by
  refine ⟨t.takeWhile q, t.dropWhile q, List.takeWhile_append_dropWhile.symm, rfl, ?_⟩
  rw [hwords, isLongest_run_iff, List.takeWhile_append_dropWhile]
  exact ⟨hc, rfl⟩

private theorem exists_isLongest_literal {acrossLines : Bool} {kind : TokenKind}
    (hquote : c ≠ CodePoint.ofChar '\\') (hwords : kind.words = literal c acrossLines)
    (h : literalLength? c acrossLines 0 t = some n) :
    ∃ w rest, t = w ++ rest ∧ n = w.length
      ∧ IsLongest (Terminal.token kind).words (c :: w) rest := by
  obtain ⟨body, rest, rfl, hbody, rfl⟩ := exists_of_literalLength? h
  refine ⟨body ++ [c], rest, by simp, by simp, ?_⟩
  rw [Terminal.words, hwords, isLongest_literal_iff hquote]
  exact mem_literal_iff.2 ⟨body, hbody, rfl⟩

/-- What is cut off is what a terminal takes. -/
theorem exists_of_lexeme? {kind? : Option TokenKind} (h : lexeme? c t = some (kind?, n)) :
    ∃ terminal : Terminal, terminal.kind? = kind? ∧ ∃ w rest, t = w ++ rest ∧ n = w.length
      ∧ IsLongest terminal.words (c :: w) rest := by
  unfold lexeme? at h
  split at h
  · rename_i hspace
    cases h
    exact ⟨.space, rfl, exists_isLongest_run hspace rfl⟩
  split at h
  · rename_i hcomment
    cases h
    exact ⟨.comment, rfl, exists_isLongest_run (decide_eq_true hcomment) rfl⟩
  split at h
  · rename_i hlower
    cases h
    exact ⟨.token .name, rfl, exists_isLongest_run hlower rfl⟩
  split at h
  · rename_i hdigit
    cases h
    exact ⟨.token .integer, rfl, exists_isLongest_run hdigit rfl⟩
  split at h
  · subst c
    obtain ⟨_, hlength, heq⟩ := Option.map_eq_some_iff.1 h
    cases heq
    exact ⟨.token .quotedAtom, rfl, exists_isLongest_literal (by decide) rfl hlength⟩
  split at h
  · subst c
    obtain ⟨_, hlength, heq⟩ := Option.map_eq_some_iff.1 h
    cases heq
    exact ⟨.token .string, rfl, exists_isLongest_literal (by decide) rfl hlength⟩
  split at h
  · rename_i kind hsingle
    cases h
    refine ⟨.token kind, rfl, [], t, rfl, rfl, ?_⟩
    rw [Terminal.words, words_of_single? hsingle, isLongest_singleton_iff]
  split at h
  · rename_i d rest
    obtain ⟨kind, hdouble, heq⟩ := Option.map_eq_some_iff.1 h
    cases heq
    refine ⟨.token kind, rfl, [d], rest, rfl, rfl, ?_⟩
    rw [Terminal.words, words_of_double? hdouble, isLongest_singleton_iff]
  · cases h

/-- At one place, one terminal takes one text at most. -/
theorem isLongest_unique {first second : Terminal} {v rest' : Text}
    (h : IsLongest first.words w rest) (h' : IsLongest second.words v rest')
    (heq : w ++ rest = v ++ rest') : first = second ∧ w = v := by
  obtain ⟨c, w, rfl⟩ := exists_cons_of_mem_words h.mem
  obtain ⟨d, v, rfl⟩ := exists_cons_of_mem_words h'.mem
  obtain ⟨rfl, hrest⟩ : c = d ∧ w ++ rest = v ++ rest' := List.cons_eq_cons.1 heq
  have hlexeme := lexeme?_of_isLongest h'
  rw [← hrest, lexeme?_of_isLongest h] at hlexeme
  obtain ⟨hkind, hlength⟩ := Prod.mk.inj (Option.some.inj hlexeme)
  refine ⟨?_, congrArg (c :: ·) (List.append_inj_left hrest hlength)⟩
  have hpercent : ¬ isSpace (CodePoint.ofChar '%') = true := by decide
  match first, second with
  | .token _, .token _ => exact congrArg Terminal.token (Option.some.inj hkind)
  | .space, .space | .comment, .comment => rfl
  | .space, .comment =>
    obtain rfl : c = CodePoint.ofChar '%' := of_decide_eq_true (isLongest_run_iff.1 h').1
    exact absurd (isLongest_run_iff.1 h).1 hpercent
  | .comment, .space =>
    obtain rfl : c = CodePoint.ofChar '%' := of_decide_eq_true (isLongest_run_iff.1 h).1
    exact absurd (isLongest_run_iff.1 h').1 hpercent
  | .token _, .space | .token _, .comment => cases hkind
  | .space, .token _ | .comment, .token _ => cases hkind

end Lexemes

/-! ## Whole texts -/

namespace Tokens

variable {at_ : Position} {t : Text} {tokens done : List Token}

theorem ofTextFrom_append {terminal : Terminal} {w rest : Text}
    (h : IsLongest terminal.words w rest) :
    ofTextFrom done at_ (w ++ rest)
      = ofTextFrom ((tokenOf terminal.kind? w at_).reverse ++ done) (at_.after w) rest := by
  obtain ⟨c, v, rfl⟩ := exists_cons_of_mem_words h.mem
  rw [List.cons_append, ofTextFrom.eq_def]
  simp only [lexeme?_of_isLongest h, List.take_left, List.drop_left]
  cases terminal.kind? <;> rfl

theorem ofTextFrom_of_splits (h : Splits at_ t tokens) :
    ofTextFrom done at_ t = ⟨done.reverse ++ tokens, none⟩ := by
  induction h generalizing done with
  | nil at_ => rw [ofTextFrom, List.append_nil]
  | cons htaken hrest ih =>
    rw [ofTextFrom_append htaken, ih, List.reverse_append, List.reverse_reverse, List.append_assoc]

theorem splits_of_ofTextFrom {all : List Token} (h : ofTextFrom done at_ t = ⟨all, none⟩) :
    ∃ tokens, all = done.reverse ++ tokens ∧ Splits at_ t tokens := by
  fun_induction ofTextFrom done at_ t with
  | case1 done at_ =>
    cases h
    exact ⟨[], (List.append_nil _).symm, .nil at_⟩
  | case2 => cases h
  | case3 done at_ c rest kind? n hlexeme text more ih =>
    obtain ⟨terminal, rfl, w, rest, rfl, rfl, htaken⟩ := exists_of_lexeme? hlexeme
    obtain ⟨tokens, rfl, hrest⟩ := ih h
    have htext : text = c :: w := by simp [text]
    rw [htext, List.drop_left] at hrest
    refine ⟨_, ?_, .cons htaken hrest⟩
    simp only [more, htext]
    cases terminal.kind? <;> simp [tokenOf]

/-- A text is read up to its end as the tokens it splits into. -/
theorem ofText_eq_iff : ofText t = ⟨tokens, none⟩ ↔ Splits .first t tokens := by
  constructor
  · intro h
    obtain ⟨tokens, rfl, hsplits⟩ := splits_of_ofTextFrom h
    exact hsplits
  · exact fun h => ofTextFrom_of_splits h

end Tokens

/-- A text splits in one way. -/
theorem Splits.unique {t : Text} {first second : List Token} (h : Splits .first t first)
    (h' : Splits .first t second) : first = second := by
  rw [← Tokens.ofText_eq_iff] at h h'
  cases h.symm.trans h'
  rfl

end ModuleDocs.Source
