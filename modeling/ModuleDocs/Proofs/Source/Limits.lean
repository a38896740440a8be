import Mathlib
import ModuleDocs.Proofs.Collector.Errors
import ModuleDocs.Proofs.Source.Value

/-!
# Numbers in a source

A token of digits holds digits only, and a name letters of ASCII, digits and few signs, and
the line of a token is one of the lines of the text (`isWithin_of_ofText`).  A number of so
few digits that it is read is short, so the terms of a source are all short
(`isLiteral_isShort`).
-/

namespace ModuleDocs.Source

variable {c : CodePoint} {rest t : Text} {kind : TokenKind} {n : Nat}

/-! ## Tokens -/

/-- The characters that a kind of token is made of, where it says so of each of them. -/
def TokenKind.allows : TokenKind → CodePoint → Bool
  | .integer => fun c => c.isDigit
  | .name => isNamePart
  | _ => fun _ => true

/-- The token is made of characters of its kind. -/
def Token.IsPure (token : Token) : Prop := ∀ c ∈ token.text, token.kind.allows c = true

private theorem take_length_takeWhile (p : CodePoint → Bool) (t : Text) :
    t.take (t.takeWhile p).length = t.takeWhile p :=
  (List.prefix_iff_eq_take.1 (List.takeWhile_prefix p)).symm

private theorem allows_of_ite {p : Prop} [Decidable p] {first kind : TokenKind}
    {other : Option TokenKind} {d : CodePoint} (hfirst : first.allows d = true)
    (hother : other = some kind → kind.allows d = true) :
    (if p then some first else other) = some kind → kind.allows d = true := by
  intro h
  split at h
  · cases h
    exact hfirst
  · exact hother h

theorem allows_of_single? (d : CodePoint) : single? c = some kind → kind.allows d = true := by
  unfold single?
  iterate 10 refine allows_of_ite rfl ?_
  exact nofun

theorem allows_of_double? {d : CodePoint} (e : CodePoint) :
    double? c d = some kind → kind.allows e = true := by
  unfold double?
  iterate 4 refine allows_of_ite rfl ?_
  exact nofun

/-- What is cut off as a token is made of characters of its kind. -/
theorem allows_of_lexeme? (h : lexeme? c rest = some (some kind, n)) :
    ∀ d ∈ c :: rest.take n, kind.allows d = true := by
  have hrun : ∀ p : CodePoint → Bool, p c = true →
      ∀ d ∈ c :: rest.take (rest.takeWhile p).length, p d = true := by
    intro p hc
    rw [take_length_takeWhile]
    exact List.forall_mem_cons.2 ⟨hc, fun d hd => List.mem_takeWhile_imp hd⟩
  unfold lexeme? at h
  split at h
  · cases h
  split at h
  · cases h
  split at h
  · rename_i hlower
    cases h
    exact hrun isNamePart (by simp [isNamePart, hlower])
  split at h
  · rename_i hdigit
    cases h
    exact hrun (·.isDigit) hdigit
  split at h
  · obtain ⟨_, _, h⟩ := Option.map_eq_some_iff.1 h
    cases h
    exact fun _ _ => rfl
  split at h
  · obtain ⟨_, _, h⟩ := Option.map_eq_some_iff.1 h
    cases h
    exact fun _ _ => rfl
  split at h
  · rename_i hsingle
    cases h
    exact fun d _ => allows_of_single? d hsingle
  split at h
  · obtain ⟨_, hdouble, h⟩ := Option.map_eq_some_iff.1 h
    cases h
    exact fun d _ => allows_of_double? d hdouble
  · cases h

/-- Each line feed moves a position to the next line. -/
theorem line_after (at_ : Position) (t : Text) :
    (at_.after t).line = at_.line + t.count (CodePoint.ofChar '\n') := by
  induction t generalizing at_ with
  | nil => rfl
  | cons c t ih =>
    rw [Position.after, List.foldl_cons, ← Position.after, ih, Position.next]
    split
    · rename_i hc
      rw [hc, List.count_cons_self]
      dsimp only
      omega
    · rename_i hc
      rw [List.count_cons_of_ne hc]

/-- A token as a text of so many line feeds has it. -/
structure Token.IsWithin (lines : Nat) (token : Token) : Prop where
  isPure : token.IsPure
  line : token.position.line ≤ lines

theorem isWithin_of_ofTextFrom {lines : Nat} {done : List Token} {at_ : Position}
    (hdone : ∀ token ∈ done, token.IsWithin lines)
    (hlines : at_.line + t.count (CodePoint.ofChar '\n') ≤ lines) :
    ∀ token ∈ (Tokens.ofTextFrom done at_ t).tokens, token.IsWithin lines := by
  fun_induction Tokens.ofTextFrom done at_ t with
  | case1 done at_ => exact fun token htoken => hdone token (List.mem_reverse.1 htoken)
  | case2 done at_ c rest hlexeme =>
    exact fun token htoken => hdone token (List.mem_reverse.1 htoken)
  | case3 done at_ c rest kind? n hlexeme text more ih =>
    refine ih ?_ ?_
    · cases kind? with
      | none => exact hdone
      | some kind =>
        refine List.forall_mem_cons.2 ⟨⟨allows_of_lexeme? hlexeme, ?_⟩, hdone⟩
        exact (Nat.le_add_right _ _).trans hlines
    · have hsplit : c :: rest = text ++ rest.drop n := by simp [text]
      rw [hsplit, List.count_append] at hlines
      rw [line_after]
      omega

/-- The tokens of a text are made of characters of their kinds, and are on its lines. -/
theorem isWithin_of_ofText (t : Text) : ∀ token ∈ (Tokens.ofText t).tokens,
    token.IsWithin (t.count (CodePoint.ofChar '\n') + 1) :=
  isWithin_of_ofTextFrom (by simp) (Nat.add_comm _ _).le

/-! ## Limits -/

/-- A text of less than 2 ^ 32 lines which, if it is a sequence of forms, has no number of
more digits than can be read. -/
structure IsLimitedText (t : Text) : Prop where
  lines : t.count (CodePoint.ofChar '\n') + 1 < 2 ^ 32
  digits : ∀ nodes, Forms.ofText t = .ok nodes → ∀ token ∈ (Tokens.ofText t).tokens,
    token.kind = .integer → token.text.length ≤ Decimal.maxDigits

/-- A token as such a sequence of forms has it. -/
structure Token.IsLimited (token : Token) : Prop where
  isPure : token.IsPure
  line : token.position.line ≤ 0xFFFFFFFF
  digits : token.HasFewDigits

theorem IsLimitedText.tokens (h : IsLimitedText t) {nodes : List FormNode}
    (hnodes : Forms.ofText t = .ok nodes) : ∀ token ∈ (Tokens.ofText t).tokens,
    token.IsLimited := by
  intro token htoken
  obtain ⟨hpure, hline⟩ := isWithin_of_ofText t token htoken
  have hlines := h.lines
  exact ⟨hpure, by omega, h.digits nodes hnodes token htoken⟩

/-- So many digits write a number below the power of ten. -/
theorem ofDigits_lt {digits : Text} (h : ∀ c ∈ digits, c.isDigit = true) :
    ofDigits 10 (digits.map fun c => c.val - 0x30) < 10 ^ digits.length := by
  induction digits using List.reverseRecOn with
  | nil => simp
  | append_singleton front last ih =>
    have hlast : last.val - 0x30 < 10 := by
      have hdigit := h last (by simp)
      simp only [CodePoint.isDigit, Bool.and_eq_true, decide_eq_true_eq] at hdigit
      omega
    have hfront := ih fun c hc => h c (List.mem_append_left _ hc)
    rw [List.map_append, List.map_singleton, ofDigits_concat, List.length_append,
      List.length_singleton, pow_succ]
    omega

/-- A number that is read is short. -/
theorem Token.number_lt {token : Token} (htoken : token.Sound Token.IsPure .integer)
    (h : token.number = .ok n) : n < Nat.pow 10 Decimal.maxDigits := by
  obtain ⟨hfew, rfl⟩ := number_eq_ok_iff.1 h
  have hdigits : ∀ c ∈ token.text, c.isDigit = true := by
    intro c hc
    have hallows := htoken.1 c hc
    rwa [htoken.2] at hallows
  have hpow : ∀ n m : Nat, n ≤ m → 10 ^ n ≤ Nat.pow 10 m :=
    fun n m h => Nat.pow_le_pow_right (by norm_num) h
  exact (ofDigits_lt hdigits).trans_le (hpow _ _ hfew)

/-- Whatever tokens write is short. -/
theorem isLiteral_isShort : IsLiteral Token.IsPure Term.IsShort where
  text := fun _ => trivial
  atom := fun _ => trivial
  tagged := fun _ _ => trivial
  funRef := fun _ _ _ _ harity h => by
    rw [Term.IsShort, Int.natAbs_natCast]
    exact Token.number_lt harity h
  integer := fun _ _ htoken h => by
    rw [Term.IsShort, Int.natAbs_natCast]
    exact Token.number_lt htoken h
  negative := fun _ _ htoken h => by
    rw [Term.IsShort, Int.natAbs_neg, Int.natAbs_natCast]
    exact Token.number_lt htoken h
  list := fun _ => trivial
  tuple := fun _ => trivial
  map := fun _ _ => trivial

end ModuleDocs.Source
