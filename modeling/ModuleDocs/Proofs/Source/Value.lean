import Mathlib
import ModuleDocs.Proofs.Result
import ModuleDocs.Proofs.Source.Syntax
import ModuleDocs.Proofs.Term.Part
import ModuleDocs.Source.Form

/-!
# The values of forms

`IsLiteral T P` says that the property `P` holds of each term that is written by tokens
with the property `T`, as long as one looks at the term alone.  It then holds of every
part of a value (`every_of_value`), and so of the values of all forms of a text
(`sound_of_ofText`).

That an integer has too many digits is an error of tokens, and of none that may be read
(`failsWith_ofText`).
-/

namespace ModuleDocs.Source

open Result

variable {T : Token → Prop} {P : Term → Prop}

/-! ## Numbers -/

namespace Token

variable {token : Token} {n : Nat}

/-- Not too many digits are those of a number. -/
theorem number_eq_ok_iff : token.number = .ok n ↔ token.text.length ≤ Decimal.maxDigits ∧
    ofDigits 10 (token.text.map fun c => c.val - 0x30) = n := by
  rw [number, Decimal.allow]
  split
  · exact iff_of_false nofun (by omega)
  · rename_i hfew
    exact ⟨fun h => ⟨by omega, Except.ok.inj h⟩, fun h => congrArg Except.ok h.2⟩

/-- The only error is that there are too many digits. -/
theorem number_eq_error_iff {e : ValueError} :
    token.number = .error e ↔ Decimal.maxDigits < token.text.length ∧
      ValueError.tooLong (.read token.text.length) token.position = e := by
  rw [number, Decimal.allow]
  split
  · rename_i hmany
    exact ⟨fun h => ⟨hmany, Except.error.inj h⟩, fun h => congrArg Except.error h.2⟩
  · exact iff_of_false nofun (by omega)

end Token

/-! ## Literals -/

/-- Each term that tokens write has the property. -/
structure IsLiteral (T : Token → Prop) (P : Term → Prop) : Prop where
  text : ∀ t, P (.text t)
  atom : ∀ t, P (.atom t)
  tagged : ∀ data encoding, P (.tagged data encoding)
  funRef : ∀ (name arity : Token) (n : Nat), name.Sound T .name → arity.Sound T .integer →
    arity.number = .ok n → P (.funRef name.text n)
  integer : ∀ (token : Token) (n : Nat), token.Sound T .integer → token.number = .ok n → P (.int n)
  negative : ∀ (token : Token) (n : Nat), token.Sound T .integer → token.number = .ok n →
    P (.int (-(n : Int)))
  list : ∀ items, P (.list items)
  tuple : ∀ items, P (.tuple items)
  map : ∀ items : Items, (∀ item ∈ items, item.1.isHashable = true) → P (.map (Items.ofPairs items))

/-- What holds of the terms that some tokens write holds of those that some of them write. -/
theorem IsLiteral.of_imp {T' : Token → Prop} (hP : IsLiteral T P)
    (hT : ∀ token, T' token → T token) :
    IsLiteral T' P where
  text := hP.text
  atom := hP.atom
  tagged := hP.tagged
  funRef := fun name arity n hname harity =>
    hP.funRef name arity n (hname.imp_left (hT name)) (harity.imp_left (hT arity))
  integer := fun token n htoken => hP.integer token n (htoken.imp_left (hT token))
  negative := fun token n htoken => hP.negative token n (htoken.imp_left (hT token))
  list := hP.list
  tuple := hP.tuple
  map := hP.map

namespace Node

mutual

/-- Every part of a value has the property of literals. -/
theorem every_of_value (hP : IsLiteral T P) : ∀ (node : Node) (t : Term), node.Sound T →
    node.value = .ok t → t.Every P
  | .string parts, t, _, h => by
    obtain ⟨chars, _, rfl⟩ := bind_pure_eq_ok_iff.1 h
    exact hP.text chars
  | .binary at_ parts encoding?, t, _, h => by
    rw [value] at h
    obtain ⟨chars, _, h⟩ := bind_eq_ok_iff.1 h
    split at h
    · cases h
      exact hP.tagged _ _
    · cases h
  | .funRef first arity, t, hsound, h => by
    obtain ⟨n, hn, rfl⟩ := bind_pure_eq_ok_iff.1 h
    exact hP.funRef first arity n hsound.1 hsound.2 hn
  | .name token, t, _, h => by
    cases h
    exact hP.atom token.text
  | .quoted token, t, _, h => by
    obtain ⟨chars, _, rfl⟩ := bind_pure_eq_ok_iff.1 h
    exact hP.atom chars
  | .integer token, t, hsound, h => by
    obtain ⟨n, hn, rfl⟩ := bind_pure_eq_ok_iff.1 h
    exact hP.integer token n hsound hn
  | .negative at_ token, t, hsound, h => by
    obtain ⟨n, hn, rfl⟩ := bind_pure_eq_ok_iff.1 h
    exact hP.negative token n hsound hn
  | .list at_ nodes, t, hsound, h => by
    rw [value] at h
    obtain ⟨items, hitems, rfl⟩ := bind_pure_eq_ok_iff.1 h
    exact ⟨hP.list items, everyItem_of_values hP nodes items hsound hitems⟩
  | .tuple at_ nodes, t, hsound, h => by
    rw [value] at h
    obtain ⟨items, hitems, rfl⟩ := bind_pure_eq_ok_iff.1 h
    exact ⟨hP.tuple items, everyItem_of_values hP nodes items hsound hitems⟩
  | .map at_ pairs, t, hsound, h => by
    rw [value] at h
    obtain ⟨written, hwritten, rfl⟩ := bind_pure_eq_ok_iff.1 h
    obtain ⟨hhashable, hevery⟩ := everyPair_of_items hP pairs written hsound hwritten
    refine ⟨hP.map written hhashable, Term.everyPair_iff.2 ?_⟩
    exact Items.forall_ofPairs (K := Term.Every P) (V := Term.Every P) (Term.everyPair_iff.1 hevery)

theorem everyItem_of_values (hP : IsLiteral T P) : ∀ (nodes : List Node) (items : List Term),
    SoundItems T nodes → values nodes = .ok items → Term.EveryItem P items
  | [], items, _, h => by
    cases h
    trivial
  | node :: rest, items, hsound, h => by
    rw [values] at h
    obtain ⟨first, hfirst, h⟩ := bind_eq_ok_iff.1 h
    obtain ⟨others, hothers, rfl⟩ := bind_pure_eq_ok_iff.1 h
    exact ⟨every_of_value hP node first hsound.1 hfirst,
      everyItem_of_values hP rest others hsound.2 hothers⟩

theorem everyPair_of_items (hP : IsLiteral T P) : ∀ (pairs : List (Node × Node)) (written : Items),
    SoundPairs T pairs → items pairs = .ok written →
    (∀ item ∈ written, item.1.isHashable = true) ∧ Term.EveryPair P written
  | [], written, _, h => by
    cases h
    exact ⟨by simp, trivial⟩
  | (keyNode, valueNode) :: rest, written, hsound, h => by
    rw [items] at h
    obtain ⟨key, hkey, h⟩ := bind_eq_ok_iff.1 h
    obtain ⟨t, ht, h⟩ := bind_eq_ok_iff.1 h
    split at h
    · rename_i hhashable
      obtain ⟨others, hothers, rfl⟩ := bind_pure_eq_ok_iff.1 h
      obtain ⟨hrest, hevery⟩ := everyPair_of_items hP rest others hsound.2.2 hothers
      refine ⟨?_, every_of_value hP keyNode key hsound.1 hkey,
        every_of_value hP valueNode t hsound.2.1 ht, hevery⟩
      exact List.forall_mem_cons.2 ⟨hhashable, hrest⟩
    · cases h

end

end Node

/-! ## Errors -/

/-- Too many digits are what is wrong. -/
def ValueError.IsTooLong (e : ValueError) : Prop := ∃ error at_, e = .tooLong error at_

/-- A token of which, if it is an integer, all digits can be read. -/
def Token.HasFewDigits (token : Token) : Prop :=
  token.kind = .integer → token.text.length ≤ Decimal.maxDigits

namespace Node

theorem failsWith_number {token : Token} (h : token.Sound Token.HasFewDigits .integer)
    {Q : ValueError → Prop} : FailsWith Q token.number := by
  intro e he
  have hmany := (Token.number_eq_error_iff.1 he).1
  have hfew := h.1 h.2
  omega

theorem failsWith_contents (token : Token) : FailsWith (¬ ·.IsTooLong) token.contents :=
  FailsWith.mapError fun _ _ => by simp [ValueError.IsTooLong]

theorem failsWith_contentsOf (parts : List Token) :
    FailsWith (¬ ·.IsTooLong) (contentsOf parts) := by
  induction parts with
  | nil => exact FailsWith.ok _
  | cons token rest ih =>
    exact (failsWith_contents token).bind fun _ _ => ih.bind fun _ _ => FailsWith.pure _

mutual

/-- Where all digits can be read, a value does not fail for having too many of them. -/
theorem failsWith_value : ∀ node : Node, node.Sound Token.HasFewDigits →
    FailsWith (¬ ·.IsTooLong) node.value
  | .string parts, _ => (failsWith_contentsOf parts).bind fun _ _ => FailsWith.pure _
  | .binary at_ parts encoding?, _ => by
    rw [value]
    refine (failsWith_contentsOf parts).bind fun chars _ => ?_
    split
    · exact FailsWith.pure _
    · exact FailsWith.error (by simp [ValueError.IsTooLong])
  | .funRef first arity, h => (failsWith_number h.2).bind fun _ _ => FailsWith.pure _
  | .name token, _ => FailsWith.ok _
  | .quoted token, _ => (failsWith_contents token).bind fun _ _ => FailsWith.pure _
  | .integer token, h => (failsWith_number h).bind fun _ _ => FailsWith.pure _
  | .negative at_ token, h => (failsWith_number h).bind fun _ _ => FailsWith.pure _
  | .list at_ nodes, h => by
    rw [value]
    exact (failsWith_values nodes h).bind fun _ _ => FailsWith.pure _
  | .tuple at_ nodes, h => by
    rw [value]
    exact (failsWith_values nodes h).bind fun _ _ => FailsWith.pure _
  | .map at_ pairs, h => by
    rw [value]
    exact (failsWith_items pairs h).bind fun _ _ => FailsWith.pure _

theorem failsWith_values : ∀ nodes : List Node, SoundItems Token.HasFewDigits nodes →
    FailsWith (¬ ·.IsTooLong) (values nodes)
  | [], _ => FailsWith.ok _
  | node :: rest, h => by
    rw [values]
    exact (failsWith_value node h.1).bind fun _ _ =>
      (failsWith_values rest h.2).bind fun _ _ => FailsWith.pure _

theorem failsWith_items : ∀ pairs : List (Node × Node), SoundPairs Token.HasFewDigits pairs →
    FailsWith (¬ ·.IsTooLong) (items pairs)
  | [], _ => FailsWith.ok _
  | (keyNode, valueNode) :: rest, h => by
    rw [items]
    refine (failsWith_value keyNode h.1).bind fun _ _ =>
      (failsWith_value valueNode h.2.1).bind fun _ _ => ?_
    split
    · exact (failsWith_items rest h.2.2).bind fun _ _ => FailsWith.pure _
    · exact FailsWith.error (by simp [ValueError.IsTooLong])

end

end Node

/-! ## Forms -/

namespace Form

/-- A form that tokens with a property write, with a value whose parts have another. -/
structure Sound (T : Token → Prop) (P : Term → Prop) (form : Form) : Prop where
  at_ : ∃ t, T t ∧ t.position = form.at_
  value : form.value.Every P

theorem sound_of_ofNodes (hP : IsLiteral T P) {file? : Option Text} {nodes : List FormNode}
    {forms : List Form} (hnodes : ∀ node ∈ nodes, node.Sound T)
    (h : ofNodes file? nodes = .ok forms) :
    ∀ form ∈ forms, form.Sound T P ∧ form.file? = file? := by
  induction nodes generalizing forms with
  | nil =>
    cases h
    simp
  | cons node rest ih =>
    rw [ofNodes] at h
    obtain ⟨value, hvalue, h⟩ := bind_eq_ok_iff.1 h
    obtain ⟨others, hothers, rfl⟩ := bind_pure_eq_ok_iff.1 h
    have hnode := hnodes node List.mem_cons_self
    have hrest := ih (fun n hn => hnodes n (List.mem_cons_of_mem _ hn)) hothers
    intro form hform
    rcases List.mem_cons.1 hform with rfl | hform
    · exact ⟨⟨hnode.at_, Node.every_of_value hP node.value value hnode.value hvalue⟩, rfl⟩
    · exact hrest form hform

theorem exists_nodes_of_ofText {t : Text} {file? : Option Text} {forms : List Form}
    (h : ofText t file? = .ok forms) : ∃ nodes, Forms.ofText t = .ok nodes := by
  unfold ofText at h
  split at h
  · cases h
  · rename_i nodes hnodes
    exact ⟨nodes, hnodes⟩

/-- The forms of a text are as its tokens say. -/
theorem sound_of_ofText (hP : IsLiteral T P) {t : Text} {file? : Option Text} {forms : List Form}
    (htokens : ∀ token ∈ (Tokens.ofText t).tokens, T token) (h : ofText t file? = .ok forms) :
    ∀ form ∈ forms, form.Sound T P ∧ form.file? = file? := by
  unfold ofText at h
  split at h
  · cases h
  · rename_i nodes hnodes
    exact sound_of_ofNodes hP (Forms.sound_of_ofTokens htokens hnodes)
      (mapError_eq_ok_iff.1 h)

theorem failsWith_ofNodes {file? : Option Text} {nodes : List FormNode}
    (hnodes : ∀ node ∈ nodes, node.Sound Token.HasFewDigits) :
    FailsWith (¬ ·.IsTooLong) (ofNodes file? nodes) := by
  induction nodes with
  | nil => exact FailsWith.ok _
  | cons node rest ih =>
    obtain ⟨hnode, hrest⟩ := List.forall_mem_cons.1 hnodes
    exact (Node.failsWith_value node.value hnode.value).bind fun _ _ =>
      (ih hrest).bind fun _ _ => FailsWith.pure _

/-- A text in which all digits can be read does not fail for having too many of them. -/
theorem failsWith_ofText {t : Text} {file? : Option Text}
    (htokens : ∀ nodes, Forms.ofText t = .ok nodes →
      ∀ token ∈ (Tokens.ofText t).tokens, token.HasFewDigits) :
    FailsWith (fun e => ∀ error at_, e ≠ .badValue (.tooLong error at_)) (ofText t file?) := by
  unfold ofText
  split
  · exact FailsWith.error (by simp)
  · rename_i nodes hnodes
    refine FailsWith.mapError ?_
    refine (failsWith_ofNodes (Forms.sound_of_ofTokens (htokens nodes hnodes) hnodes)).imp ?_
    rintro e he error at_ ⟨⟩
    exact he ⟨error, at_, rfl⟩

end Form

end ModuleDocs.Source
