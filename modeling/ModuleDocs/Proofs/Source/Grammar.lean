import Mathlib
import ModuleDocs.Source.Syntax

/-!
# The grammar of a source

`Rule.parts` is the grammar: it gives for each rule the words of labels that it stands for,
where a label is a kind of token or another rule.  A tree whose nodes all have parts as
their rules say is a derivation (`SyntaxTree.IsDerivation`) of the tokens at its leaves
(`SyntaxTree.yield`).

`SyntaxTree.value`, `SyntaxTree.form?` and `SyntaxTree.forms` are what such trees write: white
space and signs that only separate are gone, and a bracket is left as the place of the opening
one.
-/

namespace ModuleDocs.Source

open Computability

inductive Rule where
  | start
  | form
  | value
  | string
  | binary
  | funRef
  | atom
  | integer
  | list
  | tuple
  | map
  | pair
deriving DecidableEq, Repr

inductive Label where
  | token (kind : TokenKind)
  | rule (rule : Rule)
deriving DecidableEq, Repr

namespace Label

/-- One token of a kind. -/
def one (kind : TokenKind) : Language Label := {[.token kind]}

/-- One part that a rule describes. -/
def sub (rule : Rule) : Language Label := {[.rule rule]}

/-- Any number of parts with a comma between two of them. -/
def separated (rule : Rule) : Language Label := 1 + sub rule * (one .comma * sub rule)∗

end Label

open Label in
/-- What a rule stands for. -/
def Rule.parts : Rule → Language Label
  | .start => (sub .form)∗
  | .form =>
    one .minus * one .name * (one .leftParen * sub .value * one .rightParen + sub .value) * one .dot
  | .value =>
    sub .string + sub .binary + sub .funRef + sub .atom + sub .integer + sub .list + sub .tuple
      + sub .map
  | .string => one .string * (one .string)∗
  | .binary => one .openBinary * (one .string)∗ * (1 + one .slash * one .name) * one .closeBinary
  | .funRef => one .name * one .slash * one .integer
  | .atom => one .name + one .quotedAtom
  | .integer => one .integer + one .minus * one .integer
  | .list => one .leftBracket * separated .value * one .rightBracket
  | .tuple => one .leftBrace * separated .value * one .rightBrace
  | .map => one .openMap * separated .pair * one .rightBrace
  | .pair => sub .value * one .arrow * sub .value

/-! ## Derivations -/

/-- Tokens under the rules that describe them. -/
inductive SyntaxTree where
  | leaf (token : Token)
  | node (rule : Rule) (children : List SyntaxTree)

namespace SyntaxTree

def label : SyntaxTree → Label
  | .leaf token => .token token.kind
  | .node rule _ => .rule rule

mutual

/-- The tokens at the leaves. -/
def yield : SyntaxTree → List Token
  | .leaf token => [token]
  | .node _ children => yields children

def yields : List SyntaxTree → List Token
  | [] => []
  | tree :: rest => yield tree ++ yields rest

end

/-- Each node has parts as its rule says. -/
inductive IsDerivation : SyntaxTree → Prop
  | leaf (token : Token) : IsDerivation (.leaf token)
  | node {rule : Rule} {children : List SyntaxTree} (hparts : children.map label ∈ rule.parts)
      (hchildren : ∀ child ∈ children, IsDerivation child) : IsDerivation (.node rule children)

/-! ## What is written -/

/-- The tokens among trees. -/
def leaves : List SyntaxTree → List Token
  | [] => []
  | .leaf token :: rest => token :: leaves rest
  | .node _ _ :: rest => leaves rest

/-- The place of the first token. -/
def place (trees : List SyntaxTree) : Position :=
  ((leaves trees).head?.map (·.position)).getD .first

mutual

/-- The value that a tree writes. -/
def value : SyntaxTree → Node
  | .leaf _ => default
  | .node rule children =>
    match rule with
    | .string => .string (leaves children)
    | .binary =>
      .binary (place children) ((leaves children).filter (·.kind = .string))
        ((leaves children).find? (·.kind = .name))
    | .funRef =>
      match leaves children with
      | [name, _, arity] => .funRef name arity
      | _ => default
    | .atom =>
      match leaves children with
      | [token] => if token.kind = .name then .name token else .quoted token
      | _ => default
    | .integer =>
      match leaves children with
      | [token] => .integer token
      | [sign, token] => .negative sign.position token
      | _ => default
    | .list => .list (place children) (values children)
    | .tuple => .tuple (place children) (values children)
    | .map => .map (place children) (pairs children)
    | _ => (values children).headD default

/-- The values that the nodes among trees write. -/
def values : List SyntaxTree → List Node
  | [] => []
  | .leaf _ :: rest => values rest
  | .node rule children :: rest => value (.node rule children) :: values rest

/-- The keys and values that the nodes among trees write. -/
def pairs : List SyntaxTree → List (Node × Node)
  | [] => []
  | .leaf _ :: rest => pairs rest
  | .node _ children :: rest =>
    match values children with
    | [key, value] => (key, value) :: pairs rest
    | _ => pairs rest

end

/-- The form that a tree writes. -/
def form? : SyntaxTree → Option FormNode
  | .leaf _ => none
  | .node _ children =>
    match leaves children, values children with
    | sign :: name :: _, [value] => some ⟨sign.position, name, value⟩
    | _, _ => none

/-- The forms that a whole source writes. -/
def forms : SyntaxTree → List FormNode
  | .leaf _ => []
  | .node _ children => children.filterMap form?

/-- A derivation of a whole source. -/
structure IsParse (tree : SyntaxTree) (tokens : List Token) : Prop where
  label_eq : tree.label = .rule .start
  isDerivation : tree.IsDerivation
  yield_eq : tree.yield = tokens

open Label

variable {L M : Language Label} {trees : List SyntaxTree} {kind : TokenKind} {rule : Rule}

theorem labels_mem_mul : trees.map label ∈ L * M ↔
    ∃ front back, trees = front ++ back ∧ front.map label ∈ L ∧ back.map label ∈ M := by
  constructor
  · intro h
    obtain ⟨front, hfront, back, hback, heq⟩ := Language.mem_mul.1 h
    obtain ⟨frontTrees, backTrees, rfl, rfl, rfl⟩ := List.map_eq_append_iff.1 heq.symm
    exact ⟨frontTrees, backTrees, rfl, hfront, hback⟩
  · intro h
    obtain ⟨front, back, rfl, hfront, hback⟩ := h
    rw [List.map_append]
    exact Language.append_mem_mul hfront hback

theorem labels_mem_kstar : trees.map label ∈ L∗ ↔
    ∃ parts : List (List SyntaxTree), trees = parts.flatten
      ∧ ∀ part ∈ parts, part.map label ∈ L := by
  constructor
  · intro h
    obtain ⟨words, hwords, hmem⟩ := Language.mem_kstar.1 h
    clear h
    induction words generalizing trees with
    | nil => exact ⟨[], List.map_eq_nil_iff.1 hwords, by simp⟩
    | cons word words ih =>
      obtain ⟨front, back, rfl, hfront, hback⟩ := List.map_eq_append_iff.1 hwords
      obtain ⟨parts, rfl, hparts⟩ := ih hback fun w hw => hmem w (List.mem_cons_of_mem _ hw)
      refine ⟨front :: parts, rfl, List.forall_mem_cons.2 ⟨?_, hparts⟩⟩
      rw [hfront]
      exact hmem word List.mem_cons_self
  · intro h
    obtain ⟨parts, rfl, hparts⟩ := h
    rw [List.map_flatten]
    refine Language.join_mem_kstar fun word hword => ?_
    obtain ⟨part, hpart, rfl⟩ := List.mem_map.1 hword
    exact hparts part hpart

theorem labels_mem_one : trees.map label ∈ one kind ↔
    ∃ t : Token, t.kind = kind ∧ trees = [.leaf t] := by
  constructor
  · intro h
    obtain ⟨tree, rfl, htree⟩ := List.map_eq_singleton_iff.1 (show trees.map label = _ from h)
    cases tree with
    | leaf t => exact ⟨t, Label.token.inj htree, rfl⟩
    | node => cases htree
  · intro h
    obtain ⟨t, rfl, rfl⟩ := h
    rfl

theorem labels_mem_sub : trees.map label ∈ sub rule ↔
    ∃ children, trees = [.node rule children] := by
  constructor
  · intro h
    obtain ⟨tree, rfl, htree⟩ := List.map_eq_singleton_iff.1 (show trees.map label = _ from h)
    cases tree with
    | leaf => cases htree
    | node r children =>
      cases htree
      exact ⟨children, rfl⟩
  · intro h
    obtain ⟨children, rfl⟩ := h
    rfl

theorem labels_append {front back : List SyntaxTree} (hfront : front.map label ∈ L)
    (hback : back.map label ∈ M) : (front ++ back).map label ∈ L * M :=
  labels_mem_mul.2 ⟨front, back, rfl, hfront, hback⟩

theorem labels_leaf {t : Token} (h : t.kind = kind) : [leaf t].map label ∈ one kind :=
  labels_mem_one.2 ⟨t, h, rfl⟩

theorem labels_mem_one_kstar : trees.map label ∈ (one kind)∗ ↔
    ∃ tokens : List Token, (∀ t ∈ tokens, t.kind = kind) ∧ trees = tokens.map .leaf := by
  rw [labels_mem_kstar]
  constructor
  · intro h
    obtain ⟨parts, rfl, hparts⟩ := h
    induction parts with
    | nil => exact ⟨[], by simp, rfl⟩
    | cons part parts ih =>
      obtain ⟨hpart, hrest⟩ := List.forall_mem_cons.1 hparts
      obtain ⟨t, ht, rfl⟩ := labels_mem_one.1 hpart
      obtain ⟨tokens, htokens, heq⟩ := ih hrest
      refine ⟨t :: tokens, List.forall_mem_cons.2 ⟨ht, htokens⟩, ?_⟩
      rw [List.flatten_cons, heq]
      rfl
  · intro h
    obtain ⟨tokens, htokens, rfl⟩ := h
    refine ⟨tokens.map fun t => [.leaf t], ?_, fun part hpart => ?_⟩
    · induction tokens with
      | nil => rfl
      | cons t tokens ih =>
        rw [List.map_cons, ih (List.forall_mem_cons.1 htokens).2]
        rfl
    · obtain ⟨t, ht, rfl⟩ := List.mem_map.1 hpart
      exact labels_mem_one.2 ⟨t, htokens t ht, rfl⟩

@[simp] theorem yields_append (front back : List SyntaxTree) :
    yields (front ++ back) = yields front ++ yields back := by
  induction front with
  | nil => rfl
  | cons tree rest ih => rw [List.cons_append, yields, ih, yields, List.append_assoc]

@[simp] theorem yields_leaves (tokens : List Token) : yields (tokens.map .leaf) = tokens := by
  induction tokens with
  | nil => rfl
  | cons t rest ih => rw [List.map_cons, yields, ih, yield, List.singleton_append]

@[simp] theorem leaves_append (front back : List SyntaxTree) :
    leaves (front ++ back) = leaves front ++ leaves back := by
  induction front with
  | nil => rfl
  | cons tree rest ih => cases tree <;> simp [leaves, ih]

@[simp] theorem leaves_leaves (tokens : List Token) : leaves (tokens.map .leaf) = tokens := by
  induction tokens with
  | nil => rfl
  | cons t rest ih => rw [List.map_cons, leaves, ih]

theorem values_append (front back : List SyntaxTree) :
    values (front ++ back) = values front ++ values back := by
  induction front with
  | nil => rfl
  | cons tree rest ih => cases tree <;> simp [values, ih]

theorem pairs_append (front back : List SyntaxTree) :
    pairs (front ++ back) = pairs front ++ pairs back := by
  induction front with
  | nil => rfl
  | cons tree rest ih =>
    cases tree with
    | leaf => exact ih
    | node rule children =>
      rw [List.cons_append, pairs, pairs, ih]
      split <;> rfl

end SyntaxTree

end ModuleDocs.Source
