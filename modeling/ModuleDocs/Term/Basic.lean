import ModuleDocs.Number.Binary64

/-!
# Terms

A term is a metadata value.  Maps keep the order in which their keys were first
written, and terms that are equal as keys name one item: a truth value is the
number 0 or 1, numbers are equal when their exact values are, an atom is equal to
the text it spells, and tuples are compared part by part.  Lists and maps are no
keys, and what is not a number at all is equal to nothing.

`Term.keyForm?` gives equal keys one form, `Items.set` writes an item, `Items.ofPairs`
many of them, which `Items.ofPairs_eq_update` says, and `Term.beq_eq_true_iff` makes
structural equality decidable.
-/

namespace ModuleDocs

/-- A value of metadata or of a source attribute. -/
inductive Term where
  | none
  | bool (b : Bool)
  | int (i : Int)
  | float (bits : UInt64)
  | bytes (data : Bytes)
  | text (t : Text)
  | atom (t : Text)
  /-- Bytes with the name of the encoding they claim. -/
  | tagged (data : Bytes) (encoding : Text)
  | list (items : List Term)
  | tuple (items : List Term)
  | map (items : List (Term × Term))
  /-- A function named by name and number of arguments. -/
  | funRef (name : Text) (arity : Int)
  /-- A value that is no term, of which only the name of its type shows. -/
  | foreign (typeName : Text)
deriving Inhabited, Repr

/-- The items of a map, in the order of their first writing. -/
abbrev Items := List (Term × Term)

namespace Term

/-- The name of a term's type in messages. -/
def typeName : Term → Text
  | .none => "NoneType"
  | .bool _ => "bool"
  | .int _ => "int"
  | .float _ => "float"
  | .bytes _ => "bytes"
  | .text _ => "str"
  | .atom _ => "Atom"
  | .tagged .. => "EncodedBytes"
  | .list _ => "list"
  | .tuple _ => "tuple"
  | .map _ => "dict"
  | .funRef .. => "FunRef"
  | .foreign name => name

/-- The code points of a text or an atom. -/
def chars? : Term → Option Text
  | .text t => some t
  | .atom t => some t
  | _ => Option.none

/-! ## Equality -/

mutual

/-- Structural equality. -/
def beq : Term → Term → Bool
  | .none, .none => true
  | .bool a, .bool b => a == b
  | .int a, .int b => a == b
  | .float a, .float b => a == b
  | .bytes a, .bytes b => a == b
  | .text a, .text b => a == b
  | .atom a, .atom b => a == b
  | .tagged a e, .tagged b f => a == b && e == f
  | .list a, .list b => beqList a b
  | .tuple a, .tuple b => beqList a b
  | .map a, .map b => beqItems a b
  | .funRef a m, .funRef b n => a == b && m == n
  | .foreign a, .foreign b => a == b
  | _, _ => false

def beqList : List Term → List Term → Bool
  | [], [] => true
  | a :: as, b :: bs => beq a b && beqList as bs
  | _, _ => false

def beqItems : Items → Items → Bool
  | [], [] => true
  | (a, x) :: as, (b, y) :: bs => beq a b && beq x y && beqItems as bs
  | _, _ => false

end

mutual

theorem beq_eq_true_iff : ∀ a b : Term, beq a b = true ↔ a = b
  | .none, b | .bool _, b | .int _, b | .float _, b | .bytes _, b | .text _, b | .atom _, b
  | .tagged _ _, b | .funRef _ _, b | .foreign _, b => by cases b <;> simp [beq]
  | .list as, b => by cases b <;> simp [beq, beqList_eq_true_iff as]
  | .tuple as, b => by cases b <;> simp [beq, beqList_eq_true_iff as]
  | .map as, b => by cases b <;> simp [beq, beqItems_eq_true_iff as]

theorem beqList_eq_true_iff : ∀ as bs : List Term, beqList as bs = true ↔ as = bs
  | [], [] => by simp [beqList]
  | [], _ :: _ => by simp [beqList]
  | _ :: _, [] => by simp [beqList]
  | a :: as, b :: bs => by simp [beqList, beq_eq_true_iff a, beqList_eq_true_iff as]

theorem beqItems_eq_true_iff : ∀ as bs : Items, beqItems as bs = true ↔ as = bs
  | [], [] => by simp [beqItems]
  | [], _ :: _ => by simp [beqItems]
  | _ :: _, [] => by simp [beqItems]
  | (a, x) :: as, (b, y) :: bs => by
    simp [beqItems, beq_eq_true_iff a, beq_eq_true_iff x, beqItems_eq_true_iff as]

end

instance : DecidableEq Term := fun _ _ => decidable_of_iff _ (beq_eq_true_iff _ _)

/-! ## Keys -/

/-- Types of values that are no terms and no keys either. -/
def unhashableTypes : List Text := ["set", "bytearray"]

/-- Types of values that are no terms, each of which is equal to nothing but itself.
Values of all other types are equal when they look the same. -/
def distinctTypes : List Text := ["Other"]

/-- Types of byte strings that are no terms.  Only empty ones arise. -/
def byteTypes : List Text := ["bytearray"]

/-- The bytes of a byte string. -/
def byteString? : Term → Option Bytes
  | .bytes data => some data
  | .foreign name => if byteTypes.contains name then some [] else Option.none
  | _ => Option.none

mutual

/-- Whether a term can be the key of a map. -/
def isHashable : Term → Bool
  | .list _ => false
  | .map _ => false
  | .tuple items => allHashable items
  | .foreign name => name ∉ unhashableTypes
  | _ => true

def allHashable : List Term → Bool
  | [] => true
  | t :: rest => isHashable t && allHashable rest

end

mutual

/-- One form for all terms that are equal to a term as keys; a term that is not
equal to itself has none. -/
def keyForm? : Term → Option Term
  | .bool b => some (.int (if b then 1 else 0))
  | .float bits =>
    if Binary64.isNaN bits then Option.none
    else
      match Binary64.toInt? bits with
      | some i => some (.int i)
      | Option.none => some (.float bits)
  | .atom t => some (.text t)
  | .tuple items => (keyForms? items).map .tuple
  | .foreign name =>
    if distinctTypes.contains name then Option.none
    else if byteTypes.contains name then some (.bytes [])
    else some (.foreign name)
  | t => some t

def keyForms? : List Term → Option (List Term)
  | [] => some []
  | t :: rest =>
    match keyForm? t, keyForms? rest with
    | some form, some forms => some (form :: forms)
    | _, _ => Option.none

end

/-- Whether two terms name the same item of a map. -/
def keyEq (a b : Term) : Bool :=
  match keyForm? a, keyForm? b with
  | some x, some y => x = y
  | _, _ => false

end Term

namespace Items

/-- The value of a key. -/
def get? (key : Term) (items : Items) : Option Term :=
  (items.find? fun item => item.1.keyEq key).map (·.2)

/-- Gives a key a value.  An item of an equal key keeps its key and its place. -/
def set (key value : Term) : Items → Items
  | [] => [(key, value)]
  | (k, v) :: rest => if k.keyEq key then (k, value) :: rest else (k, v) :: set key value rest

/-- Writes items one after the other. -/
def update (items more : Items) : Items :=
  more.foldl (fun done (key, value) => set key value done) items

/-! ### Maps from pairs -/

/-- Whether an item has a key of the form. -/
def hasForm (form : Term) (item : Term × Term) : Bool := item.1.keyForm? = some form

/-- The items that have no key of the form. -/
def without (form : Term) (items : Items) : Items := items.filter (! hasForm form ·)

theorem length_without_le (form : Term) (items : Items) :
    (without form items).length ≤ items.length := List.length_filter_le _ _

/-- The value that items behind one with `value` leave to their common key. -/
def lastValue (form value : Term) (items : Items) : Term :=
  items.foldl (fun value item => if hasForm form item then item.2 else value) value

/-- The map that writing items one after the other gives: of each key the first
spelling, the first place and the last value. -/
def ofPairs : Items → Items
  | [] => []
  | (key, value) :: rest =>
    match key.keyForm? with
    | none => (key, value) :: ofPairs rest
    | some form => (key, lastValue form value rest) :: ofPairs (without form rest)
termination_by items => items.length
decreasing_by
  · exact Nat.lt_succ_self _
  · exact Nat.lt_succ_of_le (length_without_le _ _)

theorem update_cons (items : Items) (key value : Term) (more : Items) :
    update items ((key, value) :: more) = update (set key value items) more := rfl

/-- A key that is equal to no other stays where it is. -/
theorem update_of_keyForm?_none {key : Term} (h : key.keyForm? = none) (value : Term)
    (items more : Items) : update ((key, value) :: items) more = (key, value) :: update items more := by
  induction more generalizing items with
  | nil => rfl
  | cons item more ih =>
    have other : key.keyEq item.1 = false := by simp [Term.keyEq, h]
    rw [update_cons, update_cons, set, other]
    exact ih _

/-- The first item takes the last value of its key, and the others are written as if
none had that key. -/
theorem update_of_keyForm?_some {key form : Term} (h : key.keyForm? = some form) (value : Term)
    (items more : Items) :
    update ((key, value) :: items) more
      = (key, lastValue form value more) :: update items (without form more) := by
  induction more generalizing value items with
  | nil => rfl
  | cons item more ih =>
    have same : key.keyEq item.1 = hasForm form item := by
      cases h' : item.1.keyForm? <;> simp [Term.keyEq, hasForm, h, h', eq_comm]
    rw [update_cons, set, same]
    cases found : hasForm form item with
    | true =>
      rw [if_pos rfl, ih]
      simp [lastValue, without, found]
    | false =>
      rw [if_neg (by simp), ih]
      simp [lastValue, without, found, update]

/-- Writing pairs at once is writing them one after the other. -/
theorem ofPairs_eq_update (pairs : Items) : ofPairs pairs = update [] pairs := by
  fun_induction ofPairs pairs with
  | case1 => rfl
  | case2 key value rest h ih =>
    rw [update_cons, set, update_of_keyForm?_none h, ih]
  | case3 key value rest form h ih =>
    rw [update_cons, set, update_of_keyForm?_some h, ih]

end Items

end ModuleDocs
