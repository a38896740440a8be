import ModuleDocs.Source.Token

/-!
# The syntax of forms

A source is a sequence of forms `-name value.` or `-name(value).` with values

* strings, which may stand side by side, and binaries of them;
* names, quoted atoms, integers and `name/arity`;
* lists, tuples and maps.

`Forms.ofTokens` reads tokens one at a time.  What was read so far is a `State`, which
also says what may come next; so reading stops at the first token with which no
source goes on.
-/

namespace ModuleDocs.Source

/-- A value as it was written.  Brackets are given by the place of the opening one. -/
inductive Node where
  | string (parts : List Token)
  | binary (at_ : Position) (parts : List Token) (encoding? : Option Token)
  | funRef (name arity : Token)
  | name (token : Token)
  | quoted (token : Token)
  | integer (token : Token)
  | negative (at_ : Position) (token : Token)
  | list (at_ : Position) (items : List Node)
  | tuple (at_ : Position) (items : List Node)
  | map (at_ : Position) (pairs : List (Node × Node))
deriving Inhabited, Repr

/-- The place of the first token of a value. -/
def Node.position : Node → Position
  | .string parts => (parts.head?.map (·.position)).getD ⟨0, 0⟩
  | .binary at_ _ _ => at_
  | .funRef first _ => first.position
  | .name token => token.position
  | .quoted token => token.position
  | .integer token => token.position
  | .negative at_ _ => at_
  | .list at_ _ => at_
  | .tuple at_ _ => at_
  | .map at_ _ => at_

/-- A form as it was written, with the place of its minus sign. -/
structure FormNode where
  at_ : Position
  name : Token
  value : Node
deriving Repr

/-! ## What was read so far -/

/-- A list, tuple or map inside which a value is being read; what it already holds is
last first. -/
inductive Frame where
  | list (at_ : Position) (done : List Node)
  | tuple (at_ : Position) (done : List Node)
  | mapKey (at_ : Position) (done : List (Node × Node))
  | mapValue (at_ : Position) (done : List (Node × Node)) (key : Node)
deriving Repr

/-- How far a value has been read. -/
inductive Mode where
  /-- Nothing of it; at `opening` the bracket around it may close instead. -/
  | start (opening : Bool)
  | afterName (token : Token)
  | afterSlash (name : Token)
  | afterMinus (at_ : Position)
  | strings (parts : List Token)
  | binary (at_ : Position) (parts : List Token)
  | binarySlash (at_ : Position) (parts : List Token)
  | binaryEnd (at_ : Position) (parts : List Token) (encoding : Token)
  | complete (value : Node)
deriving Repr

/-- The beginning of a form; `isOpen` when a parenthesis stands around its value. -/
structure Header where
  at_ : Position
  name : Token
  isOpen : Bool
deriving Repr

inductive State where
  | between
  | formName (at_ : Position)
  | inValue (header : Header) (stack : List Frame) (mode : Mode)
  | formEnd (header : Header) (value : Node)
deriving Repr

/-- A state, and the form that the last token ended. -/
abbrev Step := State × Option FormNode

/-- Goes on reading. -/
def Step.to (s : State) : Option Step := some (s, none)

/-! ## Tokens -/

/-- A token behind a complete value. -/
def stepComplete (h : Header) (value : Node) (t : Token) : List Frame → Option Step
  | [] =>
    if h.isOpen then
      if t.kind = .rightParen then Step.to (.formEnd h value) else none
    else if t.kind = .dot then some (.between, some ⟨h.at_, h.name, value⟩)
    else none
  | .list at_ done :: stack =>
    if t.kind = .comma then Step.to (.inValue h (.list at_ (value :: done) :: stack) (.start false))
    else if t.kind = .rightBracket then
      Step.to (.inValue h stack (.complete (.list at_ (value :: done).reverse)))
    else none
  | .tuple at_ done :: stack =>
    if t.kind = .comma then Step.to (.inValue h (.tuple at_ (value :: done) :: stack) (.start false))
    else if t.kind = .rightBrace then
      Step.to (.inValue h stack (.complete (.tuple at_ (value :: done).reverse)))
    else none
  | .mapKey at_ done :: stack =>
    if t.kind = .arrow then Step.to (.inValue h (.mapValue at_ done value :: stack) (.start false))
    else none
  | .mapValue at_ done key :: stack =>
    if t.kind = .comma then
      Step.to (.inValue h (.mapKey at_ ((key, value) :: done) :: stack) (.start false))
    else if t.kind = .rightBrace then
      Step.to (.inValue h stack (.complete (.map at_ ((key, value) :: done).reverse)))
    else none

/-- A closing bracket right behind the opening one. -/
def stepEmpty (h : Header) (t : Token) : List Frame → Option Step
  | .list at_ [] :: stack =>
    if t.kind = .rightBracket then Step.to (.inValue h stack (.complete (.list at_ []))) else none
  | .tuple at_ [] :: stack =>
    if t.kind = .rightBrace then Step.to (.inValue h stack (.complete (.tuple at_ []))) else none
  | .mapKey at_ [] :: stack =>
    if t.kind = .rightBrace then Step.to (.inValue h stack (.complete (.map at_ []))) else none
  | _ => none

/-- The first token of a value. -/
def stepStart (h : Header) (stack : List Frame) (opening : Bool) (t : Token) : Option Step :=
  match t.kind with
  | .name => Step.to (.inValue h stack (.afterName t))
  | .quotedAtom => Step.to (.inValue h stack (.complete (.quoted t)))
  | .string => Step.to (.inValue h stack (.strings [t]))
  | .integer => Step.to (.inValue h stack (.complete (.integer t)))
  | .minus => Step.to (.inValue h stack (.afterMinus t.position))
  | .openBinary => Step.to (.inValue h stack (.binary t.position []))
  | .leftBracket => Step.to (.inValue h (.list t.position [] :: stack) (.start true))
  | .leftBrace => Step.to (.inValue h (.tuple t.position [] :: stack) (.start true))
  | .openMap => Step.to (.inValue h (.mapKey t.position [] :: stack) (.start true))
  | .leftParen =>
    if opening && stack.isEmpty && ! h.isOpen then
      Step.to (.inValue { h with isOpen := true } [] (.start false))
    else none
  | _ => if opening then stepEmpty h t stack else none

/-- A token of a form behind its name. -/
def stepValue (h : Header) (stack : List Frame) (mode : Mode) (t : Token) : Option Step :=
  match mode with
  | .start opening => stepStart h stack opening t
  | .afterName name =>
    if t.kind = .slash then Step.to (.inValue h stack (.afterSlash name))
    else stepComplete h (.name name) t stack
  | .afterSlash name =>
    if t.kind = .integer then Step.to (.inValue h stack (.complete (.funRef name t))) else none
  | .afterMinus at_ =>
    if t.kind = .integer then Step.to (.inValue h stack (.complete (.negative at_ t))) else none
  | .strings parts =>
    if t.kind = .string then Step.to (.inValue h stack (.strings (t :: parts)))
    else stepComplete h (.string parts.reverse) t stack
  | .binary at_ parts =>
    if t.kind = .string then Step.to (.inValue h stack (.binary at_ (t :: parts)))
    else if t.kind = .slash then Step.to (.inValue h stack (.binarySlash at_ parts))
    else if t.kind = .closeBinary then
      Step.to (.inValue h stack (.complete (.binary at_ parts.reverse none)))
    else none
  | .binarySlash at_ parts =>
    if t.kind = .name then Step.to (.inValue h stack (.binaryEnd at_ parts t)) else none
  | .binaryEnd at_ parts encoding =>
    if t.kind = .closeBinary then
      Step.to (.inValue h stack (.complete (.binary at_ parts.reverse (some encoding))))
    else none
  | .complete value => stepComplete h value t stack

/-- Reads a token, if a source can go on with it. -/
def step (s : State) (t : Token) : Option Step :=
  match s with
  | .between => if t.kind = .minus then Step.to (.formName t.position) else none
  | .formName at_ =>
    if t.kind = .name then Step.to (.inValue ⟨at_, t, false⟩ [] (.start true)) else none
  | .inValue h stack mode => stepValue h stack mode t
  | .formEnd h value =>
    if t.kind = .dot then some (.between, some ⟨h.at_, h.name, value⟩) else none

/-! ## Whole sources -/

/-- Why a text is no sequence of forms. -/
inductive SyntaxError where
  | unexpectedToken (token : Token)
  /-- The text ends too early; the place is that of its last token. -/
  | unexpectedEnd (at_ : Position)
  | noToken (c : CodePoint) (at_ : Position)
deriving DecidableEq, Repr

namespace SyntaxError

def position : SyntaxError → Position
  | .unexpectedToken token => token.position
  | .unexpectedEnd at_ => at_
  | .noToken _ at_ => at_

/-- The characters at which a text is cut into lines when messages are shown. -/
def isLineEnd (c : CodePoint) : Bool :=
  (0x0A ≤ c.val && c.val ≤ 0x0D) || (0x1C ≤ c.val && c.val ≤ 0x1E) || c.val = 0x85
    || c.val = 0x2028 || c.val = 0x2029

def tokenMessage (label text : Text) (at_ : Position) : Text :=
  ("Unexpected token Token(" : Text) ++ label.quoted ++ (", " : Text) ++ text.quoted
    ++ (") at line " : Text) ++ Text.ofNat at_.line ++ (", column " : Text)
    ++ Text.ofNat at_.column ++ ("." : Text)

/-- The first line of what there is to say. -/
def message : SyntaxError → Text
  | .unexpectedToken token => tokenMessage token.kind.label token.text token.position
  | .unexpectedEnd at_ => tokenMessage "$END" [] at_
  | .noToken c at_ =>
    if isLineEnd c then "No terminal matches '"
    else
      ("No terminal matches '" : Text) ++ [c]
        ++ ("' in the current parser context, at line " : Text) ++ Text.ofNat at_.line
        ++ (" col " : Text) ++ Text.ofNat at_.column

end SyntaxError

namespace Forms

/-- Reads tokens from a state; `done` holds the finished forms, last first, and `last`
is the place of the token before. -/
def ofTokensFrom (stop? : Option (CodePoint × Position)) (s : State) (done : List FormNode)
    (last : Position) : List Token → Except SyntaxError (List FormNode)
  | [] =>
    match stop?, s with
    | some (c, at_), _ => .error (.noToken c at_)
    | none, .between => .ok done.reverse
    | none, _ => .error (.unexpectedEnd last)
  | t :: rest =>
    match step s t with
    | none => .error (.unexpectedToken t)
    | some (s, form?) => ofTokensFrom stop? s (form?.toList ++ done) t.position rest

/-- The forms that tokens write. -/
def ofTokens (tokens : Tokens) : Except SyntaxError (List FormNode) :=
  ofTokensFrom tokens.stop? .between [] .first tokens.tokens

/-- The forms that a text writes. -/
def ofText (t : Text) : Except SyntaxError (List FormNode) := ofTokens (.ofText t)

end Forms

end ModuleDocs.Source
