import ModuleDocs.Diagnostic
import ModuleDocs.Entry
import ModuleDocs.Term.Display
import ModuleDocs.Term.Encode

/-!
# Normal form of entries

Texts come as code points, as bytes or as bytes with the name of an encoding; in a
finished entry all are UTF-8 bytes.  A schema says which metadata keys hold a text
and which a list of texts.  Values of other keys are kept as they are, as long as
they can be stored.
-/

namespace ModuleDocs

/-- What a metadata key of the schema holds. -/
inductive Shape where
  | text
  | textList
  /-- A word that names no shape. -/
  | unknown (name : Text)
deriving DecidableEq, Repr

namespace Shape

def name : Shape → Text
  | .text => "text"
  | .textList => "text_list"
  | .unknown name => name

def ofName (name : Text) : Shape :=
  if name = Shape.text.name then .text
  else if name = Shape.textList.name then .textList
  else .unknown name

/-- A shape as a message names it. -/
def describe : Shape → Text
  | .text => "a string"
  | .textList => "a list of strings"
  | .unknown name => name

end Shape

/-- Metadata keys and their shapes; the first line of a key counts. -/
abbrev Schema := List (Text × Shape)

namespace Schema

/-- The shape of a key. -/
def get? (key : Text) (schema : Schema) : Option Shape :=
  (schema.find? fun s => s.1 = key).map (·.2)

/-- Gives a key a shape, in its old place if it has one. -/
def set (key : Text) (shape : Shape) : Schema → Schema
  | [] => [(key, shape)]
  | (k, s) :: rest => if k = key then (k, shape) :: rest else (k, s) :: set key shape rest

/-- The keys every module has. -/
def default : Schema :=
  [("authors", .textList), ("cross_references", .textList), ("deprecated", .text),
    ("equiv", .text), ("format", .text), ("license", .text), ("since", .text)]

/-- A key whose shape is none. -/
structure BadShape where
  key : Text
deriving DecidableEq, Repr

def BadShape.message (e : BadShape) : Text :=
  ("metadata_schema['" : Text) ++ e.key ++ ("'] must be one of ['text', 'text_list']" : Text)

/-- A schema with the shapes of some keys added or changed. -/
def extend (schema : Schema) : List (Text × Text) → Except BadShape Schema
  | [] => .ok schema
  | (key, name) :: rest =>
    match Shape.ofName name with
    | .unknown _ => .error ⟨key⟩
    | shape => extend (set key shape schema) rest

end Schema

/-- Why a text has no UTF-8 bytes. -/
inductive TextError where
  | notEncodable
  | notUtf8 (encoding : Text) (offset : Nat)
  | unsupportedEncoding (encoding : Text)
  | notText (typeName : Text)
  | badPayload (typeName : Text)
  | metadataNotEncodable (key : Text)
deriving DecidableEq, Repr

def TextError.message : TextError → Text
  | .notEncodable => ("text is not encodable as UTF-8: " : Text) ++ Utf8.Unencodable.reason
  | .notUtf8 encoding offset =>
    ("byte string tagged " : Text) ++ encoding ++ (" is not valid UTF-8 (offset " : Text)
      ++ Text.ofNat offset ++ (")" : Text)
  | .unsupportedEncoding encoding =>
    ("unsupported byte string encoding '" : Text) ++ encoding ++ ("'" : Text)
  | .notText name => ("expected text, got " : Text) ++ name
  | .badPayload name =>
    ("documentation payload must be text, a byte string or hidden (got " : Text) ++ name
      ++ (")" : Text)
  | .metadataNotEncodable key =>
    ("metadata key '" : Text) ++ key ++ ("' holds text not encodable as UTF-8: " : Text)
      ++ Utf8.Unencodable.reason

/-- What is wrong with the documentation of a unit. -/
inductive DocError where
  /-- A second text for one entity. -/
  | duplicate (ref : EntityRef) (previous span : Span)
  | encoding (error : TextError) (span : Span)
  /-- A metadata key with a value of the wrong kind. -/
  | metadataType (key expected : Text) (got : Term) (span : Span)
deriving DecidableEq, Repr

namespace DocError

def message : DocError → Text
  | .duplicate ref _ _ => ("duplicate documentation for " : Text) ++ ref.display
  | .encoding error _ => error.message
  | .metadataType key expected got _ =>
    let detail : Text :=
      if got = .none then [] else (" (got " : Text) ++ got.typeName ++ (")" : Text)
    ("metadata key '" : Text) ++ key ++ ("' must be " : Text) ++ expected ++ detail

def toDiagnostic : DocError → Diagnostic
  | e@(.duplicate _ previous span) =>
    { Diagnostic.error "collect" "E-DOC-DUPLICATE" e.message span with
      notes := [("previously documented at " : Text) ++ previous.display] }
  | e@(.encoding _ span) => .error "normalize" "E-DOC-ENCODING" e.message span
  | e@(.metadataType _ _ _ span) => .error "normalize" "E-DOC-METADATA" e.message span

end DocError

/-- Why an entry has no normal form. -/
inductive NormalizeError where
  | doc (error : DocError)
  | unknownShape (shape key : Text)
  /-- Something is wrong with a key that cannot be named. -/
  | tooLong (error : Decimal.TooLong)
deriving DecidableEq, Repr

/-! ## Texts -/

namespace Term

/-- The values that stand for a text.  An atom does not. -/
def isText : Term → Bool
  | .text _ => true
  | .bytes _ => true
  | .tagged .. => true
  | _ => false

/-- The names of UTF-8 and of Latin-1 as an encoding, in lower case. -/
def utf8Names : List Text := ["utf8", "utf-8"]
def latin1Names : List Text := ["latin1", "latin-1", "iso8859-1", "iso-8859-1"]

/-- The UTF-8 bytes of bytes with an encoding.  ASCII letter case does not matter in its
name. -/
def normalizeTagged (data : Bytes) (encoding : Text) : Except TextError Bytes :=
  let name := Text.toLower encoding
  if utf8Names.contains name then
    match Utf8.decode data with
    | .ok _ => .ok data
    | .error e => .error (.notUtf8 encoding e.start)
  else if latin1Names.contains name then .ok (Utf8.encodeAll (Utf8.ofLatin1 data))
  else .error (.unsupportedEncoding encoding)

/-- The UTF-8 bytes of a value that stands for a text, or of an atom. -/
def normalizeText (t : Term) : Except TextError Bytes :=
  match t with
  | .text chars | .atom chars =>
    match Utf8.encode chars with
    | .ok data => .ok data
    | .error _ => .error .notEncodable
  | .bytes data => normalizeTagged data "utf8"
  | .tagged data encoding => normalizeTagged data encoding
  | _ => .error (.notText t.typeName)

mutual

/-- Whether UTF-8 can write every text inside a term. -/
def isEncodable : Term → Bool
  | .text t => Utf8.isEncodable t
  | .atom t => Utf8.isEncodable t
  | .tagged _ encoding => Utf8.isEncodable encoding
  | .list items => allEncodable items
  | .tuple items => allEncodable items
  | .map items => itemsEncodable items
  | _ => true

def allEncodable : List Term → Bool
  | [] => true
  | t :: rest => isEncodable t && allEncodable rest

def itemsEncodable : Items → Bool
  | [] => true
  | (key, value) :: rest => isEncodable key && isEncodable value && itemsEncodable rest

end

/-! ## Metadata -/

/-- The UTF-8 bytes of several values. -/
def normalizeTexts : List Term → Except TextError (List Term)
  | [] => .ok []
  | t :: rest => do
    let data ← normalizeText t
    return .bytes data :: (← normalizeTexts rest)

/-- The value of a key of the schema. -/
def normalizeShaped (key : Text) (shape : Shape) (value : Term) (span : Span) :
    Except NormalizeError Term :=
  let wrongType : NormalizeError := .doc (.metadataType key shape.describe value span)
  let inText (e : TextError) : NormalizeError := .doc (.encoding e span)
  match shape with
  | .text =>
    if value.isText then (normalizeText value |>.map .bytes).mapError inText
    else .error wrongType
  | .textList =>
    match value with
    | .list items | .tuple items =>
      if items.all isText then (normalizeTexts items |>.map .tuple).mapError inText
      else .error wrongType
    | _ => .error wrongType
  | .unknown name => .error (.unknownShape name key)

/-- The error about a key that is not of the schema. -/
def keyError (key : Term) (error : Text → DocError) : NormalizeError :=
  match key.plain with
  | .ok name => .doc (error name)
  | .error e => .tooLong e

/-- The value of a key that is not of the schema. -/
def normalizeUnshaped (key value : Term) (span : Span) : Except NormalizeError Term :=
  if ! value.isStorable then
    .error (keyError key fun name => .metadataType name "a chunk term" value span)
  else if key.isEncodable && value.isEncodable then .ok value
  else .error (keyError key fun name => .encoding (.metadataNotEncodable name) span)

/-- The value of a metadata key. -/
def normalizeValue (schema : Schema) (key value : Term) (span : Span) :
    Except NormalizeError Term :=
  match key.chars? with
  | some name =>
    match Schema.get? name schema with
    | some shape => normalizeShaped name shape value span
    | Option.none => normalizeUnshaped key value span
  | Option.none => normalizeUnshaped key value span

end Term

/-- The normal form of metadata: the same keys with normal values. -/
def Items.normalize (schema : Schema) (span : Span) : Items → Except NormalizeError Items
  | [] => .ok []
  | (key, value) :: rest => do
    let normal ← Term.normalizeValue schema key value span
    return (key, normal) :: (← normalize schema span rest)

/-- The normal form of content. -/
def Content.normalize (span : Span) : Content → Except NormalizeError Content
  | .authored t =>
    match t.normalizeText with
    | .ok data => .ok (.authored (.bytes data))
    | .error e => .error (.doc (.encoding e span))
  | other => .ok other

/-- The normal form of an entry.  Errors are about its line in the source. -/
def Entry.normalize (schema : Schema) (source? : Option Text) (e : Entry) :
    Except NormalizeError Entry := do
  let span : Span :=
    { Span.unknown with file? := source?, line? := if e.line = 0 then none else some e.line }
  let content ← e.content.normalize span
  let metadata ← e.metadata.normalize schema span
  return { e with content, metadata }

end ModuleDocs
