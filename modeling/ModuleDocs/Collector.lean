import ModuleDocs.Event
import ModuleDocs.Normalize

/-!
# Collecting events

A collector holds, for each entity of one unit in the order in which they first
came, what was contributed to it.  It refuses a second text for an entity, because
only here both places are known.  An event that is refused changes nothing.

`Collector.finalize` makes the table of the unit.  After it the collector takes no
more events.
-/

namespace ModuleDocs

/-- Why a unit gives no table. -/
inductive UnitError where
  | doc (error : DocError)
  | finalized (module : Text)
  | foreignModule (name module : Text)
  | unsupportedEvent (typeName : Text)
  | unknownShape (shape key : Text)
  | formatNotUtf8 (error : Utf8.Malformed)
  /-- Something is wrong with a key that cannot be named. -/
  | tooLong (error : Decimal.TooLong)
deriving DecidableEq, Repr

namespace UnitError

def message : UnitError → Text
  | .doc error => error.message
  | .finalized module => ("unit '" : Text) ++ module ++ ("' is already finalized" : Text)
  | .foreignModule name module =>
    ("entity event for foreign module '" : Text) ++ name ++ ("' in unit '" : Text) ++ module
      ++ ("'" : Text)
  | .unsupportedEvent name => ("unsupported documentation event " : Text) ++ name
  | .unknownShape shape key =>
    ("unknown metadata shape '" : Text) ++ shape ++ ("' for key '" : Text) ++ key ++ ("'" : Text)
  | .formatNotUtf8 error => error.message
  | .tooLong error => error.message

def ofNormalize : NormalizeError → UnitError
  | .doc error => .doc error
  | .unknownShape shape key => .unknownShape shape key
  | .tooLong error => .tooLong error

end UnitError

/-- What is known about one unit. -/
structure Collector where
  module : Text
  source? : Option Text
  /-- Of each entity the last contribution comes first. -/
  log : List (EntityRef × List Contribution)
  docSpans : List (EntityRef × Span)
  isFinalized : Bool
deriving DecidableEq, Repr

namespace Collector

/-- A collector to which nothing but the module is known. -/
def new (module : Text) (source? : Option Text) : Collector :=
  ⟨module, source?, [(.ofModule module, [])], [], false⟩

def moduleRef (c : Collector) : EntityRef := .ofModule c.module

/-- The entities in the order in which they first came. -/
def refs (c : Collector) : List EntityRef := c.log.map (·.1)

/-- The entities in the order in which they first came, each with what was contributed
to it, in order. -/
def history (c : Collector) : List (EntityRef × List Contribution) :=
  c.log.map fun (ref, known) => (ref, known.reverse)

/-- What was contributed to an entity, in order. -/
def contributions (c : Collector) (ref : EntityRef) : List Contribution :=
  ((c.history.find? fun line => line.1 = ref).map (·.2)).getD []

/-- Where the text of an entity is. -/
def docSpan? (c : Collector) (ref : EntityRef) : Option Span :=
  (c.docSpans.find? fun line => line.1 = ref).map (·.2)

/-! ## Events -/

/-- Adds a contribution to its entity, which comes last if it is new. -/
def addTo (ref : EntityRef) (contribution : Contribution) :
    List (EntityRef × List Contribution) → List (EntityRef × List Contribution)
  | [] => [(ref, [contribution])]
  | (r, known) :: rest =>
    if r = ref then (r, contribution :: known) :: rest
    else (r, known) :: addTo ref contribution rest

def add (c : Collector) (ref : EntityRef) (contribution : Contribution) : Collector :=
  { c with log := addTo ref contribution c.log }

/-- The content that a documentation event gives. -/
def contentOf (payload : Payload) (span : Span) : Except DocError Content :=
  let value : Term :=
    match payload with
    | .value t => t
    | .content (.foreign t) => t
    | .content _ => .foreign "NoDoc"
  match payload with
  | .content (.authored t) => .ok (.authored t)
  | .content .hidden => .ok .hidden
  | _ =>
    if value.isText || value.chars?.isSome then .ok (.authored value)
    else .error (.encoding (.badPayload value.typeName) span)

/-- The items of a metadata event with texts as keys. -/
def keyed (span : Span) : Items → Except UnitError Items
  | [] => .ok []
  | (key, value) :: rest =>
    match key.chars? with
    | some t => do return (.text t, value) :: (← keyed span rest)
    | none =>
      match key.display with
      | .ok name => .error (.doc (.metadataType name "keyed by an atom or string" key span))
      | .error e => .error (.tooLong e)

/-- The metadata that a metadata event gives. -/
def metadataOf (metadata : Term) (span : Span) : Except UnitError Items :=
  match metadata with
  | .map items => keyed span items
  | other => .error (.doc (.metadataType "<metadata>" "a map" other span))

/-- A module may only be the unit's own. -/
def ownRef (c : Collector) (ref : EntityRef) : Except UnitError EntityRef :=
  if ref.kind = .module ∧ ref ≠ c.moduleRef then .error (.foreignModule ref.name c.module)
  else .ok ref

/-- Takes a text of an entity, unless it has one. -/
def observeDoc (c : Collector) (ref : EntityRef) (payload : Payload) (span : Span) :
    Except UnitError Collector :=
  match c.docSpan? ref with
  | some previous => .error (.doc (.duplicate ref previous span))
  | none => do
    let content ← (contentOf payload span).mapError .doc
    let c := c.add ref (.ofContent content span)
    return { c with docSpans := c.docSpans ++ [(ref, span)] }

/-- Takes a metadata map of an entity. -/
def observeMetadata (c : Collector) (ref : EntityRef) (metadata : Term) (span : Span) :
    Except UnitError Collector := do
  let items ← metadataOf metadata span
  return c.add ref (.ofMetadata items span)

/-- Takes an event. -/
def observe (c : Collector) (event : Event) : Except UnitError Collector :=
  if c.isFinalized then .error (.finalized c.module)
  else
    match event with
    | .moduleDoc payload span => c.observeDoc c.moduleRef payload span
    | .moduleMeta metadata span => c.observeMetadata c.moduleRef metadata span
    | .declaration ref span => do return c.add (← c.ownRef ref) (.ofDeclaration span)
    | .entityDoc ref payload span => do c.observeDoc (← c.ownRef ref) payload span
    | .entityMeta ref metadata span => do c.observeMetadata (← c.ownRef ref) metadata span
    | .foreign value => .error (.unsupportedEvent value.typeName)

/-- Takes events up to the first that is refused, and gives its error too. -/
def observeAll (c : Collector) : List Event → Except UnitError Unit × Collector
  | [] => (.ok (), c)
  | event :: rest =>
    match c.observe event with
    | .ok c => observeAll c rest
    | .error e => (.error e, c)

/-! ## The table -/

/-- The finished entry of an entity. -/
def finish (c : Collector) (schema : Schema) (exports : List (Text × Int)) (ref : EntityRef)
    (contributions : List Contribution) : Except UnitError Entry :=
  let exported := ref.kind ≠ .function || exports.contains (ref.name, ref.arity)
  ((Contribution.merge ref contributions exported).normalize schema c.source?).mapError .ofNormalize

/-- The finished entries of entities in order. -/
def finishAll (c : Collector) (schema : Schema) (exports : List (Text × Int)) :
    List (EntityRef × List Contribution) → Except UnitError (List Entry)
  | [] => .ok []
  | (ref, contributions) :: rest => do
    let entry ← c.finish schema exports ref contributions
    return entry :: (← finishAll c schema exports rest)

/-- The format that a finished module entry declares. -/
def formatOf (module : Entry) : Except UnitError (Option Text) :=
  match module.metadata.get? (.text "format") with
  | some (.bytes data) => (Utf8.decode data |>.map some).mapError .formatNotUtf8
  | _ => .ok none

/-- The table of what was collected. -/
def table (c : Collector) (schema : Schema) (exports : List (Text × Int)) :
    Except UnitError DocTable := do
  let module ← c.finish schema exports c.moduleRef (c.contributions c.moduleRef)
  let entries ← c.finishAll schema exports (c.history.filter fun line => line.1 ≠ c.moduleRef)
  let format? ← formatOf module
  return ⟨module, entries.mergeSort fun a b => ! b.ref.precedes a.ref, format?⟩

/-- The table of the unit and the collector that takes no more events. -/
def finalize (c : Collector) (schema : Schema) (exports : List (Text × Int)) :
    Except UnitError DocTable × Collector :=
  if c.isFinalized then (.error (.finalized c.module), c)
  else (c.table schema exports, { c with isFinalized := true })

end Collector

/-- The table of the events of a unit. -/
def DocTable.ofEvents (module : Text) (events : List Event) (exports : List (Text × Int))
    (schema : Schema) (source? : Option Text) : Except UnitError DocTable :=
  match (Collector.new module source?).observeAll events with
  | (.error e, _) => .error e
  | (.ok (), c) => (c.finalize schema exports).1

end ModuleDocs
