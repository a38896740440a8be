import ModuleDocs.Collector

/-!
# Calls on one collector

A program has one collector, which its calls change in place, and a call that ends in an
error leaves what it had changed by then.  `Collector.Update` gives the two calls in this
way, statement by statement: the place of a text is recorded before the text is, and
`finalize` closes the collector before it looks at anything else.

A session is a sequence of calls of which any may be refused (`Collector.session`).
-/

namespace ModuleDocs.Collector

/-! ## Calls that change the collector in place -/

/-- A call that changes the collector in place.  What was changed before an error stays
changed. -/
abbrev Update := ExceptT UnitError (StateM Collector)

namespace Update

/-- A step that only looks at its arguments. -/
def ofResult {α : Type} (x : Except UnitError α) : Update α := ExceptT.mk (pure x)

def append (ref : EntityRef) (contribution : Contribution) : Update Unit :=
  modify fun c => c.add ref contribution

/-- Records the text of an entity, its place before the text itself. -/
def recordDoc (ref : EntityRef) (payload : Payload) (span : Span) : Update Unit := do
  match (← get).docSpan? ref with
  | some previous => throw (.doc (.duplicate ref previous span))
  | none =>
    let content ← ofResult ((contentOf payload span).mapError .doc)
    modify fun c => { c with docSpans := c.docSpans ++ [(ref, span)] }
    append ref (.ofContent content span)

def recordMetadata (ref : EntityRef) (metadata : Term) (span : Span) : Update Unit := do
  let items ← ofResult (metadataOf metadata span)
  append ref (.ofMetadata items span)

/-- Takes an event. -/
def observe (event : Event) : Update Unit := do
  let c ← get
  if c.isFinalized then throw (.finalized c.module)
  else
    match event with
    | .moduleDoc payload span => recordDoc c.moduleRef payload span
    | .moduleMeta metadata span => recordMetadata c.moduleRef metadata span
    | .declaration ref span => do append (← ofResult (c.ownRef ref)) (.ofDeclaration span)
    | .entityDoc ref payload span => do recordDoc (← ofResult (c.ownRef ref)) payload span
    | .entityMeta ref metadata span => do
      recordMetadata (← ofResult (c.ownRef ref)) metadata span
    | .foreign value => throw (.unsupportedEvent value.typeName)

/-- Closes the collector, and makes its table then. -/
def finalize (schema : Schema) (exports : List (Text × Int)) : Update DocTable := do
  let c ← get
  if c.isFinalized then throw (.finalized c.module)
  else
    modify fun c => { c with isFinalized := true }
    ofResult ((← get).table schema exports)

end Update

/-! ## Sessions -/

/-- A call on a collector. -/
inductive Call where
  | observe (event : Event)
  | finalize (schema : Schema) (exports : List (Text × Int))

/-- What a call answers: a table, if it asked for one. -/
abbrev Answer := Except UnitError (Option DocTable)

namespace Call

/-- Makes a call. -/
def run (c : Collector) : Call → Answer × Collector
  | .observe event => ((Update.observe event).run c).map (Except.map fun _ => none) id
  | .finalize schema exports => ((Update.finalize schema exports).run c).map (Except.map some) id

/-- Whether the call asks for a table. -/
def isFinalize : Call → Bool
  | .observe _ => false
  | .finalize _ _ => true

/-- The events that a call with this answer has brought. -/
def taken : Call → Answer → List Event
  | .observe event, .ok _ => [event]
  | _, _ => []

end Call

/-- Makes calls one after the other, whatever they answer. -/
def session (c : Collector) : List Call → List (Call × Answer) × Collector
  | [] => ([], c)
  | call :: rest =>
    let (answer, c) := call.run c
    let (others, c) := session c rest
    ((call, answer) :: others, c)

/-- The events that were taken, by the calls and their answers. -/
def takenIn (transcript : List (Call × Answer)) : List Event :=
  transcript.flatMap fun (call, answer) => call.taken answer

end ModuleDocs.Collector
