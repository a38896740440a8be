import ModuleDocs.Entry
import ModuleDocs.Span

/-!
# Events

A source is a sequence of events about the module and its entities: a
documentation text, a metadata map, or a declaration.  `Contribution` is what an
event adds to what is known about its entity.
-/

namespace ModuleDocs

/-- What a documentation event carries: a value that should be a text, or a content. -/
inductive Payload where
  | value (t : Term)
  | content (c : Content)
deriving DecidableEq, Repr

inductive Event where
  | moduleDoc (payload : Payload) (span : Span)
  | moduleMeta (metadata : Term) (span : Span)
  | declaration (ref : EntityRef) (span : Span)
  | entityDoc (ref : EntityRef) (payload : Payload) (span : Span)
  | entityMeta (ref : EntityRef) (metadata : Term) (span : Span)
  /-- A value that is no event. -/
  | foreign (value : Term)
deriving DecidableEq, Repr

inductive ContributionKind where
  | declaration
  | doc
  | metadata
  /-- A word that names no kind.  Only the line of such a contribution counts. -/
  | unknown (name : Text)
deriving DecidableEq, Repr

namespace ContributionKind

def name : ContributionKind → Text
  | .declaration => "decl"
  | .doc => "doc"
  | .metadata => "meta"
  | .unknown name => name

def ofName (name : Text) : ContributionKind :=
  if name = ContributionKind.declaration.name then .declaration
  else if name = ContributionKind.doc.name then .doc
  else if name = ContributionKind.metadata.name then .metadata
  else .unknown name

end ContributionKind

structure Contribution where
  kind : ContributionKind
  span : Span
  content? : Option Content
  metadata? : Option Items
deriving DecidableEq, Repr

namespace Contribution

def ofDeclaration (span : Span) : Contribution := ⟨.declaration, span, none, none⟩

def ofContent (content : Content) (span : Span) : Contribution := ⟨.doc, span, some content, none⟩

def ofMetadata (items : Items) (span : Span) : Contribution := ⟨.metadata, span, none, some items⟩

/-! ## Merging -/

/-- Metadata maps one after the other: of each key the last value counts, and the first
place. -/
def mergeMetadata (maps : List Items) : Items := maps.foldl Items.update []

/-- The content of the last contribution that has one. -/
def mergeContent (contributions : List Contribution) : Content :=
  contributions.foldl
    (fun content c => if c.kind = .doc then c.content?.getD content else content) .undocumented

/-- The metadata maps in order. -/
def metadataMaps (contributions : List Contribution) : List Items :=
  contributions.filterMap fun c => if c.kind = .metadata then c.metadata? else none

/-- The line of the last declaration, or else of the first contribution, of those that
have one. -/
def mergeLine (contributions : List Contribution) : Int :=
  contributions.foldl
    (fun line c =>
      match c.span.line? with
      | some own => if c.kind = .declaration ∨ line = 0 then own else line
      | none => line) 0

/-- The entry that contributions make together, before its texts are normalized. -/
def merge (ref : EntityRef) (contributions : List Contribution) (exported : Bool) : Entry where
  ref := ref
  content := mergeContent contributions
  metadata := mergeMetadata (metadataMaps contributions)
  exported := exported
  line := mergeLine contributions

end Contribution

end ModuleDocs
