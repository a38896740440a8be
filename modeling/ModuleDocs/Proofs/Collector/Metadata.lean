import Mathlib
import ModuleDocs.Proofs.Collector.Table
import ModuleDocs.Proofs.Entry.Canonical
import ModuleDocs.Proofs.Term.Part

/-!
# What the entries of a table hold

Metadata is `Items.IsKeyed P` when its keys are texts, no two of them equal, and all parts
of its values have the property `P`.  Taking a map from an event, merging maps and
normalizing them keep this (`isKeyed_of_metadataOf`, `isKeyed_mergeMetadata`,
`isKeyed_normalize`), and so it holds of all entries of a table
(`forall_entries_of_table`), as does what all lines of the contributions have in common.
-/

namespace ModuleDocs

variable {P : Term → Prop} {L : Int → Prop}

/-! ## Items -/

namespace Items

/-- Items with texts as keys, no two of them equal, and values whose parts all have the
property. -/
structure IsKeyed (P : Term → Prop) (items : Items) : Prop where
  texts : ∀ item ∈ items, ∃ t, item.1 = .text t
  distinct : items.Pairwise fun a b => a.1.keyEq b.1 = false
  values : ∀ item ∈ items, item.2.Every P

theorem isKeyed_nil : IsKeyed P [] := ⟨by simp, List.Pairwise.nil, by simp⟩

theorem IsKeyed.update {items more : Items} (h : IsKeyed P items) (hmore : IsKeyed P more) :
    IsKeyed P (items.update more) := by
  have hboth := forall_update (K := fun key => ∃ t, key = Term.text t) (V := Term.Every P)
    (fun item hitem => ⟨h.texts item hitem, h.values item hitem⟩)
    (fun item hitem => ⟨hmore.texts item hitem, hmore.values item hitem⟩)
  exact ⟨fun item hitem => (hboth item hitem).1,
    keysDiffer_map_fst.1 (keysDiffer_update (keysDiffer_map_fst.2 h.distinct)),
    fun item hitem => (hboth item hitem).2⟩

end Items

/-- The form of a key that is a text or an atom is the text. -/
theorem Term.keyForm?_of_chars? {key : Term} {t : Text} (h : key.chars? = some t) :
    key.keyForm? = some (.text t) := by
  cases key <;> simp_all [Term.chars?, Term.keyForm?]

namespace Collector

theorem forall₂_of_keyed {span : Span} {items out : Items} (h : keyed span items = .ok out) :
    List.Forall₂ (fun item item' => ∃ t, item.1.chars? = some t ∧ item' = (.text t, item.2))
      items out := by
  induction items generalizing out with
  | nil =>
    cases h
    exact .nil
  | cons item rest ih =>
    rw [keyed] at h
    split at h
    · rename_i t ht
      obtain ⟨others, hothers, rfl⟩ := Result.bind_pure_eq_ok_iff.1 h
      exact .cons ⟨t, ht, rfl⟩ (ih hothers)
    · split at h <;> cases h

/-- The metadata of an event has texts as keys. -/
theorem isKeyed_of_metadataOf {items out : Items} {span : Span} (hdict : items.IsDict)
    (hvalues : ∀ item ∈ items, item.2.Every P) (h : metadataOf (.map items) span = .ok out) :
    out.IsKeyed P := by
  have hkeyed := forall₂_of_keyed h
  refine ⟨fun item hitem => ?_, ?_, fun item hitem => ?_⟩
  · obtain ⟨_, _, t, _, rfl⟩ := Lists.exists_left hkeyed item hitem
    exact ⟨t, rfl⟩
  · refine Lists.pairwise_right hkeyed hdict.distinct ?_
    rintro a a' b b' ⟨t, ht, rfl⟩ ⟨t', ht', rfl⟩ hne
    rw [Term.keyEq, Term.keyForm?_of_chars? ht, Term.keyForm?_of_chars? ht'] at hne
    exact hne
  · obtain ⟨item', hitem', t, _, rfl⟩ := Lists.exists_left hkeyed item hitem
    exact hvalues item' hitem'

end Collector

/-! ## Contributions -/

namespace Contribution

/-- Metadata with texts as keys, and a line with a property. -/
structure IsSound (P : Term → Prop) (L : Int → Prop) (x : Contribution) : Prop where
  metadata : ∀ items ∈ x.metadata?, Items.IsKeyed P items
  line : ∀ line ∈ x.span.line?, L line

variable {contributions : List Contribution}

theorem isKeyed_mergeMetadata {maps : List Items} (h : ∀ items ∈ maps, Items.IsKeyed P items) :
    Items.IsKeyed P (mergeMetadata maps) := by
  exact List.foldlRecOn maps _ Items.isKeyed_nil fun done hdone items hitems =>
    hdone.update (h items hitems)

theorem isKeyed_metadataMaps (h : ∀ x ∈ contributions, x.IsSound P L) :
    ∀ items ∈ metadataMaps contributions, Items.IsKeyed P items := by
  intro items hitems
  obtain ⟨x, hx, hmap⟩ := List.mem_filterMap.1 hitems
  split at hmap
  · exact (h x hx).metadata items (Option.mem_def.2 hmap)
  · cases hmap

theorem mergeLine_of_isSound (hzero : L 0) (h : ∀ x ∈ contributions, x.IsSound P L) :
    L (mergeLine contributions) := by
  refine List.foldlRecOn contributions _ hzero fun line hline x hx => ?_
  split
  · rename_i own hown
    split
    · exact (h x hx).line own (Option.mem_def.2 hown)
    · exact hline
  · exact hline

end Contribution

/-! ## Normal form -/

/-- The property holds of the values that normalizing makes. -/
structure IsNormal (P : Term → Prop) : Prop where
  bytes : ∀ data t, Utf8.decode data = .ok t → P (.bytes data)
  tuple : ∀ items, P (.tuple items)

namespace Term

/-- A value as it is made for a key of a schema: a text or several, in UTF-8. -/
inductive IsShaped : Term → Prop
  | text {data : Bytes} {chars : Text} (h : Utf8.decode data = .ok chars) : IsShaped (.bytes data)
  | textList {parts : List Bytes} (h : ∀ data ∈ parts, ∃ chars, Utf8.decode data = .ok chars) :
    IsShaped (.tuple (parts.map .bytes))

theorem IsShaped.every (hP : IsNormal P) {t : Term} (h : t.IsShaped) : t.Every P := by
  cases h with
  | text hdecode => exact hP.bytes _ _ hdecode
  | textList hparts =>
    refine ⟨hP.tuple _, everyItem_iff.2 fun t ht => ?_⟩
    obtain ⟨data, hdata, rfl⟩ := List.mem_map.1 ht
    obtain ⟨chars, hchars⟩ := hparts data hdata
    exact hP.bytes data chars hchars

/-- The two ways in which a value becomes normal: a value of a key of the schema is made anew,
any other is let through. -/
inductive Normalizes (schema : Schema) (key value : Term) : Term → Prop
  | shaped {name : Text} {shape : Shape} {normal : Term} (hkey : key.chars? = some name)
    (hshape : schema.get? name = some shape) (hnormal : normal.IsShaped) :
    Normalizes schema key value normal
  | unshaped (hkey : ∀ name, key.chars? = some name → schema.get? name = Option.none)
    (hstorable : value.isStorable = true) (hname : key.isEncodable = true)
    (hvalue : value.isEncodable = true) : Normalizes schema key value value

theorem normalizes_of_normalizeValue {schema : Schema} {key value normal : Term} {span : Span}
    (h : normalizeValue schema key value span = .ok normal) :
    Normalizes schema key value normal := by
  cases normalizeValue_eq_ok_iff.1 h with
  | text hkey hshape _ hdata =>
    obtain ⟨chars, _, hchars⟩ := hdata
    exact .shaped hkey hshape (.text hchars)
  | textList hkey hshape _ _ hparts =>
    refine .shaped hkey hshape (.textList fun data hdata => ?_)
    obtain ⟨_, _, chars, _, hchars⟩ := Lists.exists_left hparts data hdata
    exact ⟨chars, hchars⟩
  | free hkey hstorable hencodable => exact .unshaped hkey hstorable hencodable.1 hencodable.2

theorem every_normalizeValue (hP : IsNormal P) {schema : Schema} {key value normal : Term}
    {span : Span} (hvalue : value.Every P)
    (h : normalizeValue schema key value span = .ok normal) : normal.Every P := by
  cases normalizes_of_normalizeValue h with
  | shaped _ _ hnormal => exact hnormal.every hP
  | unshaped => exact hvalue

end Term

/-- Each value is made normal for its key, and the keys stay as they are. -/
theorem Items.forall₂_of_normalize {schema : Schema} {span : Span} {items out : Items}
    (h : Items.normalize schema span items = .ok out) :
    List.Forall₂ (fun item item' => item'.1 = item.1 ∧
      Term.normalizeValue schema item.1 item.2 span = .ok item'.2) items out := by
  refine (normalize_eq_ok_iff.1 h).imp fun item item' hitem => ?_
  exact ⟨hitem.1, Term.normalizeValue_eq_ok_iff.2 hitem.2⟩

theorem Items.distinct_normalize {schema : Schema} {span : Span} {items out : Items}
    (hitems : items.Pairwise fun a b => a.1.keyEq b.1 = false)
    (h : Items.normalize schema span items = .ok out) :
    out.Pairwise fun a b => a.1.keyEq b.1 = false := by
  refine Lists.pairwise_right (Items.forall₂_of_normalize h) hitems ?_
  rintro a a' b b' ⟨hab, _⟩ ⟨hab', _⟩ hne
  rwa [hab, hab']

theorem Items.isKeyed_normalize (hP : IsNormal P) {schema : Schema} {span : Span} {items out : Items}
    (hitems : items.IsKeyed P) (h : Items.normalize schema span items = .ok out) :
    out.IsKeyed P := by
  have hsame := Items.forall₂_of_normalize h
  refine ⟨fun item hitem => ?_, Items.distinct_normalize hitems.distinct h, fun item hitem => ?_⟩
  · obtain ⟨item', hitem', hkey, _⟩ := Lists.exists_left hsame item hitem
    exact hkey ▸ hitems.texts item' hitem'
  · obtain ⟨item', hitem', _, hnormal⟩ := Lists.exists_left hsame item hitem
    exact Term.every_normalizeValue hP (hitems.values item' hitem') hnormal

/-! ## Tables -/

namespace Collector

variable {c : Collector} {schema : Schema} {exports : List (Text × Int)} {t : DocTable}

theorem holds_of_mem_history {line : EntityRef × List Contribution} (h : line ∈ c.history) :
    ∀ x ∈ line.2, c.Holds line.1 x := by
  obtain ⟨⟨ref, known⟩, hline, rfl⟩ := List.mem_map.1 h
  exact fun x hx => ⟨known, hline, List.mem_reverse.1 hx⟩

theorem holds_of_mem_contributions {ref : EntityRef} :
    ∀ x ∈ c.contributions ref, c.Holds ref x := by
  intro x hx
  unfold contributions at hx
  cases hfind : c.history.find? fun line => line.1 = ref with
  | none => simp [hfind] at hx
  | some line =>
    have hsame : line.1 = ref := by simpa using List.find?_some hfind
    rw [hfind] at hx
    exact hsame ▸ holds_of_mem_history (List.mem_of_find?_eq_some hfind) x hx

theorem isKeyed_of_finish (hP : IsNormal P) (hzero : L 0) {ref : EntityRef}
    {contributions : List Contribution} (hsound : ∀ x ∈ contributions, x.IsSound P L) {e : Entry}
    (h : c.finish schema exports ref contributions = .ok e) :
    e.metadata.IsKeyed P ∧ L e.line := by
  obtain ⟨_, _, hline, _, span, hmetadata⟩ := finish_eq_ok h
  refine ⟨Items.isKeyed_normalize hP ?_ hmetadata, hline ▸ ?_⟩
  · exact Contribution.isKeyed_mergeMetadata (Contribution.isKeyed_metadataMaps hsound)
  · exact Contribution.mergeLine_of_isSound hzero hsound

/-- What all contributions have in common shows in all entries. -/
theorem forall_entries_of_table (hP : IsNormal P) (hzero : L 0)
    (hsound : ∀ ref x, c.Holds ref x → x.IsSound P L) (h : c.table schema exports = .ok t) :
    ∀ e ∈ t.module :: t.entries, e.metadata.IsKeyed P ∧ L e.line := by
  refine forall_entries_of_finish h ?_ ?_
  · intro e hfinish
    exact isKeyed_of_finish hP hzero (fun x hx => hsound _ x (holds_of_mem_contributions x hx))
      hfinish
  · intro line hline e hfinish
    have hhistory := (List.mem_filter.1 hline).1
    exact isKeyed_of_finish hP hzero
      (fun x hx => hsound _ x (holds_of_mem_history hhistory x hx)) hfinish

end Collector

end ModuleDocs
