import Mathlib
import ModuleDocs.Proofs.Collector.Documents
import ModuleDocs.Proofs.Term.Update

/-!
# What contributions come to

`Contribution.IsMerged ref cs exported e` says of the entry `e` what it has from each of the
contributions `cs`: the content of the text, the metadata of all maps with the last value of each
key in its first place, and the line of a declaration rather than of anything else.  The entry that
contributions are merged into is so (`Contribution.merge_isMerged`).

Three laws of its parts stand behind this.  A list of maps is merged as its two halves are
(`Contribution.mergeMetadata_append`), so that what a fragment brings can be merged on its own.
What is known of the line after some contributions, one more changes as `mergeLine_append_singleton`
says, and `mergeLine_eq` is what this leads to.  The content needs at most one text
(`mergeContent_eq_find?`).
-/

namespace ModuleDocs

namespace Contribution

variable {cs : List Contribution} {maps : List Items}

/-! ## Metadata -/

theorem mergeMetadata_append_singleton (maps : List Items) (items : Items) :
    mergeMetadata (maps ++ [items]) = (mergeMetadata maps).update items := by
  unfold mergeMetadata
  rw [List.foldl_append]
  rfl

theorem keysDiffer_mergeMetadata (maps : List Items) :
    Items.KeysDiffer ((mergeMetadata maps).map (·.1)) := by
  induction maps using List.reverseRecOn with
  | nil => exact List.Pairwise.nil
  | append_singleton maps items ih =>
    rw [mergeMetadata_append_singleton]
    exact Items.keysDiffer_update ih

/-- Maps are merged as the first and the last of them are, and then these two. -/
theorem mergeMetadata_append (front back : List Items) :
    mergeMetadata (front ++ back) = mergeMetadata [mergeMetadata front, mergeMetadata back] := by
  have hpair : ∀ items more : Items, Items.KeysDiffer (items.map (·.1)) →
      mergeMetadata [items, more] = items.update more := by
    intro items more hitems
    change (Items.update [] items).update more = _
    rw [← Items.ofPairs_eq_update, Items.ofPairs_of_pairwise (Items.keysDiffer_map_fst.1 hitems)]
  rw [hpair _ _ (keysDiffer_mergeMetadata front)]
  induction back using List.reverseRecOn with
  | nil => simp [mergeMetadata, Items.update]
  | append_singleton back items ih =>
    rw [← List.append_assoc, mergeMetadata_append_singleton, mergeMetadata_append_singleton, ih,
      Items.update_assoc _ (keysDiffer_mergeMetadata back)]

/-- Each key has the value that the last of the maps that hold it gives it. -/
theorem get?_mergeMetadata (hmaps : ∀ items ∈ maps, items.IsDict) (key : Term) :
    Items.get? key (mergeMetadata maps) = maps.reverse.findSome? (Items.get? key) := by
  induction maps using List.reverseRecOn with
  | nil => rfl
  | append_singleton maps items ih =>
    have hitems : items.IsDict := hmaps items (by simp)
    rw [mergeMetadata_append_singleton, Items.get?_update (Items.keysDiffer_map_fst.2 hitems.distinct),
      ih fun m hm => hmaps m (List.mem_append_left _ hm), List.reverse_append]
    cases h : Items.get? key items <;> simp [h]

/-- The keys are those of all maps, each in the place where one equal to it came first. -/
theorem map_fst_mergeMetadata (maps : List Items) : (mergeMetadata maps).map (·.1) =
    (maps.flatten.map (·.1)).eraseDupsBy Term.keyEq := by
  rw [← Items.map_fst_update_nil]
  congr 1
  unfold mergeMetadata Items.update
  rw [List.foldl_flatten]

theorem metadataMaps_append (a b : List Contribution) :
    metadataMaps (a ++ b) = metadataMaps a ++ metadataMaps b := List.filterMap_append

/-! ## Contents -/

/-- Of contributions of which at most one is a text, the content is that of the text. -/
theorem mergeContent_eq_find? (htexts : (cs.filter isDoc).length ≤ 1) :
    mergeContent cs = ((cs.find? isDoc).bind (·.content?)).getD .undocumented := by
  rw [mergeContent_eq, ← List.head?_filter]
  cases h : cs.filter isDoc with
  | nil => rfl
  | cons x rest =>
    rw [h, List.length_cons] at htexts
    rw [List.eq_nil_of_length_eq_zero (by omega : rest.length = 0)]
    rfl

/-! ## Lines -/

/-- The line of a declaration. -/
def declaredLine? (x : Contribution) : Option Int :=
  if x.kind = .declaration then x.span.line? else none

/-- The line of the last declaration that has one, or else of the first contribution that does. -/
def knownLine? (cs : List Contribution) : Option Int :=
  (cs.reverse.findSome? declaredLine?).or (cs.findSome? (·.span.line?))

/-- Whatever lines are known, they are positive. -/
def HasPositiveLines (cs : List Contribution) : Prop :=
  ∀ x ∈ cs, ∀ line, x.span.line? = some line → 0 < line

theorem mergeLine_append_singleton (cs : List Contribution) (x : Contribution) :
    mergeLine (cs ++ [x]) =
      match x.span.line? with
      | some own => if x.kind = .declaration ∨ mergeLine cs = 0 then own else mergeLine cs
      | none => mergeLine cs := by
  unfold mergeLine
  rw [List.foldl_append]
  rfl

theorem knownLine?_append_singleton (cs : List Contribution) (x : Contribution) :
    knownLine? (cs ++ [x]) =
      (declaredLine? x).or ((knownLine? cs).or x.span.line?) := by
  unfold knownLine?
  rw [List.reverse_append, List.reverse_singleton, List.singleton_append, List.findSome?_cons,
    List.findSome?_append, List.findSome?_singleton]
  cases declaredLine? x <;> simp [Option.or_assoc]

theorem pos_of_knownLine? (h : HasPositiveLines cs) {line : Int} (hline : knownLine? cs = some line) :
    0 < line := by
  rcases Option.or_eq_some_iff.1 hline with hdeclared | ⟨_, hfirst⟩
  · obtain ⟨x, hx, hown⟩ := List.exists_of_findSome?_eq_some hdeclared
    unfold declaredLine? at hown
    split at hown
    · exact h x (List.mem_reverse.1 hx) line hown
    · cases hown
  · obtain ⟨x, hx, hown⟩ := List.exists_of_findSome?_eq_some hfirst
    exact h x hx line hown

/-- The line of the entry is the one known, or else zero. -/
theorem mergeLine_eq (h : HasPositiveLines cs) : mergeLine cs = (knownLine? cs).getD 0 := by
  induction cs using List.reverseRecOn with
  | nil => rfl
  | append_singleton cs x ih =>
    have hcs : HasPositiveLines cs := fun y hy => h y (List.mem_append_left _ hy)
    rw [mergeLine_append_singleton, knownLine?_append_singleton, ih hcs]
    cases hline : x.span.line? with
    | none => simp [declaredLine?, hline]
    | some own =>
      by_cases hdeclared : x.kind = .declaration
      · simp [declaredLine?, hdeclared, hline]
      · cases hknown : knownLine? cs with
        | none => simp [declaredLine?, hdeclared]
        | some line =>
          -- A line that is known is not zero, and so it stands for no missing one.
          have hne : line ≠ 0 := (pos_of_knownLine? hcs hknown).ne'
          simp [declaredLine?, hdeclared, hne]

/-! ## Entries -/

/-- What an entry has from the contributions that are merged into it. -/
structure IsMerged (ref : EntityRef) (cs : List Contribution) (exported : Bool) (e : Entry) :
    Prop where
  ref : e.ref = ref
  exported : e.exported = exported
  content : e.content = ((cs.find? isDoc).bind (·.content?)).getD .undocumented
  value : ∀ key, Items.get? key e.metadata = (metadataMaps cs).reverse.findSome? (Items.get? key)
  keys : e.metadata.map (·.1) = ((metadataMaps cs).flatten.map (·.1)).eraseDupsBy Term.keyEq
  line : e.line = (knownLine? cs).getD 0

/-- Contributions with one text at most and with positive lines are merged into an entry with the
content of the text, the last values of all keys and the line of the last declaration.  Wherever
they are divided, the metadata is that of the two parts merged. -/
theorem merge_isMerged (ref : EntityRef) (cs : List Contribution) (exported : Bool)
    (htexts : (cs.filter isDoc).length ≤ 1) (hlines : HasPositiveLines cs)
    (hmaps : ∀ items ∈ metadataMaps cs, items.IsDict) :
    IsMerged ref cs exported (merge ref cs exported) ∧
    ∀ a b, cs = a ++ b → (merge ref cs exported).metadata =
      mergeMetadata [(merge ref a exported).metadata, (merge ref b exported).metadata] := by
  constructor
  · exact {
      ref := rfl
      exported := rfl
      content := mergeContent_eq_find? htexts
      value := get?_mergeMetadata hmaps
      keys := map_fst_mergeMetadata (metadataMaps cs)
      line := mergeLine_eq hlines }
  · intro a b hcs
    subst hcs
    change mergeMetadata (metadataMaps (a ++ b)) = _
    rw [metadataMaps_append]
    exact mergeMetadata_append _ _

/-- A text before any line is known, metadata on both sides of a declaration, and a declaration
without a place. -/
def scatteredContributions : List Contribution :=
  [ofContent .hidden Span.unknown,
    ofMetadata [(.text "since", .text "1"), (.text "equiv", .text "f/1")] (Span.at_ none 2 1),
    ofDeclaration (Span.at_ none 5 1),
    ofMetadata [(.atom "equiv", .text "g/1"), (.text "since", .text "2")] (Span.at_ none 7 1),
    ofDeclaration Span.unknown]

theorem merge_isMerged_scatteredContributions :
    (scatteredContributions.filter isDoc).length ≤ 1 ∧ HasPositiveLines scatteredContributions ∧
    (∀ items ∈ metadataMaps scatteredContributions, items.IsDict) ∧
    IsMerged ⟨.function, "f", 1⟩ scatteredContributions true
      ⟨⟨.function, "f", 1⟩, .hidden, [(.text "since", .text "2"), (.text "equiv", .text "g/1")],
        true, 5⟩ := by
  have htexts : (scatteredContributions.filter isDoc).length ≤ 1 := by decide
  have hlines : HasPositiveLines scatteredContributions := by
    simp [HasPositiveLines, scatteredContributions, ofContent, ofMetadata, ofDeclaration,
      Span.unknown, Span.at_]
  have hmaps : ∀ items ∈ metadataMaps scatteredContributions, items.IsDict := by decide
  exact ⟨htexts, hlines, hmaps,
    (merge_isMerged ⟨.function, "f", 1⟩ scatteredContributions true htexts hlines hmaps).1⟩

end Contribution

end ModuleDocs
