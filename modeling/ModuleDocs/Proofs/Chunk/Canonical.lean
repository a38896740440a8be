import Mathlib
import ModuleDocs.Proofs.Chunk.RoundTrip
import ModuleDocs.Proofs.Term.Canonical

/-!
# Equal tables have equal bytes

The order in which entries were put together does not show in the bytes of a chunk, nor does
the order of the items in their metadata, and neither decides whether the chunk is written
(`agree_encode`).

Entries about different entities have one order.  What is kept of two lists of entries that
are the same but for their order is therefore, side by side, the same entries
(`forall_agrees_keptEntries`); the bytes of two such entries are the same by what
`Term.agree_encodeAt` says of their metadata.
-/

namespace ModuleDocs

open Result

namespace Entry

/-- The same entries in another order, with the items of their metadata in another order. -/
def Rearranged (as bs : List Entry) : Prop := ∃ cs : List Entry, List.Forall₂ Agrees as cs ∧ cs.Perm bs

/-- The metadata of an entry is a value of the program, without keys that are no numbers. -/
structure HasPlainKeys (e : Entry) : Prop where
  value : (Term.map e.metadata).IsValue
  numbers : (Term.map e.metadata).HasNoNaNKey

theorem Agrees.isErased_eq {a b : Entry} (h : a.Agrees b) : b.isErased = a.isErased := by
  rw [isErased, isErased, h.ref, h.exported]

/-- Rearranged entries are about the same entities. -/
theorem map_ref_of_agrees {as bs : List Entry} (h : List.Forall₂ Agrees as bs) :
    bs.map (·.ref) = as.map (·.ref) := by
  induction h with
  | nil => rfl
  | cons hfirst _ ih => rw [List.map_cons, List.map_cons, hfirst.ref, ih]

theorem Rearranged.map_ref_perm {as bs : List Entry} (h : Rearranged as bs) :
    (as.map (·.ref)).Perm (bs.map (·.ref)) := by
  obtain ⟨cs, hagrees, hperm⟩ := h
  rw [← map_ref_of_agrees hagrees]
  exact hperm.map _

end Entry

namespace Chunk

variable {as bs : List Entry}

/-- Entries in one order pass the check when they do in another. -/
theorem checkEntries_eq_ok_of_perm (h : (as.map (·.ref)).Perm (bs.map (·.ref))) :
    checkEntries [] as = .ok () ↔ checkEntries [] bs = .ok () := by
  have hkinds : ∀ entries : List Entry, (∀ e ∈ entries, e.ref.kind ≠ .module) ↔
      ∀ ref ∈ entries.map (·.ref), ref.kind ≠ .module := by simp
  rw [checkEntries_eq_ok_iff, checkEntries_eq_ok_iff, hkinds, hkinds, h.nodup_iff]
  simp only [h.mem_iff, List.not_mem_nil, not_false_eq_true, implies_true, and_true]

/-- The entries that are kept of rearranged ones are the same, one beside the other. -/
theorem forall_agrees_keptEntries (h : Entry.Rearranged as bs)
    (hdistinct : (as.map (·.ref)).Nodup) :
    List.Forall₂ Entry.Agrees (keptEntries as) (keptEntries bs) := by
  have hdistinct' : (bs.map (·.ref)).Nodup := h.map_ref_perm.nodup_iff.1 hdistinct
  obtain ⟨cs, hagrees, hperm⟩ := h
  have hkept : List.Forall₂ Entry.Agrees (as.filter (! ·.isErased)) (cs.filter (! ·.isErased)) := by
    refine List.rel_filter (fun a b hab => ?_) hagrees
    simp only [hab.isErased_eq]
  obtain ⟨partners, hpartners, hpermPartners⟩ :=
    List.perm_comp_forall₂ (keptEntries_perm as) hkept
  -- Side by side with the entries kept of the first list, the others are in order as well.
  have hordered : Entry.Ordered partners := by
    apply Lists.pairwise_right hpartners (ordered_keptEntries hdistinct)
    intro a a' b b' hab hab' hprecedes
    rwa [hab.ref, hab'.ref]
  have hsame : partners = keptEntries bs := by
    apply Entry.eq_of_perm_of_ordered _ hordered (ordered_keptEntries hdistinct')
    exact hpermPartners.trans ((hperm.filter _).trans (keptEntries_perm bs).symm)
  exact hsame ▸ hpartners

/-- Entries with the same fields, and the same metadata in another order, agree. -/
theorem agree_encodeEntry {a b : Entry} (h : a.Agrees b) (hkeys : a.HasPlainKeys) :
    Agree (encodeEntry a) (encodeEntry b) := by
  have hmetadata := Term.agree_encodeAt _ _ 0 h.metadata hkeys.value hkeys.numbers
  unfold encodeEntry
  rw [h.ref, h.content, h.line]
  refine (Agree.refl _).bind fun name => ?_
  split
  · exact Agree.refl _
  split
  · exact Agree.refl _
  refine (Agree.refl _).bind fun content => ?_
  exact (hmetadata.mapError _).bind fun metadata => Agree.refl _

theorem agree_encodeEntries (h : List.Forall₂ Entry.Agrees as bs)
    (hkeys : ∀ e ∈ as, e.HasPlainKeys) : Agree (encodeEntries as) (encodeEntries bs) := by
  induction h with
  | nil => exact Agree.refl _
  | cons hfirst _ ih =>
    obtain ⟨hfirstKeys, hrestKeys⟩ := List.forall_mem_cons.1 hkeys
    rw [encodeEntries, encodeEntries]
    exact (agree_encodeEntry hfirst hfirstKeys).bind fun front =>
      (ih hrestKeys).bind fun back => Agree.refl _

/-- Rearranged entries make the same chunk, or none. -/
theorem agree_encode (module : Entry) (formatId : Text) (h : Entry.Rearranged as bs)
    (hkeys : ∀ e ∈ as, e.HasPlainKeys) :
    Agree (encode module as formatId) (encode module bs formatId) := by
  unfold encode
  split
  · exact Agree.refl _
  have hcheck := checkEntries_eq_ok_of_perm h.map_ref_perm
  by_cases hpass : checkEntries [] as = .ok ()
  · have hdistinct := (checkEntries_eq_ok_iff.1 hpass).2.1
    have hkept := forall_agrees_keptEntries h hdistinct
    have hentries := agree_encodeEntries hkept fun e he => hkeys e (keptEntries_subset as he)
    rw [hpass, hcheck.1 hpass]
    refine (Agree.refl _).bind fun _ => (Agree.refl _).bind fun format => ?_
    refine (Agree.refl _).bind fun first => ?_
    rw [hkept.length_eq]
    exact (Agree.refl _).bind fun count => hentries.bind fun others => Agree.refl _
  · have hfails : ¬ checkEntries [] bs = .ok () := fun hother => hpass (hcheck.2 hother)
    apply Agree.of_imp
    · intro data hdata
      obtain ⟨_, hchecked, _⟩ := bind_eq_ok_iff.1 hdata
      exact absurd hchecked hpass
    · intro data hdata
      obtain ⟨_, hchecked, _⟩ := bind_eq_ok_iff.1 hdata
      exact absurd hchecked hfails

/-- Two terms that differ in the order of map items only have the same bytes or none, and so
have the chunks of entries that differ in their order and in that of their metadata only. -/
theorem encode_canonical :
    (∀ a b : Term, Term.Reordered a b → a.IsValue → a.HasNoNaNKey →
      ∀ data, a.encode = .ok data ↔ b.encode = .ok data) ∧
    ∀ (module : Entry) (formatId : Text) (as bs : List Entry), Entry.Rearranged as bs →
      (∀ e ∈ as, e.HasPlainKeys) →
      ∀ data, encode module as formatId = .ok data ↔ encode module bs formatId = .ok data := by
  constructor
  · intro a b h hvalue hnumbers
    exact Term.agree_encodeAt a b 0 h hvalue hnumbers
  · intro module formatId as bs h hkeys
    exact agree_encode module formatId h hkeys

/-- A map in a map, with what is not a number as a value. -/
def nestedItems : Items :=
  [(.text "a", .map [(.int 2, .none), (.bool true, .float 0x7FF8000000000000)]),
    (.atom "b", .none)]

/-- The same items the other way round. -/
def turnedItems : Items :=
  [(.atom "b", .none),
    (.text "a", .map [(.bool true, .float 0x7FF8000000000000), (.int 2, .none)])]

/-- A type with these items and a callback. -/
def nestedEntries : List Entry :=
  [⟨⟨.type, "t", 0⟩, .hidden, nestedItems, true, 5⟩,
    ⟨⟨.callback, "c", 2⟩, .undocumented, [], true, 3⟩]

def turnedEntries : List Entry :=
  [⟨⟨.callback, "c", 2⟩, .undocumented, [], true, 3⟩,
    ⟨⟨.type, "t", 0⟩, .hidden, turnedItems, true, 5⟩]

theorem reordered_nestedItems : Term.Reordered (.map nestedItems) (.map turnedItems) := by
  refine ⟨[turnedItems[1], turnedItems[0]], List.Perm.swap _ _ _, rfl, ?_, rfl, rfl, trivial⟩
  exact ⟨[(.int 2, .none), (.bool true, .float 0x7FF8000000000000)], List.Perm.swap _ _ _,
    Term.ReorderedItems.refl _⟩

theorem rearranged_nestedEntries : Entry.Rearranged nestedEntries turnedEntries := by
  refine ⟨[turnedEntries[1], turnedEntries[0]], ?_, List.Perm.swap _ _ _⟩
  refine .cons ⟨rfl, rfl, rfl, rfl, reordered_nestedItems⟩ (.cons ?_ .nil)
  exact ⟨rfl, rfl, rfl, rfl, Term.Reordered.refl _⟩

theorem hasPlainKeys_nestedEntries : ∀ e ∈ nestedEntries, e.HasPlainKeys := by
  intro e he
  have hvalue : ∀ e ∈ nestedEntries, (Term.map e.metadata).IsValue := by decide_cbv
  have hnumbers : ∀ e ∈ nestedEntries, (Term.map e.metadata).HasNoNaNKey := by decide_cbv
  exact ⟨hvalue e he, hnumbers e he⟩

/-- The maps have the same bytes, and the entries make the same chunk. -/
theorem encode_canonical_nestedEntries :
    (∃ data, (Term.map nestedItems).encode = .ok data ∧
      (Term.map turnedItems).encode = .ok data) ∧
    ∃ data, encode sampleModule nestedEntries "text/markdown" = .ok data ∧
      encode sampleModule turnedEntries "text/markdown" = .ok data := by
  have hkeys := hasPlainKeys_nestedEntries _ List.mem_cons_self
  constructor
  · obtain ⟨data, hdata⟩ : ∃ data, (Term.map nestedItems).encode = .ok data :=
      exists_of_isOk (by cbv)
    exact ⟨data, hdata,
      (encode_canonical.1 _ _ reordered_nestedItems hkeys.value hkeys.numbers data).1 hdata⟩
  · obtain ⟨data, hdata⟩ : ∃ data, encode sampleModule nestedEntries "text/markdown" = .ok data :=
      exists_of_isOk (by cbv)
    exact ⟨data, hdata, (encode_canonical.2 sampleModule "text/markdown" _ _
      rearranged_nestedEntries hasPlainKeys_nestedEntries data).1 hdata⟩

end Chunk

end ModuleDocs
