import Mathlib
import ModuleDocs.Chunk.Encode

/-!
# The order of entries

`EntityRef.precedes` is a strict total order (`precedes_irrefl`, `precedes_trans`,
`precedes_of_not_precedes`).  Entries about different entities therefore have one order,
`Entry.eq_of_perm_of_ordered`, which is the one in which a chunk keeps them,
`Chunk.ordered_keptEntries`.
-/

namespace ModuleDocs

namespace EntityKind

/-- Different kinds have different places. -/
theorem rank_injective {a b : EntityKind} (h : a.rank = b.rank) : a = b := by
  cases a <;> cases b <;> first | rfl | cases h

/-- The places of kinds are in the order of their names. -/
theorem rank_lt_rank_iff {a b : EntityKind} : a.rank < b.rank ↔ a.name < b.name := by
  cases a <;> cases b <;> decide

end EntityKind

namespace EntityRef

variable {a b c : EntityRef}

theorem precedes_iff : a.precedes b = true ↔
    a.kind.rank < b.kind.rank ∨
      a.kind = b.kind ∧ (a.name < b.name ∨ a.name = b.name ∧ a.arity < b.arity) := by
  unfold precedes
  by_cases hkind : a.kind = b.kind
  · by_cases hname : a.name = b.name
    · simp [hkind, hname]
    · simp [hkind, hname]
  · simp [hkind]

theorem precedes_irrefl (a : EntityRef) : a.precedes a = false := by
  simp [precedes]

theorem precedes_trans (hab : a.precedes b = true) (hbc : b.precedes c = true) :
    a.precedes c = true := by
  rw [precedes_iff] at hab hbc ⊢
  rcases hab with hrank | ⟨hkind, hab⟩ <;> rcases hbc with hrank' | ⟨hkind', hbc⟩
  · exact Or.inl (hrank.trans hrank')
  · exact Or.inl (hkind' ▸ hrank)
  · exact Or.inl (hkind ▸ hrank')
  · refine Or.inr ⟨hkind.trans hkind', ?_⟩
    rcases hab with hname | ⟨hname, harity⟩ <;> rcases hbc with hname' | ⟨hname', harity'⟩
    · exact Or.inl (hname.trans hname')
    · exact Or.inl (hname' ▸ hname)
    · exact Or.inl (hname ▸ hname')
    · exact Or.inr ⟨hname.trans hname', harity.trans harity'⟩

/-- Of two different entities one is before the other. -/
theorem precedes_of_not_precedes (hne : a ≠ b) (h : b.precedes a = false) :
    a.precedes b = true := by
  rw [← Bool.not_eq_true, precedes_iff] at h
  rw [precedes_iff]
  push Not at h
  obtain ⟨hrank, hrest⟩ := h
  rcases hrank.lt_or_eq with hlt | heq
  · exact Or.inl hlt
  have hkind := EntityKind.rank_injective heq
  obtain ⟨hname, harity⟩ := hrest hkind.symm
  refine Or.inr ⟨hkind, ?_⟩
  rcases hname.lt_or_eq with hlt | heq
  · exact Or.inl hlt
  refine Or.inr ⟨heq, lt_of_le_of_ne (harity heq.symm) ?_⟩
  intro hsame
  exact hne (by cases a; cases b; simp_all)

theorem precedes_asymm (h : a.precedes b = true) : b.precedes a = false := by
  rw [← Bool.not_eq_true]
  intro hba
  have := precedes_trans h hba
  simp [precedes_irrefl] at this

end EntityRef

namespace Entry

/-- Entries in strictly ascending order of their entities. -/
def Ordered (entries : List Entry) : Prop :=
  entries.Pairwise fun a b => a.ref.precedes b.ref = true

/-- Entries in ascending order can stand in no other such order. -/
theorem eq_of_perm_of_ordered {as bs : List Entry} (h : as.Perm bs) (has : Ordered as)
    (hbs : Ordered bs) : as = bs := by
  refine h.eq_of_pairwise ?_ has hbs
  intro a b _ _ hab hba
  rw [EntityRef.precedes_asymm hab] at hba
  cases hba

/-- Entries in strictly ascending order are about different entities. -/
theorem nodup_of_ordered {entries : List Entry} (h : Ordered entries) :
    (entries.map (·.ref)).Nodup := by
  rw [List.nodup_iff_pairwise_ne, List.pairwise_map]
  refine h.imp fun hab hsame => ?_
  rw [hsame, EntityRef.precedes_irrefl] at hab
  cases hab

/-- Sorting entries about different entities makes their order strict. -/
theorem ordered_mergeSort {entries : List Entry} (h : (entries.map (·.ref)).Nodup) :
    Ordered (entries.mergeSort fun a b => ! b.ref.precedes a.ref) := by
  have hsorted : (entries.mergeSort fun a b => ! b.ref.precedes a.ref).Pairwise
      fun a b => ! b.ref.precedes a.ref := List.pairwise_mergeSort
    (fun a b c hab hbc => by
      simp only [Bool.not_eq_true'] at hab hbc ⊢
      by_cases hsame : a.ref = b.ref
      · rwa [hsame]
      · rw [← Bool.not_eq_true]
        intro hca
        have := EntityRef.precedes_trans hca (EntityRef.precedes_of_not_precedes hsame hab)
        rw [hbc] at this
        cases this)
    (fun a b => by
      cases hab : a.ref.precedes b.ref
      · simp
      · simp [EntityRef.precedes_asymm hab])
    entries
  have hperm := List.mergeSort_perm entries fun a b => ! b.ref.precedes a.ref
  have hdistinct : (entries.mergeSort fun a b => ! b.ref.precedes a.ref).Pairwise
      fun a b => a.ref ≠ b.ref := by
    rw [← List.pairwise_map (f := fun e : Entry => e.ref) (R := (· ≠ ·))]
    exact (hperm.map _).nodup_iff.2 h
  refine (hsorted.and hdistinct).imp ?_
  intro a b hab
  exact EntityRef.precedes_of_not_precedes hab.2 (by simpa using hab.1)

end Entry

namespace Chunk

/-- Entries pass the check when they are about different entities, none of them a
module. -/
theorem checkEntries_eq_ok_iff {seen : List EntityRef} {entries : List Entry} :
    checkEntries seen entries = .ok () ↔ (∀ e ∈ entries, e.ref.kind ≠ .module) ∧
      (entries.map (·.ref)).Nodup ∧ ∀ e ∈ entries, e.ref ∉ seen := by
  induction entries generalizing seen with
  | nil => simp [checkEntries]
  | cons e rest ih =>
    rw [checkEntries]
    by_cases hkind : e.ref.kind = .module
    · simp [hkind]
    by_cases hseen : e.ref ∈ seen
    · simp [hseen, hkind]
    rw [if_neg hkind, if_neg hseen, ih]
    simp only [List.mem_cons, List.map_cons, List.nodup_cons, List.mem_map, forall_eq_or_imp,
      not_or, not_exists, not_and]
    constructor
    · rintro ⟨hkinds, hnodup, hrest⟩
      exact ⟨⟨hkind, hkinds⟩, ⟨fun e' he' => (hrest e' he').1, hnodup⟩, hseen,
        fun e' he' => (hrest e' he').2⟩
    · rintro ⟨⟨_, hkinds⟩, ⟨hnew, hnodup⟩, _, hrest⟩
      exact ⟨hkinds, hnodup, fun e' he' => ⟨hnew e' he', hrest e' he'⟩⟩

/-- Entries in strictly ascending order pass the check if none is about a module. -/
theorem checkEntries_of_ordered {entries : List Entry} (hordered : Entry.Ordered entries)
    (hkinds : ∀ e ∈ entries, e.ref.kind ≠ .module) : checkEntries [] entries = .ok () :=
  checkEntries_eq_ok_iff.2 ⟨hkinds, Entry.nodup_of_ordered hordered, by simp⟩

theorem keptEntries_perm (entries : List Entry) :
    (keptEntries entries).Perm (entries.filter (! ·.isErased)) :=
  List.mergeSort_perm _ _

theorem keptEntries_subset (entries : List Entry) : keptEntries entries ⊆ entries := by
  intro e he
  exact (List.mem_filter.1 ((keptEntries_perm entries).mem_iff.1 he)).1

/-- Entries that are in order are kept in this order. -/
theorem keptEntries_of_ordered {entries : List Entry} (h : Entry.Ordered entries) :
    keptEntries entries = entries.filter (! ·.isErased) := by
  refine List.mergeSort_of_pairwise ((h.sublist List.filter_sublist).imp ?_)
  intro a b hab
  rw [EntityRef.precedes_asymm hab]
  rfl

/-- The entries of a chunk are in strictly ascending order. -/
theorem ordered_keptEntries {entries : List Entry} (h : (entries.map (·.ref)).Nodup) :
    Entry.Ordered (keptEntries entries) :=
  Entry.ordered_mergeSort (h.sublist (List.filter_sublist.map _))

end Chunk

end ModuleDocs
