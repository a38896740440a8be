import Mathlib
import ModuleDocs.Proofs.Chunk.Reencode
import ModuleDocs.Proofs.Entry.View

/-!
# Lookups and listings agree

The entries of a chunk that was read are in strict order, and no reference comes twice.  So the
first entry that a lookup comes to is the only one (`Chunk.lookup?_eq_some_iff`), and a listing
shows what lookups find: `Chunk.lookup_agrees_list`.
-/

namespace ModuleDocs

/-- Different kinds have different names. -/
theorem EntityKind.name_injective {a b : EntityKind} (h : a.name = b.name) : a = b := by
  cases a <;> cases b <;> first | rfl | exact absurd h (by decide)

namespace EntityRef

/-- What the order of entries compares: the name of the kind, the name, the number of
arguments. -/
def sortKey (r : EntityRef) : Text ×ₗ Text ×ₗ Int := toLex (r.kind.name, toLex (r.name, r.arity))

theorem sortKey_lt_iff {a b : EntityRef} : a.sortKey < b.sortKey ↔ a.precedes b = true := by
  have hkind : a.kind.name = b.kind.name ↔ a.kind = b.kind :=
    ⟨EntityKind.name_injective, fun h => by rw [h]⟩
  rw [precedes_iff, EntityKind.rank_lt_rank_iff, sortKey, sortKey, Prod.Lex.toLex_lt_toLex,
    Prod.Lex.toLex_lt_toLex, hkind]

end EntityRef

namespace Chunk

variable {c : Chunk} {ref : EntityRef} {e : Entry} {kind? : Option EntityKind}

/-- Among entries about different entities, a search for one finds the entry about it. -/
theorem find?_eq_some_iff {entries : List Entry} (h : (entries.map (·.ref)).Nodup) :
    (entries.find? fun e => e.ref = ref) = some e ↔ e ∈ entries ∧ e.ref = ref := by
  constructor
  · intro hfind
    exact ⟨List.mem_of_find?_eq_some hfind, by simpa using List.find?_some hfind⟩
  · rintro ⟨hmem, rfl⟩
    cases hfind : entries.find? fun e' => e'.ref = e.ref with
    | none => simpa using List.find?_eq_none.1 hfind e hmem
    | some e' =>
      have hsame : e'.ref = e.ref := by simpa using List.find?_some hfind
      rw [List.inj_on_of_nodup_map h (List.mem_of_find?_eq_some hfind) hmem hsame]

/-- A lookup finds the one entry about an entity. -/
theorem lookup?_eq_some_iff (hc : c.IsArranged) :
    c.lookup? ref = some e ↔ (e = c.module ∨ e ∈ c.entries) ∧ e.ref = ref := by
  unfold lookup?
  split
  · rename_i hkind
    -- No other entry than that of the module is about a module.
    have hothers : ∀ e ∈ c.entries, e.ref ≠ ref := fun e he hsame => hc.kinds e he (hsame ▸ hkind)
    split
    · rename_i hmodule
      constructor
      · rintro ⟨⟩
        exact ⟨Or.inl rfl, hmodule.symm⟩
      · rintro ⟨rfl | he, hsame⟩
        · rfl
        · exact absurd hsame (hothers e he)
    · rename_i hmodule
      constructor
      · nofun
      · rintro ⟨rfl | he, hsame⟩
        · exact absurd hsame.symm hmodule
        · exact absurd hsame (hothers e he)
  · rename_i hkind
    have hmodule : c.module.ref ≠ ref := fun hsame => hkind (hsame ▸ hc.module)
    rw [find?_eq_some_iff (Entry.nodup_of_ordered hc.ordered)]
    constructor
    · rintro ⟨he, hsame⟩
      exact ⟨Or.inr he, hsame⟩
    · rintro ⟨rfl | he, hsame⟩
      · exact absurd hsame hmodule
      · exact ⟨he, hsame⟩

/-- A lookup finds nothing just when no entry is about the entity. -/
theorem lookup?_eq_none_iff (hc : c.IsArranged) :
    c.lookup? ref = none ↔ ∀ e, (e = c.module ∨ e ∈ c.entries) → e.ref ≠ ref := by
  rw [Option.eq_none_iff_forall_ne_some]
  refine forall_congr' fun e => ?_
  rw [ne_eq, lookup?_eq_some_iff hc, not_and]

theorem list_eq_filter :
    c.list kind? = (c.module :: c.entries).filter fun e => ∀ kind ∈ kind?, e.ref.kind = kind := by
  unfold list
  cases kind? with
  | none => simp
  | some kind => simp

theorem listVisible_eq_filter :
    c.listVisible kind? = (c.list kind?).filter fun e => e.content ≠ .hidden := by
  simp [listVisible, Entry.isHidden]

theorem mem_list_iff : e ∈ c.list kind? ↔
    (e = c.module ∨ e ∈ c.entries) ∧ ∀ kind ∈ kind?, e.ref.kind = kind := by
  rw [list_eq_filter, List.mem_filter, List.mem_cons, decide_eq_true_iff]

theorem mem_listVisible_iff : e ∈ c.listVisible kind? ↔ e ∈ c.list kind? ∧ e.content ≠ .hidden := by
  rw [listVisible_eq_filter, List.mem_filter, decide_eq_true_iff]

/-- A chunk that was read has no two entries about one entity, and none about a module but the
first.  A lookup finds the entry about its entity, if there is one.  Entries are listed behind the
module in the order of kind, name and number of arguments, as far as the kind is asked for; those
that are hidden are left out of the default listing, and no others.  What is listed is what a
lookup finds. -/
theorem lookup_agrees_list {data : Bytes} (h : ofBytes data = .ok c) :
    (c.entries.map (·.ref)).Nodup ∧ (∀ e ∈ c.entries, e.ref.kind ≠ .module) ∧
    (∀ ref e, c.lookup? ref = some e ↔ (e = c.module ∨ e ∈ c.entries) ∧ e.ref = ref) ∧
    (∀ ref, c.lookup? ref = none ↔ ∀ e, (e = c.module ∨ e ∈ c.entries) → e.ref ≠ ref) ∧
    (c.entries.map (·.ref.sortKey)).Pairwise (· < ·) ∧
    ∀ kind? : Option EntityKind,
      c.list kind? = (c.module :: c.entries).filter (fun e => ∀ kind ∈ kind?, e.ref.kind = kind) ∧
      c.listVisible kind? = (c.list kind?).filter (fun e => e.content ≠ .hidden) ∧
      ∀ e, (e ∈ c.list kind? ↔
          c.lookup? e.ref = some e ∧ ∀ kind ∈ kind?, e.ref.kind = kind) ∧
        (e ∈ c.listVisible kind? ↔ c.lookup? e.ref = some e ∧
          (∀ kind ∈ kind?, e.ref.kind = kind) ∧ e.content ≠ .hidden) := by
  have hc : c.IsArranged := isArranged_of_decode (ofBytes_eq_ok_iff.1 h)
  have hself : ∀ e, c.lookup? e.ref = some e ↔ e = c.module ∨ e ∈ c.entries := fun e => by
    rw [lookup?_eq_some_iff hc, and_iff_left rfl]
  refine ⟨Entry.nodup_of_ordered hc.ordered, hc.kinds, fun ref e => lookup?_eq_some_iff hc,
    fun ref => lookup?_eq_none_iff hc, ?_, fun kind? => ⟨list_eq_filter, listVisible_eq_filter,
      fun e => ⟨?_, ?_⟩⟩⟩
  · exact List.pairwise_map.2 (hc.ordered.imp EntityRef.sortKey_lt_iff.2)
  · rw [mem_list_iff, hself]
  · rw [mem_listVisible_iff, mem_list_iff, hself, and_assoc]

/-- A chunk with a hidden module, a hidden function and a type without documentation. -/
def hiddenChunk : Bytes :=
  [0x44, 0x4F, 0x43, 0x43, 1, 0, 0, 0, 0, 0,
    0, 1, 0, 0x6D, 0, 0, 1, 0, 0, 0, 2, 11, 0, 0, 0, 0, 2, 0, 0, 0,
    1, 1, 0, 0x66, 0, 0, 1, 0, 0, 0, 2, 11, 0, 0, 0, 0,
    3, 1, 0, 0x74, 2, 0, 1, 0, 0, 0, 0, 11, 0, 0, 0, 0]

/-- Lookups find what is hidden, and the type is listed although its module is not. -/
theorem lookup_agrees_list_hiddenChunk : ∃ c, ofBytes hiddenChunk = .ok c ∧
    c.lookup? ⟨.module, "m", 0⟩ = some c.module ∧ c.module.content = .hidden ∧
    c.lookup? ⟨.function, "f", 0⟩ = some ⟨⟨.function, "f", 0⟩, .hidden, [], true, 1⟩ ∧
    c.lookup? ⟨.function, "f", 1⟩ = none ∧
    c.listVisible none = [⟨⟨.type, "t", 2⟩, .undocumented, [], true, 1⟩] := by
  have hread : ofBytes hiddenChunk = .ok ⟨1, [], ⟨⟨.module, "m", 0⟩, .hidden, [], true, 1⟩,
      [⟨⟨.function, "f", 0⟩, .hidden, [], true, 1⟩,
        ⟨⟨.type, "t", 2⟩, .undocumented, [], true, 1⟩]⟩ := by cbv
  obtain ⟨_, _, hfound, hmissing, _, hlists⟩ := lookup_agrees_list hread
  obtain ⟨hlist, hvisible, _⟩ := hlists none
  refine ⟨_, hread, (hfound _ _).2 ⟨Or.inl rfl, rfl⟩, rfl,
    (hfound _ _).2 ⟨Or.inr List.mem_cons_self, rfl⟩, (hmissing _).2 ?_, ?_⟩
  · rintro e (rfl | he)
    · decide
    · revert e
      decide
  · rw [hvisible, hlist]
    decide

end Chunk

end ModuleDocs
