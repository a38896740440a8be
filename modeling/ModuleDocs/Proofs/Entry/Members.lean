import Mathlib
import ModuleDocs.Proofs.Chunk.Reencode
import ModuleDocs.Proofs.Entry.View
import ModuleDocs.Proofs.Term.Names

/-!
# Which metadata is shown in full

In the plain term for an entry each list, each tuple and each map of the metadata is one of as many
members, if no two keys of one map get the same name (`Term.isShownBy_iff`).  Where two of them do,
the map has one member for both, which has the value of the later one.  Which keys do is settled by
`Term.SameName`, for keys of all kinds.

`Chunk.metadata_isShownBy_iff` says so for the entries of every chunk that is read.
-/

namespace ModuleDocs

open Result

namespace Term

mutual

/-- The plain term shows every part of the term: each item of a list or a tuple in its place, and
each item of a map as a member of its own, under the name of its key. -/
def IsShownBy : Term → Term → Prop
  | .list items, plain => ∃ parts, plain = .list parts ∧ AreShownBy items parts
  | .tuple items, plain => ∃ parts, plain = .list parts ∧ AreShownBy items parts
  | .map items, plain => ∃ members, plain = .map members ∧ (members.map Prod.fst).Nodup ∧
      ItemsAreShownBy items members
  | t, plain => t.simplify = .ok plain

def AreShownBy : List Term → List Term → Prop
  | [], parts => parts = []
  | t :: rest, parts => ∃ part others, parts = part :: others ∧ IsShownBy t part ∧
      AreShownBy rest others

def ItemsAreShownBy : Items → Items → Prop
  | [], members => members = []
  | (key, value) :: rest, members => ∃ part others, members = (.text key.name, part) :: others ∧
      IsShownBy value part ∧ ItemsAreShownBy rest others

end

/-- No two keys of the map get the same name. -/
def KeysStayApart (items : Items) : Prop := items.Pairwise fun a b => ¬ SameName a.1 b.1

variable {items plain members : Items}

/-- The keys of members are the names of the keys of the items. -/
def namesOf (items : Items) : List Term := items.map fun item => .text item.1.name

theorem map_fst_of_simplifyItems (hkeys : ∀ item ∈ items, item.1.IsKey)
    (h : simplifyItems items = .ok plain) : plain.map Prod.fst = namesOf items := by
  induction items generalizing plain with
  | nil =>
    cases h
    rfl
  | cons item rest ih =>
    obtain ⟨hkey, hrest⟩ := List.forall_mem_cons.1 hkeys
    obtain ⟨shown, hshown, h⟩ := bind_eq_ok_iff.1 h
    obtain ⟨name, hname, h⟩ := bind_eq_ok_iff.1 h
    obtain ⟨value, _, h⟩ := bind_eq_ok_iff.1 h
    obtain ⟨others, hothers, rfl⟩ := bind_pure_eq_ok_iff.1 h
    rw [List.map_cons, ih hrest hothers, eq_name hkey hshown hname]
    rfl

theorem map_fst_of_itemsAreShownBy (h : ItemsAreShownBy items members) :
    members.map Prod.fst = namesOf items := by
  induction items generalizing members with
  | nil =>
    cases h
    rfl
  | cons item rest ih =>
    obtain ⟨part, others, rfl, _, hothers⟩ := h
    rw [List.map_cons, ih hothers]
    rfl

theorem keyEq_text (s t : Text) : (Term.text s).keyEq (.text t) = decide (s = t) := by
  simp [keyEq, keyForm?]

/-- Names are different keys just if the keys of the items stay apart. -/
theorem keysDiffer_namesOf_iff (hkeys : ∀ item ∈ items, item.1.IsKey) :
    Items.KeysDiffer (namesOf items) ↔ KeysStayApart items := by
  rw [namesOf, Items.KeysDiffer, List.pairwise_map, KeysStayApart]
  refine List.Pairwise.iff_of_mem fun {a b} ha hb => ?_
  rw [keyEq_text, decide_eq_false_iff_not, name_eq_iff (hkeys a ha) (hkeys b hb)]

/-- The map of the members holds them all just if the keys of the items stay apart. -/
theorem map_fst_ofPairs_iff (hkeys : ∀ item ∈ items, item.1.IsKey)
    (h : simplifyItems items = .ok plain) :
    (Items.ofPairs plain).map Prod.fst = namesOf items ↔ KeysStayApart items := by
  have hnames := map_fst_of_simplifyItems hkeys h
  rw [← keysDiffer_namesOf_iff hkeys]
  constructor
  · intro hmembers
    have hhashable : ∀ member ∈ plain, member.1.isHashable = true := by
      intro member hmember
      have hname : member.1 ∈ namesOf items := hnames ▸ List.mem_map_of_mem hmember
      obtain ⟨item, _, hitem⟩ := List.mem_map.1 hname
      rw [← hitem]
      rfl
    rw [← hmembers]
    exact Items.keysDiffer_map_fst.2 (Items.isDict_ofPairs hhashable).distinct
  · intro hdiffer
    rw [← hnames] at hdiffer
    rw [Items.ofPairs_of_pairwise (Items.keysDiffer_map_fst.1 hdiffer), hnames]

/-- Texts that are different keys are different. -/
theorem nodup_namesOf (h : KeysStayApart items) (hkeys : ∀ item ∈ items, item.1.IsKey) :
    (namesOf items).Nodup := by
  rw [namesOf, List.nodup_iff_pairwise_ne, List.pairwise_map]
  refine h.imp_of_mem fun {a b} ha hb hne heq => ?_
  exact hne ((name_eq_iff (hkeys a ha) (hkeys b hb)).1 (Term.text.inj heq))

mutual

/-- A term is shown with all its parts if the keys of each map in it stay apart, and only then. -/
theorem isShownBy_iff : ∀ t plain : Term, t.IsValue → t.Every HasTag → t.simplify = .ok plain →
    (t.IsShownBy plain ↔ t.Every (OnMaps KeysStayApart))
  | .list items, plain, hvalue, htag, h => by
    obtain ⟨parts, hparts, rfl⟩ := bind_pure_eq_ok_iff.1 h
    have hitems := areShownBy_iff items parts hvalue.2 htag.2 hparts
    constructor
    · rintro ⟨_, ⟨⟩, hshown⟩
      exact ⟨trivial, hitems.1 hshown⟩
    · intro hevery
      exact ⟨parts, rfl, hitems.2 hevery.2⟩
  | .tuple items, plain, hvalue, htag, h => by
    obtain ⟨parts, hparts, rfl⟩ := bind_pure_eq_ok_iff.1 h
    have hitems := areShownBy_iff items parts hvalue.2 htag.2 hparts
    constructor
    · rintro ⟨_, ⟨⟩, hshown⟩
      exact ⟨trivial, hitems.1 hshown⟩
    · intro hevery
      exact ⟨parts, rfl, hitems.2 hevery.2⟩
  | .map items, plain, hvalue, htag, h => by
    obtain ⟨plain, hplain, rfl⟩ := bind_pure_eq_ok_iff.1 h
    have hkeys : ∀ item ∈ items, item.1.IsKey := fun item hitem =>
      ⟨hvalue.1.hashable item hitem, (everyPair_iff.1 htag.2 item hitem).1⟩
    have hmembers := map_fst_ofPairs_iff hkeys hplain
    have hofPairs : KeysStayApart items → Items.ofPairs plain = plain := fun happart =>
      Items.ofPairs_of_pairwise (Items.keysDiffer_map_fst.1
        (map_fst_of_simplifyItems hkeys hplain ▸ (keysDiffer_namesOf_iff hkeys).2 happart))
    have hitems := itemsAreShownBy_iff items plain hvalue.1 hvalue.2 htag.2 hplain
    constructor
    · rintro ⟨_, ⟨⟩, _, hshown⟩
      have happart := hmembers.1 (map_fst_of_itemsAreShownBy hshown)
      rw [hofPairs happart] at hshown
      exact ⟨happart, hitems.1 hshown⟩
    · rintro ⟨happart, hevery⟩
      refine ⟨_, rfl, hmembers.2 happart ▸ nodup_namesOf happart hkeys, ?_⟩
      rw [hofPairs happart]
      exact hitems.2 hevery
  | .none, _, _, _, h | .bool _, _, _, _, h | .int _, _, _, _, h | .float _, _, _, _, h
  | .bytes _, _, _, _, h | .text _, _, _, _, h | .atom _, _, _, _, h | .tagged _ _, _, _, _, h
  | .funRef _ _, _, _, _, h | .foreign _, _, _, _, h => iff_of_true h trivial

theorem areShownBy_iff : ∀ items parts : List Term, EveryItem (OnMaps Items.IsDict) items →
    EveryItem HasTag items → simplifyAll items = .ok parts →
    (AreShownBy items parts ↔ EveryItem (OnMaps KeysStayApart) items)
  | [], parts, _, _, h => by
    cases h
    exact iff_of_true rfl trivial
  | t :: rest, parts, hvalue, htag, h => by
    obtain ⟨part, hpart, h⟩ := bind_eq_ok_iff.1 h
    obtain ⟨others, hothers, rfl⟩ := bind_pure_eq_ok_iff.1 h
    have hfirst := isShownBy_iff t part hvalue.1 htag.1 hpart
    have hrest := areShownBy_iff rest others hvalue.2 htag.2 hothers
    constructor
    · rintro ⟨_, _, ⟨⟩, hshown, hothersShown⟩
      exact ⟨hfirst.1 hshown, hrest.1 hothersShown⟩
    · rintro ⟨hone, hall⟩
      exact ⟨part, others, rfl, hfirst.2 hone, hrest.2 hall⟩

theorem itemsAreShownBy_iff : ∀ items plain : Items, Items.IsDict items →
    EveryPair (OnMaps Items.IsDict) items → EveryPair HasTag items →
    simplifyItems items = .ok plain →
    (ItemsAreShownBy items plain ↔ EveryPair (OnMaps KeysStayApart) items)
  | [], plain, _, _, _, h => by
    cases h
    exact iff_of_true rfl trivial
  | (key, value) :: rest, plain, hdict, hvalue, htag, h => by
    obtain ⟨shown, hshown, h⟩ := bind_eq_ok_iff.1 h
    obtain ⟨name, hname, h⟩ := bind_eq_ok_iff.1 h
    obtain ⟨part, hpart, h⟩ := bind_eq_ok_iff.1 h
    obtain ⟨others, hothers, rfl⟩ := bind_pure_eq_ok_iff.1 h
    have hhashable := hdict.hashable _ List.mem_cons_self
    have hkey := every_onMaps_of_isHashable KeysStayApart key hhashable
    have hrestDict : Items.IsDict rest :=
      ⟨fun item hitem => hdict.hashable item (List.mem_cons_of_mem _ hitem), hdict.distinct.of_cons⟩
    have hfirst := isShownBy_iff value part hvalue.2.1 htag.2.1 hpart
    have hrest := itemsAreShownBy_iff rest others hrestDict hvalue.2.2 htag.2.2 hothers
    constructor
    · rintro ⟨_, _, ⟨⟩, hone, hall⟩
      exact ⟨hkey, hfirst.1 hone, hrest.1 hall⟩
    · rintro ⟨_, hone, hall⟩
      rw [eq_name ⟨hhashable, htag.1⟩ hshown hname]
      exact ⟨part, others, rfl, hfirst.2 hone, hrest.2 hall⟩

end

/-- Texts become members of the names that they are, so that those of a map stay apart. -/
theorem keysStayApart_of_texts (htexts : ∀ item ∈ items, ∃ t, item.1 = Term.text t)
    (hdict : items.IsDict) : KeysStayApart items := by
  refine hdict.distinct.imp_of_mem fun {a b} ha hb hne hsame => ?_
  obtain ⟨s, hs⟩ := htexts a ha
  obtain ⟨t, ht⟩ := htexts b hb
  rw [hs, ht] at hsame hne
  have hname : (Term.text s).name = (Term.text t).name :=
    (name_eq_iff (isKey_text s) (isKey_text t)).2 hsame
  rw [keyEq_text, decide_eq_false_iff_not] at hne
  exact hne hname

end Term

namespace Chunk

open Term

/-- The members of an entry show each part of its metadata if the keys of every map in it stay
apart, and only then.  The keys of the metadata itself always do. -/
theorem metadata_isShownBy_iff {data : Bytes} {c : Chunk} (h : ofBytes data = .ok c) {e : Entry}
    (he : e ∈ c.module :: c.entries) :
    ((Term.map e.metadata).Every Term.IsShort → (∃ text?, e.text? = .ok text?) →
      ∃ shown, e.simplify = .ok shown) ∧
    ∀ shown, e.simplify = .ok shown → ∃ items members, shown = .map items ∧
      (.text "metadata", .map members) ∈ items ∧
      members.map Prod.fst = e.metadata.map Prod.fst ∧
      ((Term.map e.metadata).IsShownBy (.map members) ↔
        (Term.map e.metadata).Every (OnMaps KeysStayApart)) := by
  have hread := ofBytes_eq_ok_iff.1 h
  have hdecoded := isDecoded_of_decode hread e he
  have hvalue : (Term.map e.metadata).IsValue :=
    (forall_entries_of_decode gives_isSized hread e he).metadata.value
  have htag : (Term.map e.metadata).Every HasTag := ((isStorableAt_iff _ _).1 hdecoded.storable).2
  refine ⟨fun hshort ⟨text?, htext⟩ => (hdecoded.isShown hshort htext).plain, ?_⟩
  intro shown hshown
  obtain ⟨content, _, hshown⟩ := bind_eq_ok_iff.1 hshown
  obtain ⟨plain, hplain, rfl⟩ := bind_pure_eq_ok_iff.1 hshown
  have hplain := mapError_eq_ok_iff.1 hplain
  have hiff := isShownBy_iff _ plain hvalue htag hplain
  obtain ⟨members, hmembers, rfl⟩ := bind_pure_eq_ok_iff.1 hplain
  have hkeys : ∀ item ∈ e.metadata, item.1.IsKey := by
    intro item hitem
    obtain ⟨t, ht⟩ := hdecoded.texts item hitem
    exact ht ▸ isKey_text t
  have hnames : namesOf e.metadata = e.metadata.map Prod.fst := by
    refine List.map_congr_left fun item hitem => ?_
    obtain ⟨t, ht⟩ := hdecoded.texts item hitem
    rw [ht]
    rfl
  have happart := keysStayApart_of_texts hdecoded.texts hvalue.1
  exact ⟨_, _, rfl, by simp, ((map_fst_ofPairs_iff hkeys hmembers).2 happart).trans hnames, hiff⟩

/-- A chunk of a module and a function, each of which has a map with two keys in its metadata: the
number 1 and the text of it for the module, the numbers 1 and 2 for the function. -/
def limitsChunk : Bytes :=
  [0x44, 0x4F, 0x43, 0x43, 1, 0, 0, 0, 0, 0,
    0, 1, 0, 0x6D, 0, 0, 1, 0, 0, 0, 0,
    11, 1, 0, 0, 0, 6, 1, 0, 0, 0, 0x6B, 11, 2, 0, 0, 0, 3, 1, 0, 1, 2, 6, 1, 0, 0, 0, 0x31, 1,
    1, 0, 0, 0, 1, 1, 0, 0x66, 0, 0, 1, 0, 0, 0, 0,
    11, 1, 0, 0, 0, 6, 1, 0, 0, 0, 0x6B, 11, 2, 0, 0, 0, 3, 1, 0, 1, 2, 3, 1, 0, 2, 1]

def limitsModule : Entry :=
  ⟨⟨.module, "m", 0⟩, .undocumented,
    [(.text "k", .map [(.int 1, .bool true), (.text "1", .bool false)])], true, 1⟩

def limitsFunction : Entry :=
  ⟨⟨.function, "f", 0⟩, .undocumented,
    [(.text "k", .map [(.int 1, .bool true), (.int 2, .bool false)])], true, 1⟩

theorem limitsModule_simplify : limitsModule.simplify = .ok (.map [
    (.text "kind", .text "module"), (.text "name", .text "m"), (.text "arity", .int 0),
    (.text "line", .int 1), (.text "content", .map [(.text "kind", .text "none")]),
    (.text "metadata", .map [(.text "k", .map [(.text "1", .bool false)])])]) := by
  decide +kernel

theorem limitsFunction_simplify : limitsFunction.simplify = .ok (.map [
    (.text "kind", .text "function"), (.text "name", .text "f"), (.text "arity", .int 0),
    (.text "line", .int 1), (.text "content", .map [(.text "kind", .text "none")]),
    (.text "metadata",
      .map [(.text "k", .map [(.text "1", .bool true), (.text "2", .bool false)])])]) := by
  decide +kernel

theorem metadata_isShownBy_iff_limitsChunk :
    ofBytes limitsChunk = .ok ⟨1, [], limitsModule, [limitsFunction]⟩ ∧
      (∃ shown, limitsModule.simplify = .ok shown) ∧
      ¬ (Term.map limitsModule.metadata).IsShownBy
          (.map [(.text "k", .map [(.text "1", .bool false)])]) ∧
      (Term.map limitsFunction.metadata).IsShownBy
        (.map [(.text "k", .map [(.text "1", .bool true), (.text "2", .bool false)])]) := by
  have hchunk : ofBytes limitsChunk = .ok ⟨1, [], limitsModule, [limitsFunction]⟩ := by cbv
  have hmodule := metadata_isShownBy_iff hchunk List.mem_cons_self
  have hfunction := metadata_isShownBy_iff hchunk (List.mem_cons_of_mem _ List.mem_cons_self)
  have hone : (Term.int 1).IsShort :=
    (Entry.isJson_of_bounds (i := 1) (by norm_num) (by norm_num)).isShort
  have hint : ∀ i : Int, (Term.int i).IsKey := fun i => ⟨rfl, trivial⟩
  have hspells : SpellsOut (.text "1") (.int 1) := ⟨rfl, by decide⟩
  have hdiffer : ¬ SameName (.int 1) (.int 2) := fun hsame =>
    absurd ((name_eq_iff (hint 1) (hint 2)).2 hsame) (by decide)
  refine ⟨hchunk, hmodule.1 ⟨trivial, trivial, ⟨trivial, hone, trivial, trivial, trivial, trivial⟩,
    trivial⟩ ⟨_, rfl⟩, ?_, ?_⟩
  · obtain ⟨items, members, hitems, hmember, _, hiff⟩ := hmodule.2 _ limitsModule_simplify
    cases hitems
    have hmembers : members = [(.text "k", .map [(.text "1", .bool false)])] := by
      simpa +decide using hmember
    rw [hmembers] at hiff
    refine hiff.not.2 fun hevery => ?_
    have happart : KeysStayApart [(.int 1, .bool true), (.text "1", .bool false)] :=
      hevery.2.2.1.1
    exact List.pairwise_pair.1 happart (.inr (.inr hspells))
  · obtain ⟨items, members, hitems, hmember, _, hiff⟩ := hfunction.2 _ limitsFunction_simplify
    cases hitems
    have hmembers : members =
        [(.text "k", .map [(.text "1", .bool true), (.text "2", .bool false)])] := by
      simpa +decide using hmember
    rw [hmembers] at hiff
    have happart : KeysStayApart [(.int 1, .bool true), (.int 2, .bool false)] :=
      List.pairwise_pair.2 hdiffer
    exact hiff.2 ⟨List.pairwise_singleton _ _, trivial,
      ⟨happart, trivial, trivial, trivial, trivial, trivial⟩, trivial⟩

end Chunk

end ModuleDocs
