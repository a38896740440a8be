import Mathlib
import ModuleDocs.Order.Ascending
import ModuleDocs.Proofs.Result

/-!
# What a sort gives

Whatever comparisons are made on the way, an error of a sort is an error of comparing two
of the items, and the items of its result are items that were to be sorted (`sort_meets`).
This needs nothing of the comparison, not even that it is an order.
-/

namespace ModuleDocs.Ascending

open Result

variable {α ε : Type} {P : ε → Prop} {Q : α → Prop} {less : α → α → Except ε Bool}

/-! ## Items -/

theorem forall_mem_append {xs ys : Array α} (hxs : ∀ a ∈ xs, Q a) (hys : ∀ a ∈ ys, Q a) :
    ∀ a ∈ xs ++ ys, Q a := by
  intro a ha
  rcases Array.mem_append.1 ha with ha | ha
  · exact hxs a ha
  · exact hys a ha

theorem forall_mem_extract {xs : Array α} (hxs : ∀ a ∈ xs, Q a) (i j : Nat) :
    ∀ a ∈ xs.extract i j, Q a := by
  intro a ha
  obtain ⟨k, hk, rfl⟩ := Array.mem_extract_iff_getElem.1 ha
  exact hxs _ (Array.getElem_mem _)

/-! ## Counting -/

namespace Feed

variable {test : α → Except ε Bool} {f : Feed α}

theorem mem_of_get? {i : Nat} {a : α} (h : f.get? i = some a) : a ∈ f.items :=
  Array.mem_of_getElem? h

theorem widen_failsWith (htest : ∀ a ∈ f.items, FailsWith P (test a)) (known next : Nat) :
    FailsWith P (widen test f known next) := by
  fun_induction widen test f known next with
  | case1 known next hnext hitem => exact FailsWith.ok _
  | case2 known next hnext item hitem ih =>
    refine (htest item (mem_of_get? hitem)).bind fun passes _ => ?_
    split
    · exact ih
    · exact FailsWith.ok _
  | case3 => exact FailsWith.ok _

theorem narrow_failsWith (htest : ∀ a ∈ f.items, FailsWith P (test a)) (side : Side)
    (low high : Nat) : FailsWith P (narrow side test f low high) := by
  fun_induction narrow side test f low high with
  | case1 => exact FailsWith.ok _
  | case2 low high hrange item hitem ihabove ihbelow =>
    refine (htest item (mem_of_get? hitem)).bind fun passes _ => ?_
    split
    · exact ihabove
    · exact ihbelow
  | case3 => exact FailsWith.ok _

theorem leading_failsWith (htest : ∀ a ∈ f.items, FailsWith P (test a)) (side : Side) :
    FailsWith P (leading side test f) := by
  unfold leading
  split
  · exact FailsWith.ok 0
  · rename_i item hitem
    refine (htest item (mem_of_get? hitem)).bind fun passes _ => ?_
    split
    · exact (widen_failsWith htest 0 1).bind fun bounds _ => narrow_failsWith htest side _ _
    · exact FailsWith.ok 0

end Feed

/-! ## Merging -/

namespace Weave

/-- All items of the runs have the property. -/
structure Holds (Q : α → Prop) (w : Weave α) : Prop where
  short : ∀ a ∈ w.short.items, Q a
  long : ∀ a ∈ w.long.items, Q a
  woven : ∀ a ∈ w.woven, Q a

variable {w : Weave α}

theorem Holds.takeShort (h : w.Holds Q) (n : Nat) : (w.takeShort n).Holds Q where
  short := h.short
  long := h.long
  woven := forall_mem_append h.woven (forall_mem_extract h.short _ _)

theorem Holds.takeLong (h : w.Holds Q) (n : Nat) : (w.takeLong n).Holds Q where
  short := h.short
  long := h.long
  woven := forall_mem_append h.woven (forall_mem_extract h.long _ _)

theorem Holds.finish (h : w.Holds Q) : ∀ a ∈ w.finish, Q a :=
  forall_mem_append (forall_mem_append h.woven (forall_mem_extract h.long _ _))
    (forall_mem_extract h.short _ _)

section

variable (hless : ∀ a b, Q a → Q b → FailsWith P (less a b))

include hless

theorem longFirst_failsWith (side : Side) {short long : α} (hshort : Q short) (hlong : Q long) :
    FailsWith P (longFirst less side short long) := by
  cases side with
  | front => exact hless long short hlong hshort
  | back => exact hless short long hshort hlong

theorem skipShort_meets (side : Side) (h : w.Holds Q) :
    Meets P (fun r => r.1.Holds Q) (skipShort less side w) := by
  unfold skipShort
  split
  · exact Meets.ok h
  · rename_i long hlong
    refine Meets.bind (Feed.leading_failsWith (fun short hshort => ?_) _).meets fun n _ => ?_
    · have hfirst := longFirst_failsWith hless side (h.short short hshort)
        (h.long long (Feed.mem_of_get? hlong))
      exact hfirst.bind fun isLong _ => FailsWith.ok _
    · refine Meets.ok ?_
      dsimp only
      split
      · exact h.takeShort n
      · exact (h.takeShort n).takeLong 1

theorem skipLong_meets (side : Side) (h : w.Holds Q) :
    Meets P (fun r => r.1.Holds Q) (skipLong less side w) := by
  unfold skipLong
  split
  · exact Meets.ok h
  · rename_i short hshort
    refine Meets.bind (Feed.leading_failsWith (fun long hlong => ?_) _).meets fun n _ => ?_
    · exact longFirst_failsWith hless side (h.short short (Feed.mem_of_get? hshort))
        (h.long long hlong)
    · refine Meets.ok ?_
      dsimp only
      split
      · exact h.takeLong n
      · exact (h.takeLong n).takeShort 1

theorem skipBoth_meets (side : Side) (h : w.Holds Q) :
    Meets P (fun r => r.1.Holds Q) (skipBoth less side w) := by
  unfold skipBoth
  cases side with
  | front =>
    refine (skipShort_meets hless .front h).bind fun ⟨w, n⟩ hfirst => ?_
    dsimp only
    split
    · exact Meets.ok hfirst
    · exact (skipLong_meets hless .front hfirst).bind fun second hsecond => Meets.ok hsecond
  | back =>
    refine (skipLong_meets hless .back h).bind fun ⟨w, n⟩ hfirst => ?_
    dsimp only
    split
    · exact Meets.ok hfirst
    · exact (skipShort_meets hless .back hfirst).bind fun second hsecond => Meets.ok hsecond

theorem run_meets (side : Side) (fuel : Nat) (pace : Pace) (h : w.Holds Q) :
    Meets P (Holds Q) (run less side fuel pace w) := by
  induction fuel generalizing pace w with
  | zero => exact Meets.ok h
  | succ fuel ih =>
    cases pace with
    | single shortRow longRow =>
      rw [run]
      split
      · rename_i short long hshort hlong
        have hfirst := longFirst_failsWith hless side (h.short short (Feed.mem_of_get? hshort))
          (h.long long (Feed.mem_of_get? hlong))
        refine Meets.bind hfirst.meets fun isLong _ => ?_
        have hnext : Holds Q (if isLong then w.takeLong 1 else w.takeShort 1) := by
          cases isLong with
          | true => exact h.takeLong 1
          | false => exact h.takeShort 1
        extract_lets w shortRow longRow
        split
        · exact Meets.ok hnext
        · split <;> exact ih _ hnext
      · exact Meets.ok h
    | skipping =>
      rw [run]
      refine (skipBoth_meets hless side h).bind fun ⟨w, n⟩ hskipped => ?_
      dsimp only
      split
      · exact Meets.ok hskipped
      · split <;> exact ih _ ⟨hskipped.short, hskipped.long, hskipped.woven⟩

theorem merge_meets (side : Side) (patience : Nat) {short long : Array α}
    (hshort : ∀ a ∈ short, Q a) (hlong : ∀ a ∈ long, Q a) :
    Meets P (fun r => ∀ a ∈ r.1, Q a) (merge less side patience short long) := by
  have hstart : Holds Q ⟨.ofArray short, .ofArray long, #[], patience⟩ := ⟨hshort, hlong, by simp⟩
  unfold merge
  dsimp only
  split
  · exact Meets.ok (hstart.takeLong 1).finish
  · exact (run_meets hless side _ _ (hstart.takeLong 1)).bind fun w hw => Meets.ok hw.finish

end

end Weave

variable (hless : ∀ a b, Q a → Q b → FailsWith P (less a b))

include hless

theorem mergeRuns_meets (patience : Nat) {first second : Array α} (hfirst : ∀ a ∈ first, Q a)
    (hsecond : ∀ a ∈ second, Q a) :
    Meets P (fun r => ∀ a ∈ r.1, Q a) (mergeRuns less patience first second) := by
  have hnot : ∀ a b, Q a → Q b → FailsWith P (do return ! (← less a b)) :=
    fun a b ha hb => (hless a b ha hb).bind fun isLess _ => FailsWith.ok _
  have hboth := forall_mem_append hfirst hsecond
  unfold mergeRuns
  split
  · rename_i last head hlast hhead
    have hlast : Q last := hfirst last (Array.mem_of_back? hlast)
    have hhead : Q head := hsecond head (Array.mem_of_getElem? hhead)
    refine Meets.bind (Feed.leading_failsWith (fun item hitem => ?_) _).meets fun settled _ => ?_
    · exact hnot head item hhead (hfirst item hitem)
    dsimp only
    split
    · exact Meets.ok hboth
    refine Meets.bind (Feed.leading_failsWith (fun item hitem => ?_) _).meets fun after _ => ?_
    · exact hnot item last (hsecond item (Array.mem_reverse.1 hitem)) hlast
    extract_lets
    split
    · exact Meets.ok hboth
    have hfront := forall_mem_extract hfirst 0 settled
    have hleft := forall_mem_extract hfirst settled first.size
    have hright := forall_mem_extract hsecond 0 (second.size - after)
    have htail := forall_mem_extract hsecond (second.size - after) second.size
    split
    · refine (Weave.merge_meets hless .front _ hleft hright).bind fun woven hwoven => Meets.ok ?_
      exact forall_mem_append (forall_mem_append hfront hwoven) htail
    · refine (Weave.merge_meets hless .back _ (by simpa using hright) (by simpa using hleft)).bind
        fun woven hwoven => Meets.ok ?_
      exact forall_mem_append (forall_mem_append hfront (by simpa using hwoven)) htail
  · exact Meets.ok hboth

/-! ## Runs -/

theorem runLength_failsWith (down : Bool) {previous : α} (hprevious : Q previous) (count : Nat)
    {items : List α} (hitems : ∀ a ∈ items, Q a) :
    FailsWith P (runLength less down previous count items) := by
  induction items generalizing previous count with
  | nil => exact FailsWith.ok count
  | cons item rest ih =>
    obtain ⟨hitem, hrest⟩ := List.forall_mem_cons.1 hitems
    refine (hless item previous hitem hprevious).bind fun isLess _ => ?_
    split
    · exact ih hitem (count + 1) hrest
    · exact FailsWith.ok count

theorem place_failsWith {item : α} (hitem : Q item) {sorted : List α} (hsorted : ∀ a ∈ sorted, Q a)
    (low high : Nat) :
    FailsWith P (place less item sorted low high) := by
  fun_induction place less item sorted low high with
  | case1 => exact FailsWith.ok _
  | case2 low high hrange middle other hother ihbelow ihabove =>
    refine (hless item other hitem (hsorted other (List.mem_of_getElem? hother))).bind
      fun isLess _ => ?_
    split
    · exact ihbelow
    · exact ihabove
  | case3 => exact FailsWith.ok _

theorem insertAll_meets {sorted items : List α} (hsorted : ∀ a ∈ sorted, Q a)
    (hitems : ∀ a ∈ items, Q a) :
    Meets P (fun r => ∀ a ∈ r, Q a) (insertAll less sorted items) := by
  induction items generalizing sorted with
  | nil => exact Meets.ok hsorted
  | cons item rest ih =>
    obtain ⟨hitem, hrest⟩ := List.forall_mem_cons.1 hitems
    refine Meets.bind (place_failsWith hless hitem hsorted 0 _).meets fun at_ _ => ?_
    refine ih (fun a ha => ?_) hrest
    rcases List.mem_append.1 ha with ha | ha
    · exact hsorted a (List.mem_of_mem_take ha)
    rcases List.mem_cons.1 ha with rfl | ha
    · exact hitem
    · exact hsorted a (List.mem_of_mem_drop ha)

theorem nextRun_meets (least : Nat) {items : List α} (hitems : ∀ a ∈ items, Q a) :
    Meets P (fun r => (∀ a ∈ r.1, Q a) ∧ ∀ a ∈ r.2, Q a) (nextRun less least items) := by
  unfold nextRun
  split
  · rename_i first second rest
    obtain ⟨hfirst, hbehind⟩ := List.forall_mem_cons.1 hitems
    obtain ⟨hsecond, hrest⟩ := List.forall_mem_cons.1 hbehind
    refine Meets.bind (hless second first hsecond hfirst).meets fun down _ => ?_
    refine Meets.bind (runLength_failsWith hless down hsecond 2 hrest).meets fun n _ => ?_
    have hfront : ∀ a ∈ (first :: second :: rest).take n, Q a :=
      fun a ha => hitems a (List.mem_of_mem_take ha)
    have hrun : ∀ a ∈ (if down then ((first :: second :: rest).take n).reverse
        else (first :: second :: rest).take n), Q a := by
      cases down with
      | true => exact fun a ha => hfront a (List.mem_reverse.1 ha)
      | false => exact hfront
    refine Meets.bind (insertAll_meets hless hrun fun a ha => ?_) fun run hrun => Meets.ok ⟨hrun, ?_⟩
    · exact hitems a (List.mem_of_mem_drop (List.mem_of_mem_take ha))
    · exact fun a ha => hitems a (List.mem_of_mem_drop ha)
  · exact Meets.ok ⟨hitems, by simp⟩

/-! ## Piles -/

/-- All items of the runs that wait have the property. -/
def AllWaiting (Q : α → Prop) (waiting : List (Waiting α)) : Prop :=
  ∀ w ∈ waiting, ∀ a ∈ w.items, Q a

theorem closeDeeper_meets (depth : Nat) {waiting : List (Waiting α)} {last : Array α}
    (patience : Nat) (hwaiting : AllWaiting Q waiting) (hlast : ∀ a ∈ last, Q a) :
    Meets P (fun pile => AllWaiting Q pile.waiting ∧ ∀ a ∈ pile.last, Q a)
      (closeDeeper less depth waiting last patience) := by
  induction waiting generalizing last patience with
  | nil => exact Meets.ok ⟨hwaiting, hlast⟩
  | cons top rest ih =>
    obtain ⟨htop, hrest⟩ := List.forall_mem_cons.1 hwaiting
    rw [closeDeeper]
    split
    · exact (mergeRuns_meets hless patience htop hlast).bind fun merged hmerged =>
        ih _ hrest hmerged
    · exact Meets.ok ⟨hwaiting, hlast⟩

theorem closeAll_meets (waiting : List (Waiting α)) (last : Array α) (patience : Nat)
    (hwaiting : AllWaiting Q waiting) (hlast : ∀ a ∈ last, Q a) :
    Meets P (fun r => ∀ a ∈ r, Q a) (closeAll less waiting last patience) := by
  fun_induction closeAll less waiting last patience with
  | case1 => exact Meets.ok hlast
  | case2 last patience top =>
    have htop := hwaiting top List.mem_cons_self
    exact (mergeRuns_meets hless patience htop hlast).bind fun merged hmerged => Meets.ok hmerged
  | case3 last patience top next rest hsize ih =>
    obtain ⟨htop, hbelow⟩ := List.forall_mem_cons.1 hwaiting
    obtain ⟨hnext, hrest⟩ := List.forall_mem_cons.1 hbelow
    exact (mergeRuns_meets hless patience hnext htop).bind fun merged hmerged =>
      ih _ _ (List.forall_mem_cons.2 ⟨hmerged, hrest⟩) hlast
  | case4 last patience top next rest hsize ih =>
    obtain ⟨htop, hbelow⟩ := List.forall_mem_cons.1 hwaiting
    exact (mergeRuns_meets hless patience htop hlast).bind fun merged hmerged =>
      ih _ _ hbelow hmerged

theorem sortBehind_meets (n fuel start : Nat) {pile : Pile α} {items : List α}
    (hwaiting : AllWaiting Q pile.waiting) (hlast : ∀ a ∈ pile.last, Q a)
    (hitems : ∀ a ∈ items, Q a) :
    Meets P (fun r => ∀ a ∈ r, Q a) (sortBehind less n fuel start pile items) := by
  induction fuel generalizing start pile items with
  | zero => exact closeAll_meets hless _ _ _ hwaiting hlast
  | succ fuel ih =>
    rw [sortBehind]
    split
    · exact closeAll_meets hless _ _ _ hwaiting hlast
    · refine (nextRun_meets hless _ hitems).bind fun run hrun => ?_
      refine (closeDeeper_meets hless _ _ hwaiting hlast).bind fun closed hclosed => ?_
      exact ih _ (List.forall_mem_cons.2 ⟨hclosed.2, hclosed.1⟩) (by simpa using hrun.1) hrun.2

/-- An error of a sort is one of comparing two of the items, and what is sorted are the items. -/
theorem sort_meets {items : List α} (hitems : ∀ a ∈ items, Q a) :
    Meets P (fun r => ∀ a ∈ r, Q a) (sort less items) := by
  refine (nextRun_meets hless _ hitems).bind fun run hrun => ?_
  refine (sortBehind_meets hless _ _ _ (by simp [AllWaiting]) (by simpa using hrun.1) hrun.2).bind
    fun sorted hsorted => Meets.ok ?_
  simpa using hsorted

end ModuleDocs.Ascending
