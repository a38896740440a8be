import Mathlib
import ModuleDocs.Proofs.Source.Derivation

/-!
# What is derived is read

`run` reads tokens from a state, and gives the state behind them and the forms that ended.
The tokens of a derivation are read as what it writes: a value is held by the mode behind
it (`Node.HasTree.isRead`), so that the next token goes on from the complete value, and the
forms of a source end one after the other (`run_of_forms`).
-/

namespace ModuleDocs.Source

/-- Reads tokens one after the other; gives the state behind them and the forms that end. -/
def run (s : State) : List Token → Option (State × List FormNode)
  | [] => some (s, [])
  | t :: rest =>
    match step s t with
    | none => none
    | some (next, form?) => (run next rest).map fun (last, forms) => (last, form?.toList ++ forms)

/-- Tokens lead from a state to another one, and no form ends. -/
def Leads (s : State) (tokens : List Token) (next : State) : Prop := run s tokens = some (next, [])

variable {s next last : State} {t : Token} {front back rest : List Token} {forms : List FormNode}

theorem run_cons (h : step s t = Step.to next) : run s (t :: rest) = run next rest := by
  simp only [run, h, Step.to]
  cases run next rest <;> rfl

theorem run_append (h : run s front = some (next, forms)) : run s (front ++ back)
    = (run next back).map fun (last, more) => (last, forms ++ more) := by
  induction front generalizing s forms with
  | nil =>
    cases h
    simp
  | cons t front ih =>
    rw [run] at h
    split at h
    · cases h
    rename_i middle form? hstep
    obtain ⟨⟨_, ended⟩, hmiddle, heq⟩ := Option.map_eq_some_iff.1 h
    cases heq
    rw [List.cons_append, run, hstep]
    dsimp only
    rw [ih hmiddle, Option.map_map]
    congr 1
    funext p
    simp

namespace Leads

theorem nil (s : State) : Leads s [] s := rfl

theorem cons (h : step s t = Step.to next) (hrest : Leads next rest last) :
    Leads s (t :: rest) last := (run_cons h).trans hrest

theorem single (h : step s t = Step.to next) : Leads s [t] next := cons h (nil next)

theorem append (hfront : Leads s front next) (hback : Leads next back last) :
    Leads s (front ++ back) last := by
  rw [Leads, run_append hfront, hback]
  rfl

end Leads

/-! ## Values -/

/-- The value that is read so far, if it may end here. -/
def Mode.Holds (value : Node) : Mode → Prop
  | .afterName token => value = .name token
  | .strings parts => value = .string parts.reverse
  | .complete whole => value = whole
  | _ => False

/-- The tokens of a value are read up to its end. -/
def Node.IsRead (value : Node) (tokens : List Token) : Prop :=
  ∀ (h : Header) (stack : List Frame) (opening : Bool), ∃ mode,
    Leads (.inValue h stack (.start opening)) tokens (.inValue h stack mode) ∧ mode.Holds value

variable {h : Header} {stack : List Frame} {mode : Mode} {value : Node} {opening : Bool}

/-- Behind a value, a token that does not continue it takes it as it is. -/
theorem step_of_holds (hmode : mode.Holds value) (hslash : t.kind ≠ .slash)
    (hstring : t.kind ≠ .string) :
    step (.inValue h stack mode) t = stepComplete h value t stack := by
  match mode with
  | .afterName token =>
    cases hmode
    exact if_neg hslash
  | .strings parts =>
    cases hmode
    exact if_neg hstring
  | .complete whole =>
    cases hmode
    rfl
  | .start _ | .afterSlash _ | .afterMinus _ | .binary .. | .binarySlash .. | .binaryEnd .. =>
    cases hmode

section Steps

variable {at_ : Position} {parts : List Token} {name encoding : Token}

theorem step_afterName (ht : t.kind = .slash) : step (.inValue h stack (.afterName name)) t
    = Step.to (.inValue h stack (.afterSlash name)) := if_pos ht

theorem step_afterSlash (ht : t.kind = .integer) : step (.inValue h stack (.afterSlash name)) t
    = Step.to (.inValue h stack (.complete (.funRef name t))) := if_pos ht

theorem step_afterMinus (ht : t.kind = .integer) : step (.inValue h stack (.afterMinus at_)) t
    = Step.to (.inValue h stack (.complete (.negative at_ t))) := if_pos ht

theorem step_binary_slash (ht : t.kind = .slash) : step (.inValue h stack (.binary at_ parts)) t
    = Step.to (.inValue h stack (.binarySlash at_ parts)) := by
  simp [step, stepValue, ht]

theorem step_binary_close (ht : t.kind = .closeBinary) :
    step (.inValue h stack (.binary at_ parts)) t
      = Step.to (.inValue h stack (.complete (.binary at_ parts.reverse none))) := by
  simp [step, stepValue, ht]

theorem step_binarySlash (ht : t.kind = .name) : step (.inValue h stack (.binarySlash at_ parts)) t
    = Step.to (.inValue h stack (.binaryEnd at_ parts t)) := if_pos ht

theorem step_binaryEnd (ht : t.kind = .closeBinary) :
    step (.inValue h stack (.binaryEnd at_ parts encoding)) t
      = Step.to (.inValue h stack (.complete (.binary at_ parts.reverse (some encoding)))) :=
  if_pos ht

theorem step_start_name (ht : t.kind = .name) : step (.inValue h stack (.start opening)) t
    = Step.to (.inValue h stack (.afterName t)) := by
  simp [step, stepValue, stepStart, ht]

theorem step_start_quotedAtom (ht : t.kind = .quotedAtom) :
    step (.inValue h stack (.start opening)) t
      = Step.to (.inValue h stack (.complete (.quoted t))) := by
  simp [step, stepValue, stepStart, ht]

theorem step_start_string (ht : t.kind = .string) : step (.inValue h stack (.start opening)) t
    = Step.to (.inValue h stack (.strings [t])) := by
  simp [step, stepValue, stepStart, ht]

theorem step_start_integer (ht : t.kind = .integer) : step (.inValue h stack (.start opening)) t
    = Step.to (.inValue h stack (.complete (.integer t))) := by
  simp [step, stepValue, stepStart, ht]

theorem step_start_minus (ht : t.kind = .minus) : step (.inValue h stack (.start opening)) t
    = Step.to (.inValue h stack (.afterMinus t.position)) := by
  simp [step, stepValue, stepStart, ht]

theorem step_start_openBinary (ht : t.kind = .openBinary) :
    step (.inValue h stack (.start opening)) t
      = Step.to (.inValue h stack (.binary t.position [])) := by
  simp [step, stepValue, stepStart, ht]

end Steps

theorem leads_strings {parts done : List Token} (hparts : ∀ t ∈ parts, t.kind = .string) :
    Leads (.inValue h stack (.strings done)) parts
      (.inValue h stack (.strings (parts.reverse ++ done))) := by
  induction parts generalizing done with
  | nil => exact .nil _
  | cons t parts ih =>
    obtain ⟨ht, hparts⟩ := List.forall_mem_cons.1 hparts
    rw [List.reverse_cons, List.append_assoc, List.singleton_append]
    exact .cons (if_pos ht) (ih hparts)

theorem leads_binary {at_ : Position} {parts done : List Token}
    (hparts : ∀ t ∈ parts, t.kind = .string) :
    Leads (.inValue h stack (.binary at_ done)) parts
      (.inValue h stack (.binary at_ (parts.reverse ++ done))) := by
  induction parts generalizing done with
  | nil => exact .nil _
  | cons t parts ih =>
    obtain ⟨ht, hparts⟩ := List.forall_mem_cons.1 hparts
    rw [List.reverse_cons, List.append_assoc, List.singleton_append]
    exact .cons (if_pos ht) (ih hparts)

theorem leads_encoding {at_ : Position} {parts encoding : List Token} {encoding? : Option Token}
    {r : Token} (hencoding : IsEncoding encoding? encoding) (hr : r.kind = .closeBinary) :
    Leads (.inValue h stack (.binary at_ parts)) (encoding ++ [r])
      (.inValue h stack (.complete (.binary at_ parts.reverse encoding?))) := by
  cases encoding? with
  | none =>
    cases hencoding
    exact .single (step_binary_close hr)
  | some name =>
    obtain ⟨hname, slash, hslash, rfl⟩ := hencoding
    exact .cons (step_binary_slash hslash) (.cons (step_binarySlash hname)
      (.single (step_binaryEnd hr)))

section Items

variable {α : Type} {frame : List α → Frame} {whole : List α → Node} {closing : TokenKind}
  {R : α → SyntaxTree → Prop} {items : List α} {children : List SyntaxTree} {done : List α}

/-- The tokens of an item are read inside a frame: behind them a comma puts it to the other
items, and the closing bracket ends the whole. -/
def IsItemRead (frame : List α → Frame) (whole : List α → Node) (closing : TokenKind) (item : α)
    (tokens : List Token) : Prop :=
  ∀ (h : Header) (stack : List Frame) (done : List α) (opening : Bool), ∃ s,
    Leads (.inValue h (frame done :: stack) (.start opening)) tokens s
      ∧ (∀ t : Token, t.kind = .comma →
        step s t = Step.to (.inValue h (frame (item :: done) :: stack) (.start false)))
      ∧ ∀ t : Token, t.kind = closing →
        step s t = Step.to (.inValue h stack (.complete (whole (item :: done).reverse)))

theorem leads_items (htrees : Separated R items children) (hne : items ≠ [])
    (hR : ∀ item ∈ items, ∀ tree, R item tree → IsItemRead frame whole closing item tree.yield)
    {r : Token} (hr : r.kind = closing) :
    Leads (.inValue h (frame done :: stack) (.start opening)) (SyntaxTree.yields children ++ [r])
      (.inValue h stack (.complete (whole (done.reverse ++ items)))) := by
  induction htrees generalizing done opening with
  | nil => exact absurd rfl hne
  | one htree =>
    obtain ⟨s, hleads, _, hclose⟩ := hR _ (by simp) _ htree h stack done opening
    have hwhole := hleads.append (.single (hclose r hr))
    simpa [SyntaxTree.yields] using hwhole
  | cons htree hcomma _ ih =>
    obtain ⟨s, hleads, hnext, _⟩ := hR _ (by simp) _ htree h stack done opening
    have hrest := hleads.append (.cons (hnext _ hcomma)
      (ih (List.cons_ne_nil _ _) fun item hitem => hR item (List.mem_cons_of_mem _ hitem)))
    simpa [SyntaxTree.yields, SyntaxTree.yield] using hrest

theorem isRead_bracketed (frame : Position → List α → Frame) (whole : Position → List α → Node)
    {rule : Rule} {opening : TokenKind} {at_ : Position} {tree : SyntaxTree}
    (htree : tree.IsBracketed rule opening closing at_ children)
    (hchildren : Separated R items children)
    (hR : ∀ item ∈ items, ∀ tree, R item tree →
      IsItemRead (frame at_) (whole at_) closing item tree.yield)
    (hopen : ∀ (l : Token) (h : Header) (stack : List Frame) (first : Bool), l.kind = opening →
      step (.inValue h stack (.start first)) l
        = Step.to (.inValue h (frame l.position [] :: stack) (.start true)))
    (hempty : ∀ (r : Token) (h : Header) (stack : List Frame), r.kind = closing →
      step (.inValue h (frame at_ [] :: stack) (.start true)) r
        = Step.to (.inValue h stack (.complete (whole at_ [])))) :
    (whole at_ items).IsRead tree.yield := by
  intro h stack first
  obtain ⟨l, r, hl, rfl, hr, rfl⟩ := htree
  refine ⟨.complete (whole l.position items), ?_, rfl⟩
  simp only [SyntaxTree.ofValue, SyntaxTree.yield, SyntaxTree.yields, SyntaxTree.yields_append,
    List.append_nil, List.singleton_append]
  refine .cons (hopen l h stack first hl) ?_
  by_cases hne : items = []
  · subst hne
    rw [separated_nil_iff.1 hchildren]
    exact .single (hempty r h stack hr)
  · exact leads_items hchildren hne hR hr

end Items

theorem isItemRead_list {at_ : Position} {tokens : List Token} (hread : value.IsRead tokens) :
    IsItemRead (.list at_) (.list at_) .rightBracket value tokens := by
  intro h stack done opening
  obtain ⟨mode, hleads, hmode⟩ := hread h (.list at_ done :: stack) opening
  refine ⟨_, hleads, fun t ht => ?_, fun t ht => ?_⟩
  · rw [step_of_holds hmode (by simp [ht]) (by simp [ht]), stepComplete, if_pos ht]
  · rw [step_of_holds hmode (by simp [ht]) (by simp [ht]), stepComplete, if_neg (by simp [ht]),
      if_pos ht]

theorem isItemRead_tuple {at_ : Position} {tokens : List Token} (hread : value.IsRead tokens) :
    IsItemRead (.tuple at_) (.tuple at_) .rightBrace value tokens := by
  intro h stack done opening
  obtain ⟨mode, hleads, hmode⟩ := hread h (.tuple at_ done :: stack) opening
  refine ⟨_, hleads, fun t ht => ?_, fun t ht => ?_⟩
  · rw [step_of_holds hmode (by simp [ht]) (by simp [ht]), stepComplete, if_pos ht]
  · rw [step_of_holds hmode (by simp [ht]) (by simp [ht]), stepComplete, if_neg (by simp [ht]),
      if_pos ht]

theorem isItemRead_map {at_ : Position} {pair : Node × Node} {tree : SyntaxTree}
    (htree : HasPairTree pair tree) (hkey : ∀ tree, pair.1.HasTree tree → pair.1.IsRead tree.yield)
    (hvalue : ∀ tree, pair.2.HasTree tree → pair.2.IsRead tree.yield) :
    IsItemRead (.mapKey at_) (.map at_) .rightBrace pair tree.yield := by
  obtain ⟨key, value⟩ := pair
  intro h stack done opening
  obtain ⟨keyTree, arrow, valueTree, hk, harrow, hv, rfl⟩ := htree
  obtain ⟨keyMode, hkeyLeads, hkeyMode⟩ := hkey _ hk h (.mapKey at_ done :: stack) opening
  obtain ⟨valueMode, hvalueLeads, hvalueMode⟩ :=
    hvalue _ hv h (.mapValue at_ done key :: stack) false
  have harrowStep : step (.inValue h (.mapKey at_ done :: stack) keyMode) arrow
      = Step.to (.inValue h (.mapValue at_ done key :: stack) (.start false)) := by
    rw [step_of_holds hkeyMode (by simp [harrow]) (by simp [harrow]), stepComplete, if_pos harrow]
  have hleads := hkeyLeads.append (.cons harrowStep hvalueLeads)
  refine ⟨_, by simpa [SyntaxTree.yield, SyntaxTree.yields] using hleads, fun t ht => ?_,
    fun t ht => ?_⟩
  · rw [step_of_holds hvalueMode (by simp [ht]) (by simp [ht]), stepComplete, if_pos ht]
  · rw [step_of_holds hvalueMode (by simp [ht]) (by simp [ht]), stepComplete,
      if_neg (by simp [ht]), if_pos ht]

/-- The tokens of a derivation of a value are read as this value. -/
theorem Node.HasTree.isRead {node : Node} {tree : SyntaxTree} (htree : node.HasTree tree) :
    node.IsRead tree.yield := by
  induction node using Node.induction generalizing tree with
  | string parts =>
    obtain ⟨hne, hparts, rfl⟩ := htree
    obtain ⟨first, rest, rfl⟩ := List.exists_cons_of_ne_nil hne
    obtain ⟨hfirst, hrest⟩ := List.forall_mem_cons.1 hparts
    intro h stack opening
    refine ⟨.strings (rest.reverse ++ [first]), ?_, by simp [Mode.Holds]⟩
    simp only [SyntaxTree.ofValue, SyntaxTree.yield, SyntaxTree.yields, SyntaxTree.yields_leaves,
      List.append_nil]
    exact .cons (step_start_string hfirst) (leads_strings hrest)
  | binary at_ parts encoding? =>
    obtain ⟨hparts, encoding, hencoding, l, r, hl, rfl, hr, rfl⟩ := htree
    intro h stack opening
    refine ⟨.complete (.binary l.position parts encoding?), ?_, rfl⟩
    simp only [SyntaxTree.ofValue, SyntaxTree.yield, SyntaxTree.yields, SyntaxTree.yields_leaves,
      SyntaxTree.yields_append, List.append_nil, List.append_assoc, List.singleton_append]
    refine .cons (step_start_openBinary hl) ((leads_binary hparts).append ?_)
    have hreversed : parts = (parts.reverse ++ []).reverse := by simp
    nth_rewrite 2 [hreversed]
    exact leads_encoding hencoding hr
  | funRef name arity =>
    obtain ⟨hname, harity, slash, hslash, rfl⟩ := htree
    intro h stack opening
    refine ⟨.complete (.funRef name arity), ?_, rfl⟩
    exact .cons (step_start_name hname) (.cons (step_afterName hslash)
      (.single (step_afterSlash harity)))
  | name token =>
    obtain ⟨htoken, rfl⟩ := htree
    intro h stack opening
    exact ⟨.afterName token, .single (step_start_name htoken), rfl⟩
  | quoted token =>
    obtain ⟨htoken, rfl⟩ := htree
    intro h stack opening
    exact ⟨.complete (.quoted token), .single (step_start_quotedAtom htoken), rfl⟩
  | integer token =>
    obtain ⟨htoken, rfl⟩ := htree
    intro h stack opening
    exact ⟨.complete (.integer token), .single (step_start_integer htoken), rfl⟩
  | negative at_ token =>
    obtain ⟨htoken, sign, hsign, rfl, rfl⟩ := htree
    intro h stack opening
    refine ⟨.complete (.negative sign.position token), ?_, rfl⟩
    exact .cons (step_start_minus hsign) (.single (step_afterMinus htoken))
  | list at_ items ih =>
    obtain ⟨children, htrees, hbracketed⟩ := htree
    refine isRead_bracketed .list .list hbracketed (hasTrees_iff.1 htrees)
      (fun item hitem tree htree => isItemRead_list (ih item hitem htree)) ?_ ?_
    · intro l h stack first hl
      simp [step, stepValue, stepStart, hl]
    · intro r h stack hr
      simp [step, stepValue, stepStart, stepEmpty, hr]
  | tuple at_ items ih =>
    obtain ⟨children, htrees, hbracketed⟩ := htree
    refine isRead_bracketed .tuple .tuple hbracketed (hasTrees_iff.1 htrees)
      (fun item hitem tree htree => isItemRead_tuple (ih item hitem htree)) ?_ ?_
    · intro l h stack first hl
      simp [step, stepValue, stepStart, hl]
    · intro r h stack hr
      simp [step, stepValue, stepStart, stepEmpty, hr]
  | map at_ pairs ih =>
    obtain ⟨children, htrees, hbracketed⟩ := htree
    refine isRead_bracketed .mapKey .map hbracketed
      (havePairTrees_iff.1 htrees) (fun pair hpair tree htree => ?_) ?_ ?_
    · exact isItemRead_map htree (fun _ h => (ih pair hpair).1 h) fun _ h => (ih pair hpair).2 h
    · intro l h stack first hl
      simp [step, stepValue, stepStart, hl]
    · intro r h stack hr
      simp [step, stepValue, stepStart, stepEmpty, hr]

/-! ## Forms -/

/-- The tokens of a form lead to its dot. -/
theorem FormNode.HasTree.exists_leads {form : FormNode} {tree : SyntaxTree}
    (htree : form.HasTree tree) : ∃ front dot s, tree.yield = front ++ [dot]
      ∧ Leads .between front s ∧ step s dot = some (.between, some form) := by
  obtain ⟨sign, dot, valueTree, children, hsign, hat, hname, hvalue, henclosed, hdot, rfl⟩ := htree
  have hstart : Leads .between [sign, form.name]
      (.inValue ⟨form.at_, form.name, false⟩ [] (.start true)) := by
    rw [← hat]
    exact .cons (if_pos hsign) (.single (if_pos hname))
  rcases henclosed with rfl | ⟨l, r, hl, hr, rfl⟩
  · obtain ⟨mode, hleads, hmode⟩ := hvalue.isRead ⟨form.at_, form.name, false⟩ [] true
    refine ⟨_, dot, _, ?_, hstart.append hleads, ?_⟩
    · simp [SyntaxTree.yield, SyntaxTree.yields]
    · rw [step_of_holds hmode (by simp [hdot]) (by simp [hdot]), stepComplete, if_neg (by simp),
        if_pos hdot]
  · obtain ⟨mode, hleads, hmode⟩ := hvalue.isRead ⟨form.at_, form.name, true⟩ [] false
    have hopen : step (.inValue ⟨form.at_, form.name, false⟩ [] (.start true)) l
        = Step.to (.inValue ⟨form.at_, form.name, true⟩ [] (.start false)) := by
      simp [step, stepValue, stepStart, hl]
    have hclose : step (.inValue ⟨form.at_, form.name, true⟩ [] mode) r
        = Step.to (.formEnd ⟨form.at_, form.name, true⟩ form.value) := by
      rw [step_of_holds hmode (by simp [hr]) (by simp [hr]), stepComplete, if_pos rfl, if_pos hr]
    refine ⟨_, dot, _, ?_, hstart.append (.cons hopen (hleads.append (.single hclose))), ?_⟩
    · simp [SyntaxTree.yield, SyntaxTree.yields]
    · exact if_pos hdot

theorem run_of_form {form : FormNode} {tree : SyntaxTree} (htree : form.HasTree tree) :
    run .between tree.yield = some (.between, [form]) := by
  obtain ⟨front, dot, s, hyield, hleads, hstep⟩ := htree.exists_leads
  rw [hyield, run_append hleads, run, hstep]
  rfl

/-- The tokens of derivations of forms are read as these forms. -/
theorem run_of_forms {children : List SyntaxTree}
    (htrees : List.Forall₂ FormNode.HasTree forms children) :
    run .between (SyntaxTree.yields children) = some (.between, forms) := by
  induction htrees with
  | nil => rfl
  | cons hform _ ih =>
    rw [SyntaxTree.yields, run_append (run_of_form hform), ih]
    rfl

namespace Forms

/-- Tokens are forms if reading them ends between two forms. -/
theorem ofTokensFrom_eq_ok_iff {stop? : Option (CodePoint × Position)} {done : List FormNode}
    {at_ : Position} {tokens : List Token} :
    ofTokensFrom stop? s done at_ tokens = .ok forms
      ↔ stop? = none
        ∧ ∃ more, run s tokens = some (.between, more) ∧ forms = done.reverse ++ more := by
  induction tokens generalizing s done at_ with
  | nil =>
    unfold ofTokensFrom
    split
    · simp
    · simp [run, eq_comm]
    · rename_i hs
      simp only [run, Option.some.injEq, Prod.mk.injEq, true_and, reduceCtorEq, false_iff]
      intro h
      obtain ⟨_, ⟨rfl, _⟩, _⟩ := h
      exact hs rfl
  | cons t rest ih =>
    rw [ofTokensFrom, run]
    cases hstep : step s t with
    | none => simp
    | some reached =>
      obtain ⟨next, form?⟩ := reached
      dsimp only
      rw [ih]
      cases run next rest with
      | none => simp
      | some result =>
        cases form? <;> simp [Prod.ext_iff, and_assoc]

end Forms

end ModuleDocs.Source
