import Mathlib
import ModuleDocs.Proofs.Source.Run

/-!
# What is read is derived

`State.HasRead s tokens` says of which tokens, behind the last form, a state tells: those of
a derivation that is not complete yet.  A frame stands for its opening bracket and the parts
behind which a comma was read, and a mode for the first tokens of a value.

A step keeps this (`State.HasRead.step`): it puts the next token to the others, or completes
the derivation of a form.  So a run that ends between two forms has read derivations of the
forms that ended (`exists_of_run`).
-/

namespace ModuleDocs.Source

variable {α : Type}

/-- Trees that stand for items, each with a comma behind it.  The items are last first. -/
inductive Followed (R : α → SyntaxTree → Prop) : List α → List SyntaxTree → Prop
  | nil : Followed R [] []
  | snoc {a : α} {done : List α} {tree : SyntaxTree} {comma : Token} {children : List SyntaxTree}
      (hdone : Followed R done children) (h : R a tree) (hcomma : comma.kind = .comma) :
      Followed R (a :: done) (children ++ [tree, .leaf comma])

theorem Followed.separated {R : α → SyntaxTree → Prop} {a : α} {done rest : List α}
    {children more : List SyntaxTree} (h : Followed R done children)
    (hmore : Separated R (a :: rest) more) :
    Separated R (done.reverse ++ a :: rest) (children ++ more) := by
  induction h generalizing a rest more with
  | nil => exact hmore
  | snoc _ h hcomma ih =>
    rw [List.reverse_cons, List.append_assoc, List.append_assoc]
    exact ih (.cons h hcomma hmore)

theorem Followed.separated_concat {R : α → SyntaxTree → Prop} {a : α} {done : List α}
    {children : List SyntaxTree} {tree : SyntaxTree} (h : Followed R done children)
    (ha : R a tree) : Separated R (a :: done).reverse (children ++ [tree]) := by
  rw [List.reverse_cons]
  exact h.separated (.one ha)

/-! ## States -/

/-- A value that is not complete, and its tokens. -/
def Mode.HasRead : Mode → List Token → Prop
  | .start _, tokens => tokens = []
  | .afterName token, tokens => token.kind = .name ∧ tokens = [token]
  | .afterSlash name, tokens =>
    name.kind = .name ∧ ∃ slash : Token, slash.kind = .slash ∧ tokens = [name, slash]
  | .afterMinus at_, tokens =>
    ∃ sign : Token, sign.kind = .minus ∧ sign.position = at_ ∧ tokens = [sign]
  | .strings parts, tokens =>
    parts ≠ [] ∧ (∀ t ∈ parts, t.kind = .string) ∧ tokens = parts.reverse
  | .binary at_ parts, tokens =>
    (∀ t ∈ parts, t.kind = .string) ∧ ∃ l : Token, l.kind = .openBinary ∧ l.position = at_
      ∧ tokens = l :: parts.reverse
  | .binarySlash at_ parts, tokens =>
    (∀ t ∈ parts, t.kind = .string) ∧ ∃ l slash : Token, l.kind = .openBinary ∧ l.position = at_
      ∧ slash.kind = .slash ∧ tokens = l :: (parts.reverse ++ [slash])
  | .binaryEnd at_ parts encoding, tokens =>
    (∀ t ∈ parts, t.kind = .string) ∧ encoding.kind = .name ∧ ∃ l slash : Token,
      l.kind = .openBinary ∧ l.position = at_ ∧ slash.kind = .slash
        ∧ tokens = l :: (parts.reverse ++ [slash, encoding])
  | .complete value, tokens => ∃ tree, value.HasTree tree ∧ tree.yield = tokens

/-- An opening bracket at a place, and trees behind it. -/
def IsOpened (opening : TokenKind) (at_ : Position) (children : List SyntaxTree)
    (tokens : List Token) : Prop :=
  ∃ l : Token, l.kind = opening ∧ l.position = at_ ∧ tokens = l :: SyntaxTree.yields children

def Frame.HasRead : Frame → List Token → Prop
  | .list at_ done, tokens =>
    ∃ children, Followed Node.HasTree done children ∧ IsOpened .leftBracket at_ children tokens
  | .tuple at_ done, tokens =>
    ∃ children, Followed Node.HasTree done children ∧ IsOpened .leftBrace at_ children tokens
  | .mapKey at_ done, tokens =>
    ∃ children, Followed HasPairTree done children ∧ IsOpened .openMap at_ children tokens
  | .mapValue at_ done key, tokens =>
    ∃ children keyTree, ∃ arrow : Token, Followed HasPairTree done children
      ∧ key.HasTree keyTree ∧ arrow.kind = .arrow
      ∧ IsOpened .openMap at_ (children ++ [keyTree, .leaf arrow]) tokens

def Header.HasRead (h : Header) (tokens : List Token) : Prop :=
  ∃ sign : Token, sign.kind = .minus ∧ sign.position = h.at_ ∧ h.name.kind = .name
    ∧ (h.isOpen = false ∧ tokens = [sign, h.name]
      ∨ h.isOpen = true ∧ ∃ l : Token, l.kind = .leftParen ∧ tokens = [sign, h.name, l])

/-- The beginning of a form and the frames in it, the innermost one last. -/
def StackHasRead (h : Header) : List Frame → List Token → Prop
  | [], tokens => h.HasRead tokens
  | frame :: stack, tokens =>
    ∃ below own, StackHasRead h stack below ∧ frame.HasRead own ∧ tokens = below ++ own

/-- The tokens behind the last form. -/
def State.HasRead : State → List Token → Prop
  | .between, tokens => tokens = []
  | .formName at_, tokens =>
    ∃ sign : Token, sign.kind = .minus ∧ sign.position = at_ ∧ tokens = [sign]
  | .inValue h stack mode, tokens =>
    ∃ before own, StackHasRead h stack before ∧ mode.HasRead own ∧ tokens = before ++ own
  | .formEnd h value, tokens =>
    h.isOpen = true ∧ ∃ before tree, ∃ r : Token, h.HasRead before ∧ value.HasTree tree
      ∧ r.kind = .rightParen ∧ tokens = before ++ (tree.yield ++ [r])

/-- A step to a state that has read the tokens, or one that ends a form of them. -/
def Step.HasRead (next : Step) (tokens : List Token) : Prop :=
  match next.2 with
  | none => next.1.HasRead tokens
  | some form => next.1 = .between ∧ ∃ tree, form.HasTree tree ∧ tree.yield = tokens

/-! ## Steps -/

variable {h : Header} {stack : List Frame} {mode : Mode} {value : Node} {tree : SyntaxTree}
  {t : Token} {next : Step} {before own tokens : List Token}

theorem Step.hasRead_to {s : State} (hstep : Step.to s = some next) (h : s.HasRead tokens) :
    next.HasRead tokens := by
  cases hstep
  exact h

/-- A step that a kind of token allows, or else another one. -/
theorem Step.hasRead_ite {c : Prop} [Decidable c] {s : State} {other : Option Step}
    (hstep : (if c then Step.to s else other) = some next) (hs : c → s.HasRead tokens)
    (hother : other = some next → next.HasRead tokens) : next.HasRead tokens := by
  split at hstep
  · exact Step.hasRead_to hstep (hs ‹c›)
  · exact hother hstep

theorem Step.hasRead_none (h : none = some next) : next.HasRead tokens := by cases h

/-- The trees between two brackets are complete with the closing one. -/
theorem IsOpened.isBracketed {rule : Rule} {opening closing : TokenKind} {at_ : Position}
    {children : List SyntaxTree} (hopened : IsOpened opening at_ children own)
    (ht : t.kind = closing) : ∃ tree : SyntaxTree, tree.yield = own ++ [t]
      ∧ tree.IsBracketed rule opening closing at_ children := by
  obtain ⟨l, hl, hat, rfl⟩ := hopened
  refine ⟨_, ?_, l, t, hl, hat, ht, rfl⟩
  simp [SyntaxTree.ofValue, SyntaxTree.yield, SyntaxTree.yields]

theorem IsOpened.append {opening : TokenKind} {at_ : Position} {children more : List SyntaxTree}
    (hopened : IsOpened opening at_ children own) :
    IsOpened opening at_ (children ++ more) (own ++ SyntaxTree.yields more) := by
  obtain ⟨l, hl, hat, rfl⟩ := hopened
  exact ⟨l, hl, hat, by simp⟩

/-- Only the tokens behind the bracket count. -/
theorem IsOpened.congr {opening : TokenKind} {at_ : Position} {children others : List SyntaxTree}
    (hopened : IsOpened opening at_ children own)
    (hyields : SyntaxTree.yields children = SyntaxTree.yields others) :
    IsOpened opening at_ others own := by
  obtain ⟨l, hl, hat, rfl⟩ := hopened
  exact ⟨l, hl, hat, by rw [hyields]⟩

section Frames

variable {opening closing : TokenKind} {rule : Rule} {at_ : Position} {node : Node}
  {children others : List SyntaxTree} {outer : List Token}

/-- Behind a part and its separator the next part starts. -/
theorem hasRead_next {frame : Frame} (hstack : StackHasRead h stack before)
    (hopened : IsOpened opening at_ children outer)
    (hframe : ∀ own, IsOpened opening at_ (children ++ [tree, .leaf t]) own → frame.HasRead own) :
    (State.inValue h (frame :: stack) (.start false)).HasRead
      (before ++ outer ++ tree.yield ++ [t]) := by
  refine ⟨_, [], ⟨before, _, hstack, hframe _ hopened.append, ?_⟩, rfl, (List.append_nil _).symm⟩
  simp [SyntaxTree.yields, SyntaxTree.yield]

/-- Behind the last part and the closing bracket a value is complete. -/
theorem hasRead_last (hstack : StackHasRead h stack before)
    (hopened : IsOpened opening at_ children outer)
    (hyields : SyntaxTree.yields (children ++ [tree]) = SyntaxTree.yields others)
    (hnode : ∀ whole, whole.IsBracketed rule opening closing at_ others → node.HasTree whole)
    (ht : t.kind = closing) :
    (State.inValue h stack (.complete node)).HasRead (before ++ outer ++ tree.yield ++ [t]) := by
  have hown : IsOpened opening at_ others (outer ++ SyntaxTree.yields [tree]) :=
    hopened.append.congr hyields
  obtain ⟨whole, hyield, hbracketed⟩ := hown.isBracketed ht
  refine ⟨before, _, hstack, ⟨whole, hnode whole hbracketed, hyield⟩, ?_⟩
  simp [SyntaxTree.yields]

/-- Behind an opening bracket and a closing one a value is complete. -/
theorem hasRead_empty (hstack : StackHasRead h stack before) (hopened : IsOpened opening at_ [] outer)
    (hnode : ∀ whole, whole.IsBracketed rule opening closing at_ [] → node.HasTree whole)
    (ht : t.kind = closing) :
    (State.inValue h stack (.complete node)).HasRead (before ++ outer ++ [t]) := by
  obtain ⟨whole, hyield, hbracketed⟩ := hopened.isBracketed ht
  exact ⟨before, _, hstack, ⟨whole, hnode whole hbracketed, hyield⟩, List.append_assoc _ _ _⟩

end Frames

theorem Header.HasRead.hasTree {dot : Token} (hheader : h.HasRead before) (hopen : h.isOpen = false)
    (htree : value.HasTree tree) (hdot : dot.kind = .dot) :
    ∃ formTree, (FormNode.mk h.at_ h.name value).HasTree formTree
      ∧ formTree.yield = before ++ (tree.yield ++ [dot]) := by
  obtain ⟨sign, hsign, hat, hname, ⟨_, rfl⟩ | ⟨hopen', _⟩⟩ := hheader
  · refine ⟨_, ⟨sign, dot, tree, [tree], hsign, hat, hname, htree, Or.inl rfl, hdot, rfl⟩, ?_⟩
    simp [SyntaxTree.yield, SyntaxTree.yields]
  · rw [hopen] at hopen'
    cases hopen'

theorem Header.HasRead.hasTree_of_isOpen {r dot : Token} (hheader : h.HasRead before)
    (hopen : h.isOpen = true) (htree : value.HasTree tree) (hr : r.kind = .rightParen)
    (hdot : dot.kind = .dot) : ∃ formTree, (FormNode.mk h.at_ h.name value).HasTree formTree
      ∧ formTree.yield = before ++ (tree.yield ++ [r]) ++ [dot] := by
  obtain ⟨sign, hsign, hat, hname, ⟨hopen', _⟩ | ⟨_, l, hl, rfl⟩⟩ := hheader
  · rw [hopen] at hopen'
    cases hopen'
  · refine ⟨_, ⟨sign, dot, tree, [.leaf l, tree, .leaf r], hsign, hat, hname, htree,
      Or.inr ⟨l, r, hl, hr, rfl⟩, hdot, rfl⟩, ?_⟩
    simp [SyntaxTree.yield, SyntaxTree.yields]

theorem hasRead_stepComplete (hstack : StackHasRead h stack before) (htree : value.HasTree tree)
    (hown : tree.yield = own) (hstep : stepComplete h value t stack = some next) :
    next.HasRead (before ++ own ++ [t]) := by
  subst hown
  match stack with
  | [] =>
    rw [stepComplete] at hstep
    split at hstep
    · rename_i hopen
      refine Step.hasRead_ite hstep (fun ht => ?_) Step.hasRead_none
      exact ⟨hopen, before, tree, t, hstack, htree, ht, List.append_assoc _ _ _⟩
    · rename_i hopen
      split at hstep
      · rename_i ht
        cases hstep
        obtain ⟨formTree, hform, hyield⟩ :=
          Header.HasRead.hasTree hstack (Bool.eq_false_iff.2 hopen) htree ht
        exact ⟨rfl, formTree, hform, by rw [hyield, List.append_assoc]⟩
      · cases hstep
  | .list at_ done :: stack =>
    obtain ⟨below, outer, hstack, ⟨children, hdone, hopened⟩, rfl⟩ := hstack
    refine Step.hasRead_ite hstep (fun ht => ?_) fun hstep => Step.hasRead_ite hstep (fun ht => ?_)
      Step.hasRead_none
    · exact hasRead_next hstack hopened fun own hown => ⟨_, hdone.snoc htree ht, hown⟩
    · exact hasRead_last hstack hopened rfl
        (fun _ h => ⟨_, hasTrees_iff.2 (hdone.separated_concat htree), h⟩) ht
  | .tuple at_ done :: stack =>
    obtain ⟨below, outer, hstack, ⟨children, hdone, hopened⟩, rfl⟩ := hstack
    refine Step.hasRead_ite hstep (fun ht => ?_) fun hstep => Step.hasRead_ite hstep (fun ht => ?_)
      Step.hasRead_none
    · exact hasRead_next hstack hopened fun own hown => ⟨_, hdone.snoc htree ht, hown⟩
    · exact hasRead_last hstack hopened rfl
        (fun _ h => ⟨_, hasTrees_iff.2 (hdone.separated_concat htree), h⟩) ht
  | .mapKey at_ done :: stack =>
    obtain ⟨below, outer, hstack, ⟨children, hdone, hopened⟩, rfl⟩ := hstack
    refine Step.hasRead_ite hstep (fun ht => ?_) Step.hasRead_none
    exact hasRead_next hstack hopened fun own hown => ⟨children, tree, t, hdone, htree, ht, hown⟩
  | .mapValue at_ done key :: stack =>
    obtain ⟨below, outer, hstack, ⟨children, keyTree, arrow, hdone, hkey, harrow, hopened⟩, rfl⟩ :=
      hstack
    have hpair : HasPairTree (key, value) (.node .pair [keyTree, .leaf arrow, tree]) :=
      ⟨keyTree, arrow, tree, hkey, harrow, htree, rfl⟩
    refine Step.hasRead_ite hstep (fun ht => ?_) fun hstep => Step.hasRead_ite hstep (fun ht => ?_)
      Step.hasRead_none
    · refine hasRead_next hstack hopened fun own hown => ⟨_, hdone.snoc hpair ht, hown.congr ?_⟩
      simp [SyntaxTree.yields, SyntaxTree.yield]
    · refine hasRead_last hstack hopened ?_
        (fun _ h => ⟨_, havePairTrees_iff.2 (hdone.separated_concat hpair), h⟩) ht
      simp [SyntaxTree.yields, SyntaxTree.yield]

theorem hasRead_stepEmpty (hstack : StackHasRead h stack before)
    (hstep : stepEmpty h t stack = some next) : next.HasRead (before ++ [t]) := by
  match stack with
  | .list at_ [] :: stack =>
    obtain ⟨below, outer, hstack, ⟨_, hdone, hopened⟩, rfl⟩ := hstack
    cases hdone
    exact Step.hasRead_ite hstep (hasRead_empty hstack hopened fun _ h => ⟨[], rfl, h⟩)
      Step.hasRead_none
  | .tuple at_ [] :: stack =>
    obtain ⟨below, outer, hstack, ⟨_, hdone, hopened⟩, rfl⟩ := hstack
    cases hdone
    exact Step.hasRead_ite hstep (hasRead_empty hstack hopened fun _ h => ⟨[], rfl, h⟩)
      Step.hasRead_none
  | .mapKey at_ [] :: stack =>
    obtain ⟨below, outer, hstack, ⟨_, hdone, hopened⟩, rfl⟩ := hstack
    cases hdone
    exact Step.hasRead_ite hstep (hasRead_empty hstack hopened fun _ h => ⟨[], rfl, h⟩)
      Step.hasRead_none
  | [] | .list _ (_ :: _) :: _ | .tuple _ (_ :: _) :: _ | .mapKey _ (_ :: _) :: _
  | .mapValue .. :: _ => cases hstep

/-- A bracket behind which a value starts. -/
theorem hasRead_opened {frame : Frame} {opening : TokenKind}
    (hstack : StackHasRead h stack before) (ht : t.kind = opening)
    (hframe : ∀ own, IsOpened opening t.position [] own → frame.HasRead own) :
    (State.inValue h (frame :: stack) (.start true)).HasRead (before ++ [t]) :=
  ⟨_, [], ⟨before, _, hstack, hframe _ ⟨t, ht, rfl, rfl⟩, rfl⟩, rfl, (List.append_nil _).symm⟩

theorem hasRead_stepStart {opening : Bool} (hstack : StackHasRead h stack before)
    (hstep : stepStart h stack opening t = some next) : next.HasRead (before ++ [t]) := by
  have hmode {mode : Mode} (hmode : mode.HasRead [t]) :
      (State.inValue h stack mode).HasRead (before ++ [t]) := ⟨before, [t], hstack, hmode, rfl⟩
  unfold stepStart at hstep
  split at hstep
  case h_1 hkind => exact Step.hasRead_to hstep (hmode ⟨hkind, rfl⟩)
  case h_2 hkind => exact Step.hasRead_to hstep (hmode ⟨_, ⟨hkind, rfl⟩, rfl⟩)
  case h_3 hkind => exact Step.hasRead_to hstep (hmode ⟨by simp, by simp [hkind], rfl⟩)
  case h_4 hkind => exact Step.hasRead_to hstep (hmode ⟨_, ⟨hkind, rfl⟩, rfl⟩)
  case h_5 hkind => exact Step.hasRead_to hstep (hmode ⟨t, hkind, rfl, rfl⟩)
  case h_6 hkind => exact Step.hasRead_to hstep (hmode ⟨by simp, t, hkind, rfl, rfl⟩)
  case h_7 hkind =>
    exact Step.hasRead_to hstep (hasRead_opened hstack hkind fun _ hown => ⟨[], .nil, hown⟩)
  case h_8 hkind =>
    exact Step.hasRead_to hstep (hasRead_opened hstack hkind fun _ hown => ⟨[], .nil, hown⟩)
  case h_9 hkind =>
    exact Step.hasRead_to hstep (hasRead_opened hstack hkind fun _ hown => ⟨[], .nil, hown⟩)
  case h_10 hkind =>
    split at hstep
    · rename_i hfirst
      simp only [Bool.and_eq_true, List.isEmpty_iff, Bool.not_eq_true'] at hfirst
      obtain ⟨⟨_, rfl⟩, hopen⟩ := hfirst
      obtain ⟨sign, hsign, hat, hname, ⟨_, rfl⟩ | ⟨hopen', _⟩⟩ := hstack
      · refine Step.hasRead_to hstep ⟨_, [], ?_, rfl, (List.append_nil _).symm⟩
        exact ⟨sign, hsign, hat, hname, Or.inr ⟨rfl, t, hkind, rfl⟩⟩
      · rw [hopen] at hopen'
        cases hopen'
    · cases hstep
  case h_11 =>
    split at hstep
    · exact hasRead_stepEmpty hstack hstep
    · cases hstep

/-- A binary is complete with its closing bracket. -/
theorem exists_hasTree_binary {l : Token} {at_ : Position} {parts encoding : List Token}
    {encoding? : Option Token} (hl : l.kind = .openBinary) (hat : l.position = at_)
    (hparts : ∀ t ∈ parts, t.kind = .string) (hencoding : IsEncoding encoding? encoding)
    (ht : t.kind = .closeBinary) : ∃ tree, (Node.binary at_ parts.reverse encoding?).HasTree tree
      ∧ tree.yield = l :: (parts.reverse ++ encoding) ++ [t] := by
  have hopened : IsOpened .openBinary at_ ((parts.reverse ++ encoding).map .leaf)
      (l :: (parts.reverse ++ encoding)) := ⟨l, hl, hat, by rw [SyntaxTree.yields_leaves]⟩
  obtain ⟨tree, hyield, hbracketed⟩ := hopened.isBracketed ht
  exact ⟨tree, ⟨fun t ht => hparts t (List.mem_reverse.1 ht), encoding, hencoding, hbracketed⟩,
    hyield⟩

theorem hasRead_stepValue (hstack : StackHasRead h stack before) (hmode : mode.HasRead own)
    (hstep : stepValue h stack mode t = some next) : next.HasRead (before ++ own ++ [t]) := by
  have hinside {mode : Mode} (hmode : mode.HasRead (own ++ [t])) :
      (State.inValue h stack mode).HasRead (before ++ own ++ [t]) :=
    ⟨before, own ++ [t], hstack, hmode, List.append_assoc _ _ _⟩
  match mode with
  | .start opening =>
    cases hmode
    rw [List.append_nil]
    exact hasRead_stepStart hstack hstep
  | .afterName name =>
    obtain ⟨hname, rfl⟩ := hmode
    exact Step.hasRead_ite hstep (fun ht => hinside ⟨hname, t, ht, rfl⟩)
      (hasRead_stepComplete hstack ⟨hname, rfl⟩ rfl)
  | .afterSlash name =>
    obtain ⟨hname, slash, hslash, rfl⟩ := hmode
    exact Step.hasRead_ite hstep
      (fun ht => hinside ⟨_, ⟨hname, ht, slash, hslash, rfl⟩, rfl⟩) Step.hasRead_none
  | .afterMinus at_ =>
    obtain ⟨sign, hsign, hat, rfl⟩ := hmode
    exact Step.hasRead_ite hstep
      (fun ht => hinside ⟨_, ⟨ht, sign, hsign, hat, rfl⟩, rfl⟩) Step.hasRead_none
  | .strings parts =>
    obtain ⟨hne, hparts, rfl⟩ := hmode
    have htree : (Node.string parts.reverse).HasTree
        (.ofValue .string (parts.reverse.map .leaf)) :=
      ⟨by simpa using hne, fun t ht => hparts t (List.mem_reverse.1 ht), rfl⟩
    refine Step.hasRead_ite hstep (fun ht => hinside ⟨by simp, ?_, by simp⟩)
      (hasRead_stepComplete hstack htree ?_)
    · exact List.forall_mem_cons.2 ⟨ht, hparts⟩
    · simp only [SyntaxTree.ofValue, SyntaxTree.yield, SyntaxTree.yields, SyntaxTree.yields_leaves,
        List.append_nil]
  | .binary at_ parts =>
    obtain ⟨hparts, l, hl, hat, rfl⟩ := hmode
    refine Step.hasRead_ite hstep (fun ht => hinside ⟨?_, l, hl, hat, by simp⟩) fun hstep =>
      Step.hasRead_ite hstep (fun ht => hinside ⟨hparts, l, t, hl, hat, ht, rfl⟩) fun hstep =>
        Step.hasRead_ite hstep (fun ht => hinside ?_) Step.hasRead_none
    · exact List.forall_mem_cons.2 ⟨ht, hparts⟩
    · have hnone : IsEncoding none [] := rfl
      have hwhole := exists_hasTree_binary hl hat hparts hnone ht
      rw [List.append_nil] at hwhole
      exact hwhole
  | .binarySlash at_ parts =>
    obtain ⟨hparts, l, slash, hl, hat, hslash, rfl⟩ := hmode
    refine Step.hasRead_ite hstep (fun ht => hinside ?_) Step.hasRead_none
    exact ⟨hparts, ht, l, slash, hl, hat, hslash, by simp⟩
  | .binaryEnd at_ parts encoding =>
    obtain ⟨hparts, hencoding, l, slash, hl, hat, hslash, rfl⟩ := hmode
    refine Step.hasRead_ite hstep (fun ht => hinside ?_) Step.hasRead_none
    exact exists_hasTree_binary hl hat hparts ⟨hencoding, slash, hslash, rfl⟩ ht
  | .complete value =>
    obtain ⟨tree, htree, hyield⟩ := hmode
    exact hasRead_stepComplete hstack htree hyield hstep

/-- A step puts the token to those that are read, or ends a form of them. -/
theorem State.HasRead.step {s : State} (hs : s.HasRead tokens)
    (hstep : Source.step s t = some next) : next.HasRead (tokens ++ [t]) := by
  match s with
  | .between =>
    cases hs
    exact Step.hasRead_ite hstep (fun ht => ⟨t, ht, rfl, rfl⟩) Step.hasRead_none
  | .formName at_ =>
    obtain ⟨sign, hsign, hat, rfl⟩ := hs
    refine Step.hasRead_ite hstep (fun ht => ⟨_, [], ?_, rfl, (List.append_nil _).symm⟩)
      Step.hasRead_none
    exact ⟨sign, hsign, hat, ht, Or.inl ⟨rfl, rfl⟩⟩
  | .inValue h stack mode =>
    obtain ⟨before, own, hstack, hmode, rfl⟩ := hs
    exact hasRead_stepValue hstack hmode hstep
  | .formEnd h value =>
    obtain ⟨hopen, before, tree, r, hheader, htree, hr, rfl⟩ := hs
    rw [Source.step] at hstep
    split at hstep
    · rename_i ht
      cases hstep
      obtain ⟨formTree, hform, hyield⟩ := hheader.hasTree_of_isOpen hopen htree hr ht
      exact ⟨rfl, formTree, hform, hyield⟩
    · cases hstep

/-! ## Runs -/

/-- What is read between two forms is derived: derivations of the forms that end have the
tokens. -/
theorem exists_of_run {s : State} {read : List Token} {forms : List FormNode}
    (hs : s.HasRead read) (hrun : run s tokens = some (.between, forms)) :
    ∃ children, List.Forall₂ FormNode.HasTree forms children
      ∧ SyntaxTree.yields children = read ++ tokens := by
  induction tokens generalizing s read forms with
  | nil =>
    cases hrun
    cases hs
    exact ⟨[], .nil, rfl⟩
  | cons t rest ih =>
    rw [run] at hrun
    split at hrun
    · cases hrun
    rename_i next form? hstep
    obtain ⟨⟨_, more⟩, hrest, heq⟩ := Option.map_eq_some_iff.1 hrun
    cases heq
    have hnext := hs.step hstep
    cases form? with
    | none =>
      obtain ⟨children, hchildren, hyields⟩ := ih hnext hrest
      exact ⟨children, hchildren, by rw [hyields, List.append_assoc, List.singleton_append]⟩
    | some form =>
      obtain ⟨rfl, tree, htree, hyield⟩ := hnext
      obtain ⟨children, hchildren, hyields⟩ := ih (s := .between) rfl hrest
      refine ⟨tree :: children, .cons htree hchildren, ?_⟩
      rw [SyntaxTree.yields, hyield, hyields, List.append_assoc]
      rfl

end ModuleDocs.Source
