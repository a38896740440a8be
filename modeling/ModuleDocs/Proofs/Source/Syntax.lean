import Mathlib
import ModuleDocs.Source.Syntax

/-!
# What is read is made of the tokens

`State.Sound T` says that all tokens in a state have the property `T` and are of the
kind that their place asks for.  A token with the property keeps a state so
(`State.Sound.step`), and so the forms of tokens with the property are made of such
tokens (`sound_of_ofTokens`).
-/

namespace ModuleDocs.Source

variable {T : Token → Prop}

/-- A token of a kind that has the property. -/
def Token.Sound (T : Token → Prop) (kind : TokenKind) (t : Token) : Prop := T t ∧ t.kind = kind

mutual

/-- The tokens of a value have the property and are of the right kinds. -/
def Node.Sound (T : Token → Prop) : Node → Prop
  | .string parts => ∀ t ∈ parts, t.Sound T .string
  | .binary _ parts encoding? =>
    (∀ t ∈ parts, t.Sound T .string) ∧ ∀ t ∈ encoding?, t.Sound T .name
  | .funRef name arity => name.Sound T .name ∧ arity.Sound T .integer
  | .name token => token.Sound T .name
  | .quoted token => token.Sound T .quotedAtom
  | .integer token => token.Sound T .integer
  | .negative _ token => token.Sound T .integer
  | .list _ items => SoundItems T items
  | .tuple _ items => SoundItems T items
  | .map _ pairs => SoundPairs T pairs

def SoundItems (T : Token → Prop) : List Node → Prop
  | [] => True
  | node :: rest => Node.Sound T node ∧ SoundItems T rest

def SoundPairs (T : Token → Prop) : List (Node × Node) → Prop
  | [] => True
  | (key, value) :: rest => Node.Sound T key ∧ Node.Sound T value ∧ SoundPairs T rest

end

theorem soundItems_iff {items : List Node} :
    SoundItems T items ↔ ∀ node ∈ items, node.Sound T := by
  induction items with
  | nil => simp [SoundItems]
  | cons node rest ih => simp [SoundItems, ih]

theorem soundPairs_iff {pairs : List (Node × Node)} :
    SoundPairs T pairs ↔ ∀ pair ∈ pairs, pair.1.Sound T ∧ pair.2.Sound T := by
  induction pairs with
  | nil => simp [SoundPairs]
  | cons pair rest ih => simp [SoundPairs, ih, and_assoc]

/-- A form of tokens that have the property, its minus sign included. -/
structure FormNode.Sound (T : Token → Prop) (form : FormNode) : Prop where
  at_ : ∃ t, T t ∧ t.position = form.at_
  name : form.name.Sound T .name
  value : form.value.Sound T

/-! ## States -/

def Frame.Sound (T : Token → Prop) : Frame → Prop
  | .list _ done | .tuple _ done => ∀ node ∈ done, node.Sound T
  | .mapKey _ done => ∀ pair ∈ done, pair.1.Sound T ∧ pair.2.Sound T
  | .mapValue _ done key => key.Sound T ∧ ∀ pair ∈ done, pair.1.Sound T ∧ pair.2.Sound T

def Mode.Sound (T : Token → Prop) : Mode → Prop
  | .start _ | .afterMinus _ => True
  | .afterName token | .afterSlash token => token.Sound T .name
  | .strings parts | .binary _ parts | .binarySlash _ parts => ∀ t ∈ parts, t.Sound T .string
  | .binaryEnd _ parts encoding =>
    (∀ t ∈ parts, t.Sound T .string) ∧ encoding.Sound T .name
  | .complete value => value.Sound T

structure Header.Sound (T : Token → Prop) (h : Header) : Prop where
  at_ : ∃ t, T t ∧ t.position = h.at_
  name : h.name.Sound T .name

/-- All tokens in a state have the property and are of the right kinds. -/
def State.Sound (T : Token → Prop) : State → Prop
  | .between => True
  | .formName at_ => ∃ t, T t ∧ t.position = at_
  | .inValue h stack mode => h.Sound T ∧ (∀ frame ∈ stack, frame.Sound T) ∧ mode.Sound T
  | .formEnd h value => h.Sound T ∧ value.Sound T

/-- A step to a sound state that ends no form, or a sound one. -/
def Step.Sound (T : Token → Prop) (step : Step) : Prop :=
  step.1.Sound T ∧ ∀ form ∈ step.2, form.Sound T

theorem Step.sound_to {s : State} {step : Step} (hstep : Step.to s = some step)
    (h : s.Sound T) : step.Sound T := by
  cases hstep
  exact ⟨h, by simp⟩

/-- A step that a kind of token allows, or else another one. -/
theorem Step.sound_ite {c : Prop} [Decidable c] {s : State} {other : Option Step} {step : Step}
    (hstep : (if c then Step.to s else other) = some step) (hs : c → s.Sound T)
    (hother : other = some step → step.Sound T) : step.Sound T := by
  split at hstep
  · exact Step.sound_to hstep (hs ‹c›)
  · exact hother hstep

/-- No step at all is no unsound one. -/
theorem Step.sound_none {step : Step} (h : none = some step) : step.Sound T := by cases h

/-! ## Steps -/

variable {h : Header} {value : Node} {t : Token} {stack : List Frame} {mode : Mode} {next : Step}

theorem FormNode.sound_of_header (hheader : h.Sound T) (hvalue : value.Sound T) :
    FormNode.Sound T ⟨h.at_, h.name, value⟩ :=
  ⟨hheader.at_, hheader.name, hvalue⟩

theorem Step.sound_end (hheader : h.Sound T) (hvalue : value.Sound T) :
    Step.Sound T (.between, some ⟨h.at_, h.name, value⟩) := by
  refine ⟨trivial, fun form hform => ?_⟩
  cases Option.mem_some_iff.1 hform
  exact FormNode.sound_of_header hheader hvalue

private theorem forall_cons_sound {α : Type} {P : α → Prop} {a : α} {l : List α} (ha : P a)
    (hl : ∀ x ∈ l, P x) : ∀ x ∈ a :: l, P x := by
  simpa using ⟨ha, hl⟩

theorem sound_stepComplete (hheader : h.Sound T) (hvalue : value.Sound T)
    (hstack : ∀ frame ∈ stack, frame.Sound T) (hstep : stepComplete h value t stack = some next) :
    next.Sound T := by
  match stack with
  | [] =>
    rw [stepComplete] at hstep
    split at hstep
    · exact Step.sound_ite hstep (fun _ => ⟨hheader, hvalue⟩) Step.sound_none
    · split at hstep
      · cases hstep
        exact Step.sound_end hheader hvalue
      · cases hstep
  | .list at_ done :: stack =>
    have hrest := fun f hf => hstack f (List.mem_cons_of_mem _ hf)
    have hdone := forall_cons_sound hvalue (hstack _ List.mem_cons_self)
    refine Step.sound_ite hstep (fun _ => ⟨hheader, forall_cons_sound hdone hrest, trivial⟩)
      fun hstep => Step.sound_ite hstep (fun _ => ⟨hheader, hrest, ?_⟩) Step.sound_none
    exact soundItems_iff.2 fun node hnode => hdone node (List.mem_reverse.1 hnode)
  | .tuple at_ done :: stack =>
    have hrest := fun f hf => hstack f (List.mem_cons_of_mem _ hf)
    have hdone := forall_cons_sound hvalue (hstack _ List.mem_cons_self)
    refine Step.sound_ite hstep (fun _ => ⟨hheader, forall_cons_sound hdone hrest, trivial⟩)
      fun hstep => Step.sound_ite hstep (fun _ => ⟨hheader, hrest, ?_⟩) Step.sound_none
    exact soundItems_iff.2 fun node hnode => hdone node (List.mem_reverse.1 hnode)
  | .mapKey at_ done :: stack =>
    have hrest := fun f hf => hstack f (List.mem_cons_of_mem _ hf)
    have hdone : ∀ pair ∈ done, pair.1.Sound T ∧ pair.2.Sound T := hstack _ List.mem_cons_self
    exact Step.sound_ite hstep
      (fun _ => ⟨hheader, forall_cons_sound ⟨hvalue, hdone⟩ hrest, trivial⟩) Step.sound_none
  | .mapValue at_ done key :: stack =>
    have hrest := fun f hf => hstack f (List.mem_cons_of_mem _ hf)
    obtain ⟨hkey, hpairs⟩ : key.Sound T ∧ ∀ pair ∈ done, pair.1.Sound T ∧ pair.2.Sound T :=
      hstack _ List.mem_cons_self
    have hdone : ∀ pair ∈ (key, value) :: done, pair.1.Sound T ∧ pair.2.Sound T :=
      forall_cons_sound ⟨hkey, hvalue⟩ hpairs
    refine Step.sound_ite hstep (fun _ => ⟨hheader, forall_cons_sound hdone hrest, trivial⟩)
      fun hstep => Step.sound_ite hstep (fun _ => ⟨hheader, hrest, ?_⟩) Step.sound_none
    exact soundPairs_iff.2 fun pair hpair => hdone pair (List.mem_reverse.1 hpair)

theorem sound_stepEmpty (hheader : h.Sound T) (hstack : ∀ frame ∈ stack, frame.Sound T)
    (hstep : stepEmpty h t stack = some next) : next.Sound T := by
  match stack with
  | .list at_ [] :: stack | .tuple at_ [] :: stack | .mapKey at_ [] :: stack =>
    have hrest := fun f hf => hstack f (List.mem_cons_of_mem _ hf)
    exact Step.sound_ite hstep (fun _ => ⟨hheader, hrest, trivial⟩) Step.sound_none
  | [] | .list _ (_ :: _) :: _ | .tuple _ (_ :: _) :: _ | .mapKey _ (_ :: _) :: _
  | .mapValue .. :: _ => cases hstep

theorem sound_stepStart {opening : Bool} (hheader : h.Sound T)
    (hstack : ∀ frame ∈ stack, frame.Sound T) (ht : T t)
    (hstep : stepStart h stack opening t = some next) : next.Sound T := by
  have hnil {frame : Frame} (hframe : frame.Sound T) : ∀ f ∈ frame :: stack, f.Sound T :=
    forall_cons_sound hframe hstack
  unfold stepStart at hstep
  split at hstep
  case h_1 hkind => exact Step.sound_to hstep ⟨hheader, hstack, ht, hkind⟩
  case h_2 hkind => exact Step.sound_to hstep ⟨hheader, hstack, ht, hkind⟩
  case h_3 hkind =>
    refine Step.sound_to hstep ⟨hheader, hstack, ?_⟩
    exact forall_cons_sound ⟨ht, hkind⟩ (by simp)
  case h_4 hkind => exact Step.sound_to hstep ⟨hheader, hstack, ht, hkind⟩
  case h_5 => exact Step.sound_to hstep ⟨hheader, hstack, trivial⟩
  case h_6 => exact Step.sound_to hstep ⟨hheader, hstack, by simp [Mode.Sound]⟩
  case h_7 => exact Step.sound_to hstep ⟨hheader, hnil (by simp [Frame.Sound]), trivial⟩
  case h_8 => exact Step.sound_to hstep ⟨hheader, hnil (by simp [Frame.Sound]), trivial⟩
  case h_9 => exact Step.sound_to hstep ⟨hheader, hnil (by simp [Frame.Sound]), trivial⟩
  case h_10 =>
    exact Step.sound_ite hstep (fun _ => ⟨⟨hheader.at_, hheader.name⟩, by simp, trivial⟩)
      Step.sound_none
  case h_11 =>
    split at hstep
    · exact sound_stepEmpty hheader hstack hstep
    · cases hstep

theorem sound_stepValue (hheader : h.Sound T) (hstack : ∀ frame ∈ stack, frame.Sound T)
    (hmode : mode.Sound T) (ht : T t) (hstep : stepValue h stack mode t = some next) :
    next.Sound T := by
  match mode with
  | .start opening => exact sound_stepStart hheader hstack ht hstep
  | .afterName name =>
    exact Step.sound_ite hstep (fun _ => ⟨hheader, hstack, hmode⟩)
      (sound_stepComplete hheader hmode hstack)
  | .afterSlash name =>
    exact Step.sound_ite hstep (fun hkind => ⟨hheader, hstack, hmode, ht, hkind⟩) Step.sound_none
  | .afterMinus at_ =>
    exact Step.sound_ite hstep (fun hkind => ⟨hheader, hstack, ht, hkind⟩) Step.sound_none
  | .strings parts =>
    refine Step.sound_ite hstep
      (fun hkind => ⟨hheader, hstack, forall_cons_sound ⟨ht, hkind⟩ hmode⟩)
      (sound_stepComplete hheader ?_ hstack)
    exact fun part hpart => hmode part (List.mem_reverse.1 hpart)
  | .binary at_ parts =>
    refine Step.sound_ite hstep
      (fun hkind => ⟨hheader, hstack, forall_cons_sound ⟨ht, hkind⟩ hmode⟩) fun hstep =>
        Step.sound_ite hstep (fun _ => ⟨hheader, hstack, hmode⟩) fun hstep =>
          Step.sound_ite hstep (fun _ => ⟨hheader, hstack, ?_, by simp⟩) Step.sound_none
    exact fun part hpart => hmode part (List.mem_reverse.1 hpart)
  | .binarySlash at_ parts =>
    exact Step.sound_ite hstep (fun hkind => ⟨hheader, hstack, hmode, ht, hkind⟩) Step.sound_none
  | .binaryEnd at_ parts encoding =>
    refine Step.sound_ite hstep (fun _ => ⟨hheader, hstack, ?_, ?_⟩) Step.sound_none
    · exact fun part hpart => hmode.1 part (List.mem_reverse.1 hpart)
    · intro token htoken
      cases Option.mem_some_iff.1 htoken
      exact hmode.2
  | .complete value => exact sound_stepComplete hheader hmode hstack hstep

/-- A token with the property keeps a state sound, and ends sound forms only. -/
theorem State.Sound.step {s : State} (hs : s.Sound T) (ht : T t)
    (hstep : Source.step s t = some next) : next.Sound T := by
  match s with
  | .between =>
    exact Step.sound_ite hstep (fun _ => ⟨t, ht, rfl⟩) Step.sound_none
  | .formName at_ =>
    exact Step.sound_ite hstep (fun hkind => ⟨⟨hs, ht, hkind⟩, by simp, trivial⟩) Step.sound_none
  | .inValue h stack mode => exact sound_stepValue hs.1 hs.2.1 hs.2.2 ht hstep
  | .formEnd h value =>
    rw [Source.step] at hstep
    split at hstep
    · cases hstep
      exact Step.sound_end hs.1 hs.2
    · cases hstep

/-! ## Runs -/

namespace Forms

theorem sound_of_ofTokensFrom {stop? : Option (CodePoint × Position)} {s : State}
    {done forms : List FormNode} {last : Position} {tokens : List Token} (hs : s.Sound T)
    (hdone : ∀ form ∈ done, form.Sound T) (htokens : ∀ t ∈ tokens, T t)
    (h : ofTokensFrom stop? s done last tokens = .ok forms) : ∀ form ∈ forms, form.Sound T := by
  induction tokens generalizing s done last with
  | nil =>
    unfold ofTokensFrom at h
    split at h
    · cases h
    · cases h
      exact fun form hform => hdone form (List.mem_reverse.1 hform)
    · cases h
  | cons t rest ih =>
    rw [ofTokensFrom] at h
    split at h
    · cases h
    rename_i next form? hstep
    obtain ⟨hnext, hforms⟩ := hs.step (htokens t List.mem_cons_self) hstep
    refine ih hnext ?_ (fun t ht => htokens t (List.mem_cons_of_mem _ ht)) h
    intro form hform
    rcases List.mem_append.1 hform with hform | hform
    · exact hforms form (Option.mem_toList.1 hform)
    · exact hdone form hform

/-- The forms of tokens with the property are made of them. -/
theorem sound_of_ofTokens {tokens : Tokens} (htokens : ∀ t ∈ tokens.tokens, T t)
    {forms : List FormNode} (h : ofTokens tokens = .ok forms) : ∀ form ∈ forms, form.Sound T :=
  sound_of_ofTokensFrom (s := .between) trivial (by simp) htokens h

end Forms

end ModuleDocs.Source
