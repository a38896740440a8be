import Mathlib

/-!
# Steps that can fail

When a chain of steps gives a value each of them did, and when it gives an error one of
them did.  `Result.FailsWith P x` says that whatever error the step `x` gives has the
property `P`; a chain of steps fails as its steps do.  `Result.Fails x` says that there is
an error.  `Result.Agree x y` says that two steps give the same values, while their errors
need not be the same.
-/

namespace ModuleDocs.Result

variable {ε δ α β : Type} {x : Except ε α}

/-- Two steps give a value when both do. -/
theorem bind_eq_ok_iff {f : α → Except ε β} {b : β} :
    (x >>= f) = .ok b ↔ ∃ a, x = .ok a ∧ f a = .ok b := by
  cases x <;> simp [bind, Except.bind]

/-- A step whose value is only passed on gives one when it did. -/
theorem bind_pure_eq_ok_iff {f : α → β} {b : β} :
    (x >>= fun a => pure (f a)) = .ok b ↔ ∃ a, x = .ok a ∧ f a = b := by
  cases x <;> simp [bind, Except.bind, pure, Except.pure]

/-- Two steps give an error when the first does, or the second behind it. -/
theorem bind_eq_error_iff {f : α → Except ε β} {e : ε} :
    (x >>= f) = .error e ↔ x = .error e ∨ ∃ a, x = .ok a ∧ f a = .error e := by
  cases x <;> simp [bind, Except.bind]

/-- A step that is refused under a condition gives a value when the condition does not hold. -/
theorem ite_error_eq_ok_iff {p : Prop} [Decidable p] {e : ε} {a : α} :
    (if p then .error e else x) = .ok a ↔ ¬ p ∧ x = .ok a := by
  split <;> simp_all

theorem error_bind (e : ε) (f : α → Except ε β) : ((.error e : Except ε α) >>= f) = .error e := rfl

theorem map_eq_ok_iff {f : α → β} {b : β} : x.map f = .ok b ↔ ∃ a, x = .ok a ∧ f a = b := by
  cases x <;> simp [Except.map]

theorem map_eq_error_iff {f : α → β} {e : ε} : x.map f = .error e ↔ x = .error e := by
  cases x <;> simp [Except.map]

theorem mapError_eq_ok_iff {f : ε → δ} {a : α} : x.mapError f = .ok a ↔ x = .ok a := by
  cases x <;> simp [Except.mapError]

theorem mapError_eq_error_iff {f : ε → δ} {e : δ} :
    x.mapError f = .error e ↔ ∃ e', x = .error e' ∧ f e' = e := by
  cases x <;> simp [Except.mapError]

theorem pure_eq_ok_iff {a b : α} : (pure a : Except ε α) = .ok b ↔ a = b := by
  simp [pure, Except.pure]

/-- Steps that are made one after the other each give their value. -/
theorem forall₂_of_mapM {f : α → Except ε β} {as : List α} {bs : List β}
    (h : as.mapM f = .ok bs) : List.Forall₂ (fun a b => f a = .ok b) as bs := by
  induction as generalizing bs with
  | nil =>
    cases h
    exact .nil
  | cons a as ih =>
    rw [List.mapM_cons] at h
    obtain ⟨b, hb, h⟩ := bind_eq_ok_iff.1 h
    obtain ⟨rest, hrest, rfl⟩ := bind_pure_eq_ok_iff.1 h
    exact .cons hb (ih hrest)

/-- A step whose result is computed to be a value gives one. -/
theorem exists_of_isOk (h : x.isOk = true) : ∃ a, x = .ok a := by
  cases x with
  | ok a => exact ⟨a, rfl⟩
  | error e => cases h

/-! ## Kinds of errors -/

/-- Whatever error the step gives has the property. -/
def FailsWith (P : ε → Prop) (x : Except ε α) : Prop := ∀ e, x = .error e → P e

variable {P Q : ε → Prop}

theorem FailsWith.ok (a : α) : FailsWith P (.ok a : Except ε α) := by
  intro e he
  cases he

theorem FailsWith.pure (a : α) : FailsWith P (Pure.pure a : Except ε α) := FailsWith.ok a

theorem FailsWith.error {e : ε} (h : P e) : FailsWith P (.error e : Except ε α) := by
  intro e' he'
  cases he'
  exact h

/-- A chain of two steps fails as the first does, or the second behind it. -/
theorem FailsWith.bind {f : α → Except ε β} (hx : FailsWith P x)
    (hf : ∀ a, x = .ok a → FailsWith P (f a)) : FailsWith P (x >>= f) := by
  intro e he
  rcases bind_eq_error_iff.1 he with hfirst | ⟨a, ha, hsecond⟩
  · exact hx e hfirst
  · exact hf a ha e hsecond

theorem FailsWith.map {f : α → β} (hx : FailsWith P x) : FailsWith P (x.map f) := by
  intro e he
  exact hx e (map_eq_error_iff.1 he)

theorem FailsWith.mapError {P : δ → Prop} {f : ε → δ} (hx : FailsWith (fun e => P (f e)) x) :
    FailsWith P (x.mapError f) := by
  intro e he
  obtain ⟨e', he', rfl⟩ := mapError_eq_error_iff.1 he
  exact hx e' he'

theorem FailsWith.imp (hx : FailsWith P x) (hPQ : ∀ e, P e → Q e) : FailsWith Q x :=
  fun e he => hPQ e (hx e he)

/-- Whatever error the step gives has the one property, whatever value the other. -/
structure Meets (P : ε → Prop) (R : α → Prop) (x : Except ε α) : Prop where
  failsWith : FailsWith P x
  gives : ∀ a, x = .ok a → R a

theorem Meets.ok {R : α → Prop} {a : α} (h : R a) : Meets P R (.ok a : Except ε α) := by
  refine ⟨FailsWith.ok a, fun b hb => ?_⟩
  cases hb
  exact h

/-- A chain of two steps meets what the second does behind any value of the first. -/
theorem Meets.bind {R : α → Prop} {S : β → Prop} {f : α → Except ε β} (hx : Meets P R x)
    (hf : ∀ a, R a → Meets P S (f a)) : Meets P S (x >>= f) where
  failsWith := hx.failsWith.bind fun a ha => (hf a (hx.gives a ha)).failsWith
  gives := fun b hb => by
    obtain ⟨a, ha, hb⟩ := bind_eq_ok_iff.1 hb
    exact (hf a (hx.gives a ha)).gives b hb

theorem FailsWith.meets (h : FailsWith P x) : Meets P (fun _ => True) x := ⟨h, fun _ _ => trivial⟩

/-! ## Failure -/

/-- The step fails. -/
def Fails (x : Except ε α) : Prop := ∃ e, x = .error e

theorem not_fails_ok (a : α) : ¬ Fails (.ok a : Except ε α) := by
  rintro ⟨e, he⟩
  cases he

theorem not_fails_iff : ¬ Fails x ↔ ∃ a, x = .ok a := by
  cases x <;> simp [Fails]

theorem fails_bind_iff {f : α → Except ε β} :
    Fails (x >>= f) ↔ Fails x ∨ ∃ a, x = .ok a ∧ Fails (f a) := by
  cases x <;> simp [Fails, bind, Except.bind]

theorem fails_bind_pure_iff {f : α → β} : Fails (x >>= fun a => pure (f a)) ↔ Fails x := by
  cases x <;> simp [Fails, bind, Except.bind, pure, Except.pure]

/-- Two steps that do not depend on each other fail when one of them does. -/
theorem fails_seq_iff {γ : Type} {y : Except ε β} {f : α → β → γ} :
    Fails (x >>= fun a => y >>= fun b => pure (f a b)) ↔ Fails x ∨ Fails y := by
  cases x <;> cases y <;> simp [Fails, bind, Except.bind, pure, Except.pure]

theorem fails_map_iff {f : α → β} : Fails (x.map f) ↔ Fails x := by
  cases x <;> simp [Fails, Except.map]

theorem fails_mapError_iff {f : ε → δ} : Fails (x.mapError f) ↔ Fails x := by
  cases x <;> simp [Fails, Except.mapError]

/-! ## Agreement -/

/-- Each of the steps gives a value just when the other gives the same. -/
def Agree (x y : Except ε α) : Prop := ∀ a, x = .ok a ↔ y = .ok a

theorem Agree.refl (x : Except ε α) : Agree x x := fun _ => Iff.rfl

theorem Agree.symm {y : Except ε α} (h : Agree x y) : Agree y x := fun a => (h a).symm

/-- Chains agree when their steps do. -/
theorem Agree.bind {y : Except ε α} {f g : α → Except ε β} (h : Agree x y)
    (hfg : ∀ a, Agree (f a) (g a)) : Agree (x >>= f) (y >>= g) := by
  intro b
  rw [bind_eq_ok_iff, bind_eq_ok_iff]
  constructor
  · intro hx
    obtain ⟨a, ha, hb⟩ := hx
    exact ⟨a, (h a).1 ha, (hfg a b).1 hb⟩
  · intro hy
    obtain ⟨a, ha, hb⟩ := hy
    exact ⟨a, (h a).2 ha, (hfg a b).2 hb⟩

theorem Agree.mapError {y : Except ε α} (h : Agree x y) (f : ε → δ) :
    Agree (x.mapError f) (y.mapError f) := by
  intro a
  rw [mapError_eq_ok_iff, mapError_eq_ok_iff]
  exact h a

/-- Steps that each lead to the other agree. -/
theorem Agree.of_imp {y : Except ε α} (hxy : ∀ a, x = .ok a → y = .ok a)
    (hyx : ∀ a, y = .ok a → x = .ok a) : Agree x y := fun a => ⟨hxy a, hyx a⟩

end ModuleDocs.Result
