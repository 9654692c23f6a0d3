set_option autoImplicit false

namespace Stencil

theorem bind_eq_ok {ε α β : Type} {x : Except ε α} {f : α → Except ε β} {b : β}
    (h : x >>= f = .ok b) : ∃ a, x = .ok a ∧ f a = .ok b := by
  cases x with
  | error e => simp [bind, Except.bind] at h
  | ok a => exact ⟨a, rfl, h⟩

theorem map_eq_ok {ε α β : Type} {x : Except ε α} {f : α → β} {b : β} (h : x.map f = .ok b) :
    ∃ a, x = .ok a ∧ f a = b := by
  cases x with
  | error e => simp [Except.map] at h
  | ok a => exact ⟨a, rfl, by simpa [Except.map] using h⟩

theorem mapError_ok {ε ε' α : Type} (f : ε → ε') (a : α) :
    (Except.ok a : Except ε α).mapError f = .ok a := rfl

theorem mapError_error {ε ε' α : Type} (f : ε → ε') (e : ε) :
    (Except.error e : Except ε α).mapError f = .error (f e) := rfl

def FailsAs {ε α : Type} (P : ε → Prop) (x : Except ε α) : Prop := ∀ e, x = .error e → P e

namespace FailsAs

variable {ε α β : Type} {P : ε → Prop}

theorem ok (a : α) : FailsAs P (.ok a) := by
  intro e h
  cases h

theorem error {e : ε} (h : P e) : FailsAs P (.error e : Except ε α) := by
  intro e' he
  cases he
  exact h

theorem bind {x : Except ε α} {f : α → Except ε β} (hx : FailsAs P x)
    (hf : ∀ a, FailsAs P (f a)) : FailsAs P (x >>= f) := by
  intro e h
  cases x with
  | error e' =>
    cases h
    exact hx e rfl
  | ok a => exact hf a e h

theorem map {x : Except ε α} (hx : FailsAs P x) (f : α → β) : FailsAs P (x.map f) := by
  intro e h
  cases x with
  | error e' =>
    cases h
    exact hx e rfl
  | ok a => cases h

theorem mapError {ε' : Type} {Q : ε' → Prop} {x : Except ε α} (hx : FailsAs P x) {f : ε → ε'}
    (hf : ∀ e, P e → Q (f e)) : FailsAs Q (x.mapError f) := by
  cases x with
  | error e => exact .error (hf e (hx e rfl))
  | ok a => exact .ok a

end FailsAs

/-- An error that is given has one property, a value that is given another. -/
structure Ensures {ε α : Type} (P : ε → Prop) (Q : α → Prop) (x : Except ε α) : Prop where
  fails : FailsAs P x
  gives : ∀ a, x = .ok a → Q a

namespace Ensures

variable {ε α β : Type} {P : ε → Prop} {Q : α → Prop} {R : β → Prop} {x : Except ε α}

theorem ok {a : α} (h : Q a) : Ensures P Q (.ok a) :=
  ⟨.ok a, by rintro _ ⟨⟩; exact h⟩

theorem error {e : ε} (h : P e) : Ensures P Q (.error e) :=
  ⟨.error h, by rintro _ ⟨⟩⟩

theorem bind (hx : Ensures P Q x) {f : α → Except ε β} (hf : ∀ a, Q a → Ensures P R (f a)) :
    Ensures P R (x >>= f) := by
  cases x with
  | error e => exact .error (hx.fails e rfl)
  | ok a => exact hf a (hx.gives a rfl)

theorem map (hx : Ensures P Q x) {f : α → β} (hf : ∀ a, Q a → R (f a)) :
    Ensures P R (x.map f) := by
  cases x with
  | error e => exact .error (hx.fails e rfl)
  | ok a => exact .ok (hf a (hx.gives a rfl))

end Ensures

/-- Where one outcome is a value, the other is a value related to it. -/
def Carries {ε ε' α β : Type} (R : α → β → Prop) (x : Except ε α) (y : Except ε' β) : Prop :=
  ∀ a, x = .ok a → ∃ b, y = .ok b ∧ R a b

namespace Carries

variable {ε ε' α β γ δ : Type} {R : α → β → Prop} {S : γ → δ → Prop} {x : Except ε α}
  {y : Except ε' β}

theorem ok {a : α} {b : β} (h : R a b) : Carries R (.ok a : Except ε α) (.ok b : Except ε' β) := by
  rintro _ ⟨⟩
  exact ⟨b, rfl, h⟩

theorem error (e : ε) : Carries R (.error e) y := by
  rintro _ ⟨⟩

theorem bind (hx : Carries R x y) {f : α → Except ε γ} {g : β → Except ε' δ}
    (hf : ∀ a b, R a b → Carries S (f a) (g b)) : Carries S (x >>= f) (y >>= g) := by
  intro c hc
  obtain ⟨a, ha, hc⟩ := bind_eq_ok hc
  obtain ⟨b, rfl, hb⟩ := hx a ha
  exact hf a b hb c hc

theorem map (hx : Carries R x y) {f : α → γ} {g : β → δ} (hf : ∀ a b, R a b → S (f a) (g b)) :
    Carries S (x.map f) (y.map g) := by
  intro c hc
  obtain ⟨a, ha, rfl⟩ := map_eq_ok hc
  obtain ⟨b, rfl, hb⟩ := hx a ha
  exact ⟨g b, rfl, hf a b hb⟩

theorem ite {c : Prop} [Decidable c] {x' : Except ε α} {y' : Except ε' β} (hx : Carries R x y)
    (hy : Carries R x' y') : Carries R (if c then x else x') (if c then y else y') := by
  split
  · exact hx
  · exact hy

theorem mapError (hx : Carries R x y) (f : ε → γ) (g : ε' → δ) :
    Carries R (x.mapError f) (y.mapError g) := by
  cases x with
  | error e => exact .error (f e)
  | ok a =>
    obtain ⟨b, rfl, hb⟩ := hx a rfl
    exact .ok hb

theorem eq_ok {x : Except ε α} {y : Except ε' α} (h : Carries Eq x y) {a : α}
    (hx : x = .ok a) : y = .ok a := by
  obtain ⟨_, hy, rfl⟩ := h a hx
  exact hy

end Carries

end Stencil
