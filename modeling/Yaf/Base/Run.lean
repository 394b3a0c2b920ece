import Mathlib.Logic.Basic

namespace Base

/-- A computation on a state. It returns or it stops, and keeps what it did to the state. -/
def Run (σ ε α : Type) : Type := σ → Except ε α × σ

namespace Run
variable {σ ε ε' α β : Type}

protected def pure (a : α) : Run σ ε α := fun w => (.ok a, w)

protected def bind (m : Run σ ε α) (f : α → Run σ ε β) : Run σ ε β := fun w =>
  match m w with
  | (.ok a, w') => f a w'
  | (.error e, w') => (.error e, w')

instance : Monad (Run σ ε) where
  pure := Run.pure
  bind := Run.bind

def get : Run σ ε σ := fun w => (.ok w, w)

def modify (f : σ → σ) : Run σ ε Unit := fun w => (.ok (), f w)

def stop (e : ε) : Run σ ε α := fun w => (.error e, w)

theorem bind_of_ok {m : Run σ ε α} {f : α → Run σ ε β} {w w' : σ} {a : α}
    (h : m w = (.ok a, w')) : (m >>= f) w = f a w' := by
  change Run.bind m f w = _
  rw [Run.bind, h]

theorem bind_of_error {m : Run σ ε α} {f : α → Run σ ε β} {w w' : σ} {e : ε}
    (h : m w = (.error e, w')) : (m >>= f) w = (.error e, w') := by
  change Run.bind m f w = _
  rw [Run.bind, h]

theorem pure_bind_eq (a : α) (f : α → Run σ ε β) : (pure a >>= f) = f a := rfl

theorem bind_bind {δ : Type} (m : Run σ ε α) (f : α → Run σ ε β) (g : β → Run σ ε δ) :
    (m >>= f) >>= g = m >>= fun a => f a >>= g := by
  funext w
  cases hm : m w with
  | mk r w' =>
    cases r with
    | ok a =>
      have hf : (m >>= f) w = f a w' := bind_of_ok hm
      rw [bind_of_ok hm]
      change Run.bind (m >>= f) g w = Run.bind (f a) g w'
      rw [Run.bind, hf, Run.bind]
    | error e => rw [bind_of_error (bind_of_error hm), bind_of_error hm]

/-- The same computation with its reasons to stop renamed. -/
def lift (f : ε → ε') (m : Run σ ε α) : Run σ ε' α := fun w =>
  match m w with
  | (.ok a, w') => (.ok a, w')
  | (.error e, w') => (.error (f e), w')

/-- What a run returns, with the state it leaves. -/
theorem eq_ok_of_toOption {m : Run σ ε α} {w : σ} {a : α} (h : (m w).1.toOption = some a) :
    m w = (.ok a, (m w).2) := by
  cases hm : m w with
  | mk r w' =>
    rw [hm] at h
    cases r with
    | ok b => rw [Option.some.inj h]
    | error e => cases h

theorem pure_eq_ok {a b : α} {w w' : σ} (h : (pure a : Run σ ε α) w = (.ok b, w')) :
    a = b ∧ w = w' :=
  ⟨Except.ok.inj (Prod.mk.inj h).1, (Prod.mk.inj h).2⟩

/-- What returned went through both of its parts. -/
theorem bind_eq_ok {m : Run σ ε α} {f : α → Run σ ε β} {w w' : σ} {b : β}
    (h : (m >>= f) w = (.ok b, w')) :
    ∃ a w₁, m w = (.ok a, w₁) ∧ f a w₁ = (.ok b, w') := by
  cases hm : m w with
  | mk r w₁ =>
    cases r with
    | ok a => exact ⟨a, w₁, rfl, (bind_of_ok hm).symm.trans h⟩
    | error e =>
      rw [bind_of_error hm] at h
      cases h

theorem lift_eq_ok {f : ε → ε'} {m : Run σ ε α} {w w' : σ} {a : α}
    (h : lift f m w = (.ok a, w')) : m w = (.ok a, w') := by
  unfold lift at h
  cases hm : m w with
  | mk r w₁ =>
    rw [hm] at h
    cases r with
    | ok b =>
      obtain ⟨hb, rfl⟩ := Prod.mk.inj h
      rw [Except.ok.inj hb]
    | error e => cases h

/-- Started here, it returns into `Q` or stops in `E`. -/
def Meets (m : Run σ ε α) (w : σ) (Q : α → σ → Prop) (E : ε → σ → Prop) : Prop :=
  match m w with
  | (.ok a, w') => Q a w'
  | (.error e, w') => E e w'

section Meets
variable {w : σ} {Q Q' : α → σ → Prop} {E E' : ε → σ → Prop}

@[simp] theorem meets_pure (a : α) : Meets (pure a : Run σ ε α) w Q E ↔ Q a w := Iff.rfl

@[simp] theorem meets_get {Q : σ → σ → Prop} : Meets (get : Run σ ε σ) w Q E ↔ Q w w := Iff.rfl

@[simp] theorem meets_modify {Q : Unit → σ → Prop} (f : σ → σ) :
    Meets (modify f : Run σ ε Unit) w Q E ↔ Q () (f w) := Iff.rfl

@[simp] theorem meets_stop (e : ε) : Meets (stop e : Run σ ε α) w Q E ↔ E e w := Iff.rfl

@[simp] theorem meets_bind (m : Run σ ε α) (f : α → Run σ ε β) {Q : β → σ → Prop} :
    Meets (m >>= f) w Q E ↔ Meets m w (fun a w' => Meets (f a) w' Q E) E := by
  unfold Meets
  cases hm : m w with
  | mk r w' =>
    cases r with
    | ok a => rw [bind_of_ok hm]
    | error e => rw [bind_of_error hm]

@[simp] theorem meets_lift (f : ε → ε') (m : Run σ ε α) {E : ε' → σ → Prop} :
    Meets (lift f m) w Q E ↔ Meets m w Q fun e w' => E (f e) w' := by
  unfold Meets lift
  cases m w with
  | mk r w' => cases r <;> rfl

theorem meets_of_eq {m : Run σ ε α} {a : α} {w' : σ} (hm : m w = (.ok a, w')) (h : Q a w') :
    Meets m w Q E := by
  rw [Meets, hm]
  exact h

theorem Meets.congr {m m' : Run σ ε α} (h : Meets m' w Q E) (hm : m w = m' w) : Meets m w Q E := by
  rw [Meets, hm]
  exact h

theorem Meets.mono {m : Run σ ε α} (h : Meets m w Q E) (hQ : ∀ a w', Q a w' → Q' a w')
    (hE : ∀ e w', E e w' → E' e w') : Meets m w Q' E' := by
  unfold Meets at h ⊢
  cases hm : m w with
  | mk r w' =>
    rw [hm] at h
    cases r with
    | ok a => exact hQ a w' h
    | error e => exact hE e w' h

theorem Meets.and {m : Run σ ε α} (h : Meets m w Q E) (h' : Meets m w Q' E') :
    Meets m w (fun a w' => Q a w' ∧ Q' a w') fun e w' => E e w' ∧ E' e w' := by
  unfold Meets at h h' ⊢
  cases hm : m w with
  | mk r w' =>
    rw [hm] at h h'
    cases r <;> exact ⟨h, h'⟩

theorem Meets.ok {m : Run σ ε α} (h : Meets m w Q E) {a : α} {w' : σ}
    (hm : m w = (.ok a, w')) : Q a w' := by
  rwa [Meets, hm] at h

/-- Whatever the first part does, the second returns into `Q` or stops. -/
theorem meets_after (m : Run σ ε α) {f : α → Run σ ε β} {Q : β → σ → Prop}
    (h : ∀ a w', Meets (f a) w' Q fun _ _ => True) : Meets (m >>= f) w Q fun _ _ => True := by
  rw [meets_bind]
  unfold Meets
  cases m w with
  | mk r w' =>
    cases r with
    | ok a => exact h a w'
    | error e => trivial

end Meets

/-- Wherever it starts and however it ends, the relation holds between the two states. -/
def Within (R : σ → σ → Prop) (m : Run σ ε α) : Prop := ∀ w, R w (m w).2

/-- A relation that holds along a run when it holds of each piece. -/
structure Chains (R : σ → σ → Prop) : Prop where
  refl : ∀ w, R w w
  trans : ∀ {u v w}, R u v → R v w → R u w

section Within
variable {R : σ → σ → Prop}

theorem Within.meets {m : Run σ ε α} (h : Within R m) (w : σ) :
    Meets m w (fun _ w' => R w w') fun _ w' => R w w' := by
  have hw := h w
  unfold Meets
  cases hm : m w with
  | mk r w' =>
    rw [hm] at hw
    cases r <;> exact hw

theorem Within.of_meets {m : Run σ ε α}
    (h : ∀ w, Meets m w (fun _ w' => R w w') fun _ w' => R w w') : Within R m := by
  intro w
  have hw := h w
  unfold Meets at hw
  cases hm : m w with
  | mk r w' =>
    rw [hm] at hw
    cases r <;> exact hw

theorem within_pure (c : Chains R) (a : α) : Within R (pure a : Run σ ε α) := c.refl

theorem within_get (c : Chains R) : Within R (get : Run σ ε σ) := c.refl

theorem within_stop (c : Chains R) (e : ε) : Within R (stop e : Run σ ε α) := c.refl

theorem within_bind (c : Chains R) {m : Run σ ε α} {f : α → Run σ ε β} (hm : Within R m)
    (hf : ∀ a, Within R (f a)) : Within R (m >>= f) := by
  refine Within.of_meets fun w => ?_
  rw [meets_bind]
  refine (hm.meets w).mono (fun a w' hw => ?_) fun _ _ hw => hw
  exact ((hf a).meets w').mono (fun _ _ => c.trans hw) fun _ _ => c.trans hw

theorem within_lift (f : ε → ε') {m : Run σ ε α} (hm : Within R m) : Within R (lift f m) := by
  refine Within.of_meets fun w => ?_
  rw [meets_lift]
  exact hm.meets w

end Within

end Run

end Base
