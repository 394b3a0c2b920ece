import Mathlib.Logic.Basic

namespace Base

/-- A program that calls a service, goes on with what it answers, and ends with a result. -/
inductive Client (γ α β : Type) where
  | done (b : β)
  | call (c : γ) (k : α → Client γ α β)

namespace Client

variable {γ α β δ ε σ τ : Type}

def bind : Client γ α β → (β → Client γ α δ) → Client γ α δ
  | .done b, f => f b
  | .call c k, f => .call c fun a => (k a).bind f

/-- The run against a service, which answers a call or fails at it. -/
def run (step : σ → γ → Except ε (α × σ)) : Client γ α β → σ → Except ε (β × σ)
  | .done b, s => .ok (b, s)
  | .call c k, s =>
    match step s c with
    | .ok (a, s') => run step (k a) s'
    | .error e => .error e

/-- The calls a run makes, each with the state it is made in. -/
def calls (step : σ → γ → Except ε (α × σ)) : Client γ α β → σ → List (γ × σ)
  | .done _, _ => []
  | .call c k, s =>
    (c, s) :: match step s c with
      | .ok (a, s') => calls step (k a) s'
      | .error _ => []

/-- Every call the program can come to is one of these. -/
inductive Only (P : γ → Prop) : Client γ α β → Prop where
  | done (b : β) : Only P (.done b)
  | call (c : γ) (k : α → Client γ α β) (h : P c) (rest : ∀ a, Only P (k a)) : Only P (.call c k)

/-- Two outcomes with the same result or the same failure, their states related. -/
inductive Agree (R : σ → τ → Prop) : Except ε (β × σ) → Except ε (β × τ) → Prop where
  | ok (b : β) (s : σ) (t : τ) (related : R s t) : Agree R (.ok (b, s)) (.ok (b, t))
  | error (e : ε) : Agree R (.error e) (.error e)

section run
variable {step : σ → γ → Except ε (α × σ)} {s s' : σ}

theorem run_call_ok {c : γ} {k : α → Client γ α β} {a : α} (h : step s c = .ok (a, s')) :
    run step (.call c k) s = run step (k a) s' := by
  rw [run, h]

theorem run_call_error {c : γ} {k : α → Client γ α β} {e : ε} (h : step s c = .error e) :
    run step (.call c k) s = .error e := by
  rw [run, h]

/-- What a program and its continuation do together, one after the other. -/
theorem run_bind (p : Client γ α β) (f : β → Client γ α δ) :
    run step (p.bind f) s =
      match run step p s with
      | .ok (b, s') => run step (f b) s'
      | .error e => .error e := by
  induction p generalizing s with
  | done b => rfl
  | call c k ih =>
    rw [bind, run, run]
    cases step s c with
    | ok r => exact ih r.1
    | error e => rfl

/-- A relation between states that each call keeps is kept by the run. -/
theorem Only.run_keeps {P : γ → Prop} {K : σ → σ → Prop} {p : Client γ α β} {b : β}
    (only : Only P p) (refl : ∀ s, K s s) (trans : ∀ s₁ s₂ s₃, K s₁ s₂ → K s₂ s₃ → K s₁ s₃)
    (keeps : ∀ c s a s', P c → step s c = .ok (a, s') → K s s')
    (h : run step p s = .ok (b, s')) : K s s' := by
  induction only generalizing s with
  | done b =>
    obtain ⟨-, rfl⟩ := Prod.mk.inj (Except.ok.inj h)
    exact refl s
  | call c k hc rest ih =>
    cases hs : step s c with
    | ok r =>
      obtain ⟨a, s₁⟩ := r
      rw [run_call_ok hs] at h
      exact trans _ _ _ (keeps c s a s₁ hc hs) (ih a h)
    | error e =>
      rw [run_call_error hs] at h
      cases h

/-- What a history of calls says is what the state they lead to holds. -/
theorem run_fold {f : δ → γ → δ} {I : σ → δ → Prop} {p : Client γ α β} {b : β} {d : δ}
    (keeps : ∀ s d c a s', I s d → step s c = .ok (a, s') → I s' (f d c)) (start : I s d)
    (h : run step p s = .ok (b, s')) : I s' (((calls step p s).map Prod.fst).foldl f d) := by
  induction p generalizing s d with
  | done b =>
    obtain ⟨-, rfl⟩ := Prod.mk.inj (Except.ok.inj h)
    exact start
  | call c k ih =>
    rw [calls]
    cases hs : step s c with
    | ok r =>
      obtain ⟨a, s₁⟩ := r
      rw [run_call_ok hs] at h
      exact ih a (keeps s d c a s₁ start hs) h
    | error e =>
      rw [run_call_error hs] at h
      cases h

theorem Only.mem_calls {P : γ → Prop} {p : Client γ α β} {c : γ} (only : Only P p)
    (h : (c, s') ∈ calls step p s) : P c := by
  induction only generalizing s with
  | done b => cases h
  | call c' k hc rest ih =>
    rw [calls] at h
    rcases List.mem_cons.mp h with he | h
    · obtain ⟨rfl, -⟩ := Prod.mk.inj he
      exact hc
    · cases hs : step s c' with
      | ok r =>
        rw [hs] at h
        exact ih r.1 h
      | error e =>
        rw [hs] at h
        cases h

theorem Only.bind {P : γ → Prop} {p : Client γ α β} {f : β → Client γ α δ} (only : Only P p)
    (rest : ∀ b, Only P (f b)) : Only P (p.bind f) := by
  induction only with
  | done b => exact rest b
  | call c k hc _ ih => exact .call c _ hc ih

end run

/-- A program cannot tell two services apart that answer alike in related states, as long as the
first one does not give up. -/
theorem run_agree {R : σ → τ → Prop} {GivesUp : ε → γ → τ → Prop}
    {step₁ : σ → γ → Except ε (α × σ)} {step₂ : τ → γ → Except ε (α × τ)}
    (alike : ∀ s t c, R s t → Agree R (step₁ s c) (step₂ t c) ∨
      ∃ e, step₁ s c = .error e ∧ GivesUp e c t)
    (p : Client γ α β) {s : σ} {t : τ} (h : R s t) :
    Agree R (run step₁ p s) (run step₂ p t) ∨
      ∃ e c t', run step₁ p s = .error e ∧ (c, t') ∈ calls step₂ p t ∧ GivesUp e c t' := by
  induction p generalizing s t with
  | done b => exact Or.inl (.ok b s t h)
  | call c k ih =>
    rw [run, run, calls]
    rcases alike s t c h with ha | ⟨e, he, hg⟩
    · generalize step₁ s c = r₁ at ha
      generalize step₂ t c = r₂ at ha
      cases ha with
      | ok a s' t' related =>
        rcases ih a related with hr | ⟨e, c', u, he, hm, hg⟩
        · exact Or.inl hr
        · exact Or.inr ⟨e, c', u, he, List.mem_cons_of_mem _ hm, hg⟩
      | error e => exact Or.inl (.error e)
    · rw [he]
      exact Or.inr ⟨e, c, t, rfl, List.mem_cons_self, hg⟩

/-- What returned on the first service returns on the second. -/
theorem run_ok_of_agree {R : σ → τ → Prop} {r₁ : Except ε (β × σ)} {r₂ : Except ε (β × τ)} {b : β}
    {s : σ} (h : Agree R r₁ r₂) (hok : r₁ = .ok (b, s)) : ∃ t, r₂ = .ok (b, t) ∧ R s t := by
  cases h with
  | ok b' s' t related =>
    obtain ⟨rfl, rfl⟩ := Prod.mk.inj (Except.ok.inj hok)
    exact ⟨t, rfl, related⟩
  | error e => cases hok

end Client

end Base
