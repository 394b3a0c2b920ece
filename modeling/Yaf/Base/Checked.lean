import Mathlib.Data.List.Basic

namespace Base
variable {α β ε : Type}

theorem ok_bind (a : α) (f : α → Except ε β) : (Except.ok a >>= f) = f a := rfl

theorem error_bind (e : ε) (f : α → Except ε β) : (Except.error e >>= f) = .error e := rfl

theorem toOption_ok (a : α) : (Except.ok a : Except ε α).toOption = some a := rfl

/-- Without its error a computation binds as an optional one does. -/
theorem toOption_bind (x : Except ε α) (f : α → Except ε β) :
    (x >>= f).toOption = x.toOption.bind fun a => (f a).toOption := by
  cases x with
  | error e => rfl
  | ok a => rfl

/-- A checked loop whose turns are those of an unchecked one. -/
theorem toOption_foldlM {f : β → α → Except ε β} {g : β → α → Option β}
    (hturn : ∀ b a, (f b a).toOption = g b a) (l : List α) (b : β) :
    (l.foldlM f b).toOption = l.foldlM g b := by
  induction l generalizing b with
  | nil => rfl
  | cons a l ih =>
    rw [List.foldlM_cons, List.foldlM_cons, toOption_bind, hturn]
    cases g b a with
    | none => rfl
    | some b' => exact ih b'

theorem toOption_eq_some_iff {x : Except ε α} {a : α} : x.toOption = some a ↔ x = .ok a := by
  cases x with
  | error e => simp [Except.toOption]
  | ok b => simp [Except.toOption]

/-- What holds of every turn that returns, and of turns one after the other, holds of a loop that
returns. -/
theorem foldlM_some_induct {f : β → α → Option β} {Q : β → β → Prop} (hrefl : ∀ b, Q b b)
    (htrans : ∀ {b₁ b₂ b₃}, Q b₁ b₂ → Q b₂ b₃ → Q b₁ b₃)
    (hturn : ∀ {b a b'}, f b a = some b' → Q b b') {l : List α} {b b' : β}
    (h : l.foldlM f b = some b') : Q b b' := by
  induction l generalizing b with
  | nil =>
    obtain rfl : b = b' := Option.some.inj h
    exact hrefl b
  | cons a l ih =>
    rw [List.foldlM_cons] at h
    obtain ⟨b₁, hb, hl⟩ := Option.bind_eq_some_iff.mp h
    exact htrans (hturn hb) (ih hl)

/-- What every turn that returns keeps, a loop that returns keeps. -/
theorem foldlM_some_keeps {f : β → α → Option β} {I : β → Prop}
    (hturn : ∀ {b a b'}, I b → f b a = some b' → I b') {l : List α} {b b' : β} (hb : I b)
    (h : l.foldlM f b = some b') : I b' :=
  foldlM_some_induct (Q := fun b b' => I b → I b') (fun _ hi => hi)
    (fun hq hq' hi => hq' (hq hi)) (fun hf hi => hturn hi hf) h hb

/-- A loop whose turns return more often returns what it did. -/
theorem foldlM_some_mono {f g : β → α → Option β}
    (hturn : ∀ {b a b'}, f b a = some b' → g b a = some b') {l : List α} {b b' : β}
    (h : l.foldlM f b = some b') : l.foldlM g b = some b' := by
  induction l generalizing b with
  | nil => exact h
  | cons a l ih =>
    rw [List.foldlM_cons] at h ⊢
    obtain ⟨b₁, hb, hl⟩ := Option.bind_eq_some_iff.mp h
    exact Option.bind_eq_some_iff.mpr ⟨b₁, hturn hb, ih hl⟩

theorem foldlM_of_ok {f : β → α → Except ε β} {a : α} {b b' : β} (l : List α)
    (h : f b a = .ok b') : (a :: l).foldlM f b = l.foldlM f b' := by
  rw [List.foldlM_cons, h]
  rfl

theorem foldlM_of_error {f : β → α → Except ε β} {a : α} {b : β} {e : ε} (l : List α)
    (h : f b a = .error e) : (a :: l).foldlM f b = .error e := by
  rw [List.foldlM_cons, h]
  rfl

end Base
