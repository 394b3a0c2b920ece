import Mathlib.Data.List.Nodup

namespace Base

/-- A chain of cells: each names the next one, and the last one names none. -/
def Linked (next : Nat → Option Nat) : Option Nat → List Nat → Prop
  | start, [] => start = none
  | start, i :: l => start = some i ∧ Linked next (next i) l

/-- The first cell of a chain that the test accepts, with the cell before it. -/
def walk (next : Nat → Option Nat) (test : Nat → Bool) :
    Nat → Option Nat → Option Nat → Option (Nat × Option Nat)
  | 0, _, _ => none
  | _ + 1, _, none => none
  | fuel + 1, prev, some i =>
    if test i then some (i, prev) else walk next test fuel (some i) (next i)

namespace Linked

variable {next next' : Nat → Option Nat} {start : Option Nat} {l l₁ l₂ : List Nat}

@[simp] theorem nil_iff : Linked next start [] ↔ start = none := Iff.rfl

@[simp] theorem cons_iff {i : Nat} :
    Linked next start (i :: l) ↔ start = some i ∧ Linked next (next i) l := Iff.rfl

/-- Only the cells of the chain matter. -/
theorem congr (h : Linked next start l) (same : ∀ i ∈ l, next' i = next i) :
    Linked next' start l := by
  induction l generalizing start with
  | nil => exact h
  | cons i l ih =>
    obtain ⟨hs, ht⟩ := h
    refine ⟨hs, ih ?_ ?_⟩
    · rw [same i List.mem_cons_self]
      exact ht
    · intro j hj
      exact same j (List.mem_cons_of_mem i hj)

/-- A new cell in front of the chain. -/
theorem push {j : Nat} (h : Linked next start l) (same : ∀ i ∈ l, next' i = next i)
    (first : next' j = start) : Linked next' (some j) (j :: l) := by
  refine ⟨rfl, ?_⟩
  rw [first]
  exact h.congr same

/-- The rest of a chain starts where the cell before it says. -/
theorem tail {j : Nat} (h : Linked next start (l₁ ++ j :: l₂)) : Linked next (next j) l₂ := by
  induction l₁ generalizing start with
  | nil => exact h.2
  | cons i l₁ ih => exact ih h.2

/-- The first cell taken out. -/
theorem dropFirst {j : Nat} (h : Linked next start (j :: l₂)) (same : ∀ i ∈ l₂, next' i = next i) :
    Linked next' (next j) l₂ :=
  h.2.congr same

/-- A later cell taken out: the cell before it now names the one after it. -/
theorem skip {p j : Nat} (h : Linked next start (l₁ ++ p :: j :: l₂)) (before : next' p = next j)
    (same : ∀ i ∈ l₁ ++ l₂, next' i = next i) : Linked next' start (l₁ ++ p :: l₂) := by
  induction l₁ generalizing start with
  | nil =>
    obtain ⟨hs, hp⟩ := h
    refine ⟨hs, ?_⟩
    rw [before]
    exact dropFirst hp same
  | cons i l₁ ih =>
    obtain ⟨hs, ht⟩ := h
    refine ⟨hs, ?_⟩
    rw [same i List.mem_cons_self]
    apply ih ht
    intro k hk
    exact same k (List.mem_cons_of_mem i hk)

section walk

variable {test : Nat → Bool} {fuel : Nat} {prev : Option Nat}

theorem walk_none (h : Linked next start l) (refused : ∀ i ∈ l, test i = false) :
    walk next test fuel prev start = none := by
  induction l generalizing start fuel prev with
  | nil =>
    rw [nil_iff.mp h]
    cases fuel <;> rfl
  | cons i l ih =>
    obtain ⟨rfl, ht⟩ := h
    cases fuel with
    | zero => rfl
    | succ fuel =>
      rw [walk, refused i List.mem_cons_self]
      apply ih ht
      intro j hj
      exact refused j (List.mem_cons_of_mem i hj)

/-- With enough fuel the walk stops at the first accepted cell. -/
theorem walk_some {j : Nat} (h : Linked next start (l₁ ++ j :: l₂))
    (refused : ∀ i ∈ l₁, test i = false) (accepted : test j = true) (enough : l₁.length < fuel) :
    walk next test fuel prev start = some (j, l₁.getLast?.or prev) := by
  induction l₁ generalizing start fuel prev with
  | nil =>
    obtain ⟨rfl, ht⟩ := h
    cases fuel with
    | zero => cases enough
    | succ fuel => simp [walk, accepted]
  | cons i l₁ ih =>
    obtain ⟨rfl, ht⟩ := h
    cases fuel with
    | zero => cases enough
    | succ fuel =>
      have hi : test i = false := refused i List.mem_cons_self
      have hrest : ∀ k ∈ l₁, test k = false := by
        intro k hk
        exact refused k (List.mem_cons_of_mem i hk)
      rw [walk, hi]
      have hw : walk next test fuel (some i) (next i) = some (j, l₁.getLast?.or (some i)) :=
        ih ht hrest (Nat.lt_of_succ_lt_succ enough)
      rw [if_neg Bool.false_ne_true, hw, List.getLast?_cons, Option.or_some, Option.some_or]
end walk
end Linked

end Base
