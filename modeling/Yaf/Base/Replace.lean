import Yaf.Base.Segments

namespace Base
variable {α : Type} [DecidableEq α]

/-- Replace every occurrence from the left; the number counts what is left of one that was found. -/
def replaceFrom (needle str : List α) : Nat → List α → List α
  | _, [] => []
  | n + 1, _ :: s => replaceFrom needle str n s
  | 0, c :: s =>
    if needle <+: c :: s then str ++ replaceFrom needle str (needle.length - 1) s
    else c :: replaceFrom needle str 0 s

/-- Replace every occurrence of a text that is not empty. What is put in is not read again. -/
def replaceAll (needle str s : List α) : List α := replaceFrom needle str 0 s

section
variable {needle str : List α}

@[simp] theorem replaceAll_nil : replaceAll needle str [] = [] := rfl

theorem replaceAll_cons_of_not_front {c : α} {s : List α} (h : ¬ needle <+: c :: s) :
    replaceAll needle str (c :: s) = c :: replaceAll needle str s := by
  rw [replaceAll, replaceFrom, if_neg h, replaceAll]

/-- A text without the needle stays as it is. -/
theorem replaceAll_of_not_infix {s : List α} (h : ¬ needle <:+: s) :
    replaceAll needle str s = s := by
  induction s with
  | nil => rfl
  | cons c s ih =>
    have hpre : ¬ needle <+: c :: s := fun hp => h hp.isInfix
    rw [replaceAll_cons_of_not_front hpre, ih fun hi => h (List.infix_cons hi)]

theorem replaceFrom_skip (s t : List α) :
    replaceFrom needle str s.length (s ++ t) = replaceAll needle str t := by
  induction s with
  | nil => rfl
  | cons c s ih => simpa [replaceFrom] using ih

/-- The needle at the front is replaced. -/
theorem replaceAll_self (hne : needle ≠ []) (t : List α) :
    replaceAll needle str (needle ++ t) = str ++ replaceAll needle str t := by
  cases needle with
  | nil => exact absurd rfl hne
  | cons c s =>
    rw [replaceAll, List.cons_append, replaceFrom, if_pos ⟨t, by simp⟩, List.length_cons,
      Nat.add_sub_cancel, replaceFrom_skip]

/-- A separator the needle does not hold keeps the sides apart. -/
theorem replaceAll_append_sep (hne : needle ≠ []) {a : α} (ha : a ∉ needle) (x y : List α) :
    replaceAll needle str (x ++ a :: y) =
      replaceAll needle str x ++ a :: replaceAll needle str y := by
  have hgo : ∀ n, n ≤ x.length → replaceFrom needle str n (x ++ a :: y) =
      replaceFrom needle str n x ++ a :: replaceAll needle str y := by
    induction x with
    | nil =>
      intro n hn
      obtain rfl : n = 0 := by simpa using hn
      have hpre : ¬ needle <+: a :: y := by
        intro h
        exact hne (List.prefix_nil.mp (prefix_of_prefix_sep (s := []) h ha))
      exact replaceAll_cons_of_not_front hpre
    | cons c x ih =>
      intro n hn
      cases n with
      | succ n => exact ih n (by simpa using hn)
      | zero =>
        by_cases hpre : needle <+: c :: x
        · have hpre' : needle <+: c :: (x ++ a :: y) := hpre.trans ⟨a :: y, by simp⟩
          have hlen : needle.length - 1 ≤ x.length := by
            have := hpre.length_le
            simp only [List.length_cons] at this
            omega
          rw [List.cons_append, replaceFrom, replaceFrom, if_pos hpre, if_pos hpre', ih _ hlen]
          simp
        · have hpre' : ¬ needle <+: c :: (x ++ a :: y) := fun h => hpre (prefix_of_prefix_sep h ha)
          rw [List.cons_append, replaceFrom, replaceFrom, if_neg hpre, if_neg hpre',
            ih 0 (Nat.zero_le _)]
          rfl
  exact hgo 0 (Nat.zero_le _)

/-- A single letter is replaced wherever it stands. -/
theorem replaceAll_single (a : α) (s : List α) :
    replaceAll [a] str s = s.flatMap fun c => if c = a then str else [c] := by
  induction s with
  | nil => rfl
  | cons c s ih =>
    rw [List.flatMap_cons, ← ih]
    by_cases hc : c = a
    · subst hc
      rw [if_pos rfl]
      exact replaceAll_self (List.cons_ne_nil c []) s
    · rw [if_neg hc, replaceAll_cons_of_not_front (by simpa using Ne.symm hc)]
      rfl

/-- Nothing is emptied by replacing with something. -/
theorem replaceAll_ne_nil (hstr : str ≠ []) {s : List α} (hs : s ≠ []) :
    replaceAll needle str s ≠ [] := by
  cases s with
  | nil => exact absurd rfl hs
  | cons c s =>
    rw [replaceAll, replaceFrom]
    split <;> simp [hstr]

theorem not_mem_replaceAll {a : α} (hstr : a ∉ str) {s : List α} (hs : a ∉ s) :
    a ∉ replaceAll needle str s := by
  have hgo : ∀ n, a ∉ replaceFrom needle str n s := by
    induction s with
    | nil => intro n; cases n <;> simp [replaceFrom]
    | cons c s ih =>
      simp only [List.mem_cons, not_or] at hs
      intro n
      cases n with
      | succ n => exact ih hs.2 n
      | zero =>
        rw [replaceFrom]
        split
        · simp [hstr, ih hs.2]
        · simp [hs.1, ih hs.2]
  exact hgo 0

end

end Base
