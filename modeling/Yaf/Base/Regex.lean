import Mathlib.Data.List.Basic

namespace Base

/-- A piece of a regular expression: one character of a set, or a named group that takes at least
so many characters of a set, as many as it can. -/
inductive RegexItem (κ ν : Type) where
  | one (set : κ)
  | group (name : ν) (least : Nat) (set : κ)
  deriving DecidableEq, Repr

/-- Items one after the other. -/
abbrev Regex (κ ν : Type) := List (RegexItem κ ν)

/-- One way to match: what is taken, what each group took of it, and what is left. -/
structure Way (σ ν : Type) where
  taken : List σ
  groups : List (ν × List σ)
  rest : List σ
  deriving DecidableEq, Repr

variable {σ κ ν : Type}

/-- A way that goes on after a text, which a group may hold. -/
def Way.after (t : List σ) (names : List ν) (w : Way σ ν) : Way σ ν :=
  ⟨t ++ w.taken, names.map (fun n => (n, t)) ++ w.groups, w.rest⟩

namespace Regex

/-- The fronts of a text whose characters all pass, the longest first. -/
def repeats (p : σ → Bool) : List σ → List (List σ × List σ)
  | [] => [([], [])]
  | c :: s =>
    if p c then (repeats p s).map (fun t => (c :: t.1, t.2)) ++ [([], c :: s)]
    else [([], c :: s)]

/-- The ways to match the front of a text, in the order in which a backtracking matcher finds
them. -/
def ways (mem : κ → σ → Bool) : Regex κ ν → List σ → List (Way σ ν)
  | [], s => [⟨[], [], s⟩]
  | .one set :: r, s =>
    match s with
    | [] => []
    | c :: s => if mem set c then (ways mem r s).map (Way.after [c] []) else []
  | .group name least set :: r, s =>
    ((repeats (mem set) s).filter fun t => least ≤ t.1.length).flatMap fun t =>
      (ways mem r t.2).map (Way.after t.1 [name])

/-- The way a matcher answers with. -/
def run (mem : κ → σ → Bool) (r : Regex κ ν) (s : List σ) : Option (Way σ ν) :=
  (ways mem r s).head?

/-- The names of the groups, in the order they open. -/
def names : Regex κ ν → List ν
  | [] => []
  | .one _ :: r => names r
  | .group name _ _ :: r => name :: names r

/-- The longest front comes first, and behind every shorter one stands a character that passes. -/
theorem repeats_eq (p : σ → Bool) (s : List σ) :
    ∃ others, repeats p s = (s.takeWhile p, s.dropWhile p) :: others ∧
      ∀ t ∈ others, t.1.length ≤ (s.takeWhile p).length ∧ ∃ c u, t.2 = c :: u ∧ p c = true := by
  induction s with
  | nil => exact ⟨[], rfl, by simp⟩
  | cons c s ih =>
    obtain ⟨others, he, ho⟩ := ih
    by_cases hc : p c = true
    · refine ⟨others.map (fun t => (c :: t.1, t.2)) ++ [([], c :: s)], ?_, ?_⟩
      · simp [repeats, hc, he]
      · intro t ht
        rcases List.mem_append.mp ht with ht | ht
        · obtain ⟨u, hu, rfl⟩ := List.mem_map.mp ht
          obtain ⟨hlen, hnext⟩ := ho u hu
          exact ⟨by simp [hc, hlen], hnext⟩
        · rw [List.mem_singleton] at ht
          subst ht
          exact ⟨by simp, c, s, rfl, hc⟩
    · refine ⟨[], ?_, by simp⟩
      simp [repeats, hc]

section Run

variable {mem : κ → σ → Bool}

@[simp] theorem run_nil (s : List σ) : run mem ([] : Regex κ ν) s = some ⟨[], [], s⟩ := rfl

@[simp] theorem run_one_nil (set : κ) (r : Regex κ ν) : run mem (.one set :: r) [] = none := rfl

theorem run_one_cons (set : κ) (r : Regex κ ν) (c : σ) (s : List σ) :
    run mem (.one set :: r) (c :: s) =
      if mem set c then (run mem r s).map (Way.after [c] []) else none := by
  rw [run, ways]
  split <;> simp [run, List.head?_map]

/-- What comes behind a group cannot start with a character the group would take. -/
def Stops (mem : κ → σ → Bool) (set : κ) (r : Regex κ ν) : Prop :=
  r = [] ∨ ∃ next r', r = .one next :: r' ∧ ∀ c, mem set c = true → mem next c = false

/-- Before such a stop a group takes the whole run, or nothing matches. -/
theorem run_group {set : κ} {r : Regex κ ν} (hr : Stops mem set r) (name : ν) (least : Nat)
    (s : List σ) :
    run mem (.group name least set :: r) s =
      if least ≤ (s.takeWhile (mem set)).length then
        (run mem r (s.dropWhile (mem set))).map (Way.after (s.takeWhile (mem set)) [name])
      else none := by
  obtain ⟨others, he, ho⟩ := repeats_eq (mem set) s
  rw [run, ways, he, List.filter_cons]
  by_cases hl : least ≤ (s.takeWhile (mem set)).length
  · rw [if_pos (by simpa using hl), if_pos hl, List.flatMap_cons]
    rcases hr with rfl | ⟨next, r', rfl, hstop⟩
    · rfl
    · have hnone : (others.filter fun t => decide (least ≤ t.1.length)).flatMap (fun t =>
          (ways mem (.one next :: r') t.2).map (Way.after t.1 [name])) = [] := by
        rw [List.flatMap_eq_nil_iff]
        intro t ht
        obtain ⟨-, c, u, hu, hc⟩ := ho t (List.mem_filter.mp ht).1
        rw [hu, ways, hstop c hc]
        rfl
      rw [hnone, List.append_nil, List.head?_map, ← run]
  · have hnil : others.filter (fun t => decide (least ≤ t.1.length)) = [] := by
      rw [List.filter_eq_nil_iff]
      intro t ht
      have hlen := (ho t ht).1
      simp only [decide_eq_true_eq]
      omega
    rw [if_neg (by simpa using hl), if_neg hl, hnil]
    rfl

end Run

end Regex

end Base
