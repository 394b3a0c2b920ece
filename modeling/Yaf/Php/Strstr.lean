import Yaf.Base.Segments
import Yaf.Php.Bytes

namespace Yaf
open Base

/-- `strstr`: the text before the first occurrence, and the text after it. -/
def strstr (s needle : Bytes) : Option (Bytes × Bytes) :=
  if needle <+: s then some ([], s.drop needle.length)
  else match s with
    | [] => none
    | c :: s => (strstr s needle).map fun p => (c :: p.1, p.2)

/-- The text before the occurrence is empty when it is at the start. -/
theorem strstr_nil_iff {s needle : Bytes} :
    (∃ rest, strstr s needle = some ([], rest)) ↔ needle <+: s := by
  rw [strstr.eq_def]
  by_cases hp : needle <+: s
  · simp [hp]
  · cases s with
    | nil => simp [hp]
    | cons c s => cases hs : strstr s needle <;> simp [hp, hs]

theorem strstr_eq_none {s needle : Bytes} : strstr s needle = none ↔ ¬ needle <:+: s := by
  induction s with
  | nil =>
    rw [strstr]
    by_cases h : needle <+: []
    · simp [h, h.isInfix]
    · rw [if_neg h]
      simp only [true_iff]
      intro hi
      exact h (by simpa using hi)
  | cons c s ih =>
    rw [strstr]
    by_cases h : needle <+: c :: s
    · simp [h, h.isInfix]
    · rw [if_neg h]
      simp only [Option.map_eq_none_iff, ih, List.infix_cons_iff, h, false_or]

theorem strstr_split {s needle before after : Bytes} (h : strstr s needle = some (before, after)) :
    s = before ++ needle ++ after := by
  induction s generalizing before with
  | nil =>
    rw [strstr] at h
    split at h
    · rename_i hp
      obtain rfl := List.prefix_nil.mp hp
      cases h
      rfl
    · cases h
  | cons c s ih =>
    rw [strstr] at h
    split at h
    · rename_i hp
      obtain ⟨t, ht⟩ := hp
      cases h
      rw [← ht, List.drop_left, List.nil_append]
    · obtain ⟨⟨b, a⟩, hs, he⟩ := Option.map_eq_some_iff.mp h
      cases he
      rw [ih hs]
      rfl

theorem strstr_singleton (c : UInt8) (s : Bytes) : strstr s [c] =
    if c ∈ s then some (s.takeWhile (· != c), (s.dropWhile (· != c)).tail) else none := by
  induction s with
  | nil => simp [strstr]
  | cons d s ih =>
    rw [strstr]
    by_cases hd : c = d
    · subst hd
      simp
    · have hne : (d != c) = true := by simpa using Ne.symm hd
      have hno : ¬[c] <+: d :: s := by simpa using hd
      rw [if_neg hno, ih]
      by_cases hm : c ∈ s <;> simp [hd, hm, hne]

/-- What stands behind the first occurrence does not matter. -/
theorem strstr_append {s needle before after : Bytes} (u : Bytes)
    (h : strstr s needle = some (before, after)) :
    strstr (s ++ u) needle = some (before, after ++ u) := by
  induction s generalizing before with
  | nil =>
    rw [strstr] at h
    split at h
    · rename_i hp
      obtain rfl := List.prefix_nil.mp hp
      cases h
      rw [strstr.eq_def, if_pos List.nil_prefix]
      rfl
    · cases h
  | cons c s ih =>
    rw [strstr] at h
    split at h
    · rename_i hp
      obtain ⟨t, ht⟩ := hp
      cases h
      rw [← ht, List.drop_left, List.append_assoc, strstr.eq_def,
        if_pos (List.prefix_append _ _), List.drop_left]
    · rename_i hp
      obtain ⟨⟨b, a⟩, hs, he⟩ := Option.map_eq_some_iff.mp h
      cases he
      have hlen : needle.length ≤ (c :: s).length := by
        rw [strstr_split hs]
        simp only [List.length_cons, List.length_append]
        omega
      have hp' : ¬needle <+: c :: s ++ u := fun hpre =>
        hp (List.prefix_of_prefix_length_le hpre (List.prefix_append _ _) hlen)
      rw [List.cons_append] at hp' ⊢
      rw [strstr, if_neg hp', ih hs]
      rfl

/-- A separator the text does not hold is stepped over together with what stands before it. -/
theorem strstr_skip_piece {d seg : Bytes} {a : UInt8} (u : Bytes) (ha : a ∉ d)
    (hseg : ¬ d <:+: seg) :
    strstr (seg ++ a :: u) d = (strstr u d).map fun p => (seg ++ a :: p.1, p.2) := by
  induction seg with
  | nil =>
    have hno : ¬ d <+: a :: u := by
      intro h
      exact hseg (prefix_of_prefix_sep (s := []) h ha).isInfix
    rw [List.nil_append, strstr, if_neg hno]
    rfl
  | cons c seg ih =>
    have hno : ¬ d <+: c :: seg ++ a :: u := by
      intro h
      exact hseg (prefix_of_prefix_sep h ha).isInfix
    have hih := ih fun h => hseg (List.infix_cons h)
    rw [List.cons_append] at hno ⊢
    rw [strstr, if_neg hno, hih]
    cases strstr u d <;> rfl

theorem strstr_here {d : Bytes} (u : Bytes) : strstr (d ++ u) d = some ([], u) := by
  rw [strstr.eq_def, if_pos (List.prefix_append d u), List.drop_left]

/-- The pieces of a text between the occurrences of another, looked for from the left. -/
def piecesBetween (needle s : Bytes) : List Bytes :=
  if _hn : needle = [] then [s]
  else
    match _h : strstr s needle with
    | none => [s]
    | some (before, after) => before :: piecesBetween needle after
termination_by s.length
decreasing_by
  have hlen := List.length_pos_iff.mpr _hn
  rw [strstr_split _h, List.length_append, List.length_append]
  omega

end Yaf
