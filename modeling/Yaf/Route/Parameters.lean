import Yaf.Php.Strtok
import Yaf.Route.Static

namespace Yaf
open Base

/-- The pairs of a token list. A last key without a value holds null. -/
def tokenPairs : List Bytes → Table Key Zval
  | [] => []
  | [key] => [(.name key, .null)]
  | key :: value :: segs => (.name key, .string value) :: tokenPairs segs

/-- The pairs of a token list as the loop takes them: a key that is kept empty is passed over. -/
def keptPairs : List Bytes → Table Key Zval
  | [] => []
  | [key] => if uintPrefix key = [] then [] else [(.name (uintPrefix key), .null)]
  | key :: value :: segs =>
    if uintPrefix key = [] then keptPairs (value :: segs)
    else (.name (uintPrefix key), .string value) :: keptPairs segs

/-- The length of every key is kept whole. -/
def KeysFit (segs : List Bytes) : Prop :=
  ∀ key, .name key ∈ Table.keys (tokenPairs segs) → key.length < 2 ^ 32

theorem parseParametersGo_eq (params : Table Key Zval) (segs : List Bytes) :
    parseParametersGo params segs = Table.merge params (keptPairs segs) := by
  induction params, segs using parseParametersGo.induct with
  | case1 params => rfl
  | case2 params key hkept => rw [parseParametersGo, keptPairs, if_pos hkept, if_pos hkept,
      Table.merge_nil]
  | case3 params key hkept => rw [parseParametersGo, keptPairs, if_neg hkept, if_neg hkept,
      Table.merge_cons, Table.merge_nil]
  | case4 params key value segs hkept ih =>
    rw [parseParametersGo, keptPairs, if_pos hkept, if_pos hkept, ih]
  | case5 params key value segs hkept ih =>
    rw [parseParametersGo, keptPairs, if_neg hkept, if_neg hkept, ih, Table.merge_cons]

theorem short_of_keptPairs {segs : List Bytes} {key : Bytes}
    (h : .name key ∈ Table.keys (keptPairs segs)) : key.length < 2 ^ 32 := by
  induction segs using keptPairs.induct with
  | case1 => cases h
  | case2 k hkept =>
    rw [keptPairs, if_pos hkept] at h
    cases h
  | case3 k hkept =>
    rw [keptPairs, if_neg hkept] at h
    obtain rfl : key = uintPrefix k := by simpa using h
    exact length_uintPrefix_lt k
  | case4 k value segs hkept ih =>
    rw [keptPairs, if_pos hkept] at h
    exact ih h
  | case5 k value segs hkept ih =>
    rw [keptPairs, if_neg hkept, Table.keys_cons] at h
    rcases List.mem_cons.mp h with he | h
    · rw [Key.name.inj he]
      exact length_uintPrefix_lt k
    · exact ih h

/-- A short key takes the token behind it. -/
theorem keptPairs_cons {key : Bytes} (hne : key ≠ []) (hshort : key.length < 2 ^ 32)
    (value : Bytes) (segs : List Bytes) :
    keptPairs (key :: value :: segs) = (.name key, .string value) :: keptPairs segs := by
  rw [keptPairs, uintPrefix_of_short hshort, if_neg hne]

theorem keptPairs_of_fit {segs : List Bytes} (hne : ∀ s ∈ segs, s ≠ []) (h : KeysFit segs) :
    keptPairs segs = tokenPairs segs := by
  induction segs using tokenPairs.induct with
  | case1 => rfl
  | case2 k =>
    have hkept := uintPrefix_of_short (h k (by simp [tokenPairs]))
    have hk := hne k (by simp)
    rw [keptPairs, hkept, if_neg hk, tokenPairs]
  | case3 k value segs ih =>
    have hshort := h k (by simp [tokenPairs])
    have hrest : KeysFit segs := by
      intro key hkey
      exact h key (List.mem_cons_of_mem _ hkey)
    rw [keptPairs_cons (hne k (by simp)) hshort, ih (fun s hs => hne s (by simp [hs])) hrest,
      tokenPairs]

theorem length_keptPairs_le (segs : List Bytes) :
    (keptPairs segs).length ≤ (segs.length + 1) / 2 := by
  induction segs using keptPairs.induct with
  | case1 => exact Nat.zero_le _
  | case2 k hkept => rw [keptPairs, if_pos hkept]; exact Nat.zero_le _
  | case3 k hkept => rw [keptPairs, if_neg hkept]; simp
  | case4 k value segs hkept ih =>
    rw [keptPairs, if_pos hkept]
    simp only [List.length_cons] at ih ⊢
    omega
  | case5 k value segs hkept ih =>
    rw [keptPairs, if_neg hkept]
    simp only [List.length_cons] at ih ⊢
    omega

/-- Keys are fronts of tokens, and values are tokens. -/
theorem mem_keptPairs {segs : List Bytes} {k : Key} {v : Zval} (h : (k, v) ∈ keptPairs segs) :
    (∃ s ∈ segs, k = .name (uintPrefix s)) ∧ (v = .null ∨ ∃ s ∈ segs, v = .string s) := by
  induction segs using keptPairs.induct with
  | case1 => cases h
  | case2 key hkept =>
    rw [keptPairs, if_pos hkept] at h
    cases h
  | case3 key hkept =>
    rw [keptPairs, if_neg hkept, List.mem_singleton, Prod.mk.injEq] at h
    exact ⟨⟨key, by simp, h.1⟩, Or.inl h.2⟩
  | case4 key value segs hkept ih =>
    rw [keptPairs, if_pos hkept] at h
    obtain ⟨⟨s, hs, hk⟩, hv⟩ := ih h
    refine ⟨⟨s, List.mem_cons_of_mem _ hs, hk⟩, ?_⟩
    rcases hv with hv | ⟨w, hw, hv⟩
    · exact Or.inl hv
    · exact Or.inr ⟨w, List.mem_cons_of_mem _ hw, hv⟩
  | case5 key value segs hkept ih =>
    rw [keptPairs, if_neg hkept] at h
    rcases List.mem_cons.mp h with h | h
    · cases h
      exact ⟨⟨key, by simp, rfl⟩, Or.inr ⟨value, by simp, rfl⟩⟩
    · obtain ⟨⟨s, hs, hk⟩, hv⟩ := ih h
      refine ⟨⟨s, by simp [hs], hk⟩, ?_⟩
      rcases hv with hv | ⟨w, hw, hv⟩
      · exact Or.inl hv
      · exact Or.inr ⟨w, by simp [hw], hv⟩

end Yaf
