import Yaf.Base.Segments
import Yaf.Php.Bytes

namespace Yaf
open Base

theorem strtok_nil (d : UInt8) : strtok d [] = [] := rfl

theorem strtok_append {d : UInt8} {s : Bytes} (hs : NUL ∉ s) (hd : d ≠ NUL) (t : Bytes) :
    strtok d (s ++ d :: t) = strtok d s ++ strtok d t := by
  have hsd : NUL ∉ s ++ [d] := by simp [hs, Ne.symm hd]
  have hcut : cstr (s ++ d :: t) = s ++ d :: cstr t := by
    simpa using cstr_append hsd t
  rw [strtok, hcut, List.splitOn_append_cons_self, List.filter_append, strtok, strtok,
    cstr_of_no_nul hs]

theorem strtok_cons {d : UInt8} (hd : d ≠ NUL) (t : Bytes) : strtok d (d :: t) = strtok d t := by
  simpa [strtok_nil] using strtok_append (s := []) (by simp) hd t

theorem strtok_of_free {d : UInt8} {s : Bytes} (hs : NUL ∉ s) (hd : d ∉ s) :
    strtok d s = if s = [] then [] else [s] := by
  rw [strtok, cstr_of_no_nul hs, List.splitOn_eq_singleton hd]
  by_cases h : s = [] <;> simp [h]

/-- Pieces with a delimiter before each are cut apart again. -/
theorem strtok_flatMap {d : UInt8} (hd : d ≠ NUL) {ss : List Bytes} (hs : ∀ s ∈ ss, NUL ∉ s) :
    strtok d (ss.flatMap (d :: ·)) = ss.flatMap (strtok d) := by
  induction ss with
  | nil => rfl
  | cons s ss ih =>
    have hss : ∀ s ∈ ss, NUL ∉ s := fun t ht => hs t (List.mem_cons_of_mem _ ht)
    have hhead := hs s List.mem_cons_self
    rw [List.flatMap_cons, List.flatMap_cons, List.cons_append, strtok_cons hd, ← ih hss]
    cases ss with
    | nil => simp [strtok_nil]
    | cons t ss =>
      rw [List.flatMap_cons, List.cons_append, strtok_append hhead hd, strtok_cons hd]

/-- A token is not empty and holds neither the delimiter nor a NUL. -/
theorem mem_strtok {d : UInt8} {s t : Bytes} (ht : t ∈ strtok d s) :
    t ≠ [] ∧ NUL ∉ t ∧ d ∉ t := by
  obtain ⟨hmem, hne⟩ := List.mem_filter.mp ht
  refine ⟨by simpa using hne, ?_, not_mem_of_mem_splitOn hmem⟩
  intro h
  exact nul_not_mem_cstr s (mem_of_mem_splitOn hmem h)

/-- A token is the front of a piece: a NUL may end it. -/
theorem strtok_front {d : UInt8} {s t : Bytes} (ht : t ∈ strtok d s) :
    ∃ p ∈ s.splitOn d, t <+: p :=
  splitOn_of_prefix (List.takeWhile_prefix _) (List.mem_filter.mp ht).1

end Yaf
