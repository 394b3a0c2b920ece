import Mathlib.Data.List.Induction
import Yaf.Php.Bytes

namespace Yaf

/-- The integer `is_numeric_string` reads when it answers `IS_LONG`: white space, a sign and leading
zeros may stand before it. -/
def numericLong (s : Bytes) : Option Int :=
  if isNumericLong s then
    let (neg, ds) := signDigits s
    some (if neg then -(decimal ds : Int) else decimal ds)
  else none

/-- `atoi`: white space, a sign and digits, as far as a `long` reaches, and of that an `int`. -/
def atoi (s : Bytes) : Int :=
  let (neg, ds) := signDigits s
  let n : Int := decimal (ds.takeWhile isDigit)
  Int.bmod (if neg then max (-n) (-LONG_MAX - 1) else min n LONG_MAX) (2 ^ 32)

/-- The key the readers of a configuration look a name up by. -/
def numericKey (s : Bytes) : Key :=
  match numericLong s with
  | some i => .index i
  | none => .name s

theorem decimal_concat (ds : Bytes) (c : UInt8) :
    decimal (ds ++ [c]) = decimal ds * 10 + (c.toNat - 48) := by
  simp [decimal, List.foldl_append]

theorem isDigit_iff {c : UInt8} : isDigit c = true ↔ 48 ≤ c.toNat ∧ c.toNat ≤ 57 := by
  simp [isDigit, UInt8.le_iff_toNat_le]

theorem digit_ne_zero {c : UInt8} (hd : isDigit c = true) (h : c ≠ 48) : 48 < c.toNat := by
  have hne : c.toNat ≠ 48 := fun he => h (UInt8.toNat_inj.mp he)
  have := (isDigit_iff.mp hd).1
  omega

/-- A number without leading zeros is not zero. -/
theorem decimal_pos {ds : Bytes} (hne : ds ≠ []) (hd : ds.all isDigit = true)
    (hz : ds.head? ≠ some 48) : 0 < decimal ds := by
  induction ds using List.reverseRecOn with
  | nil => exact absurd rfl hne
  | append_singleton ds c ih =>
    rw [decimal_concat]
    rw [List.all_append, Bool.and_eq_true] at hd
    cases ds with
    | nil =>
      have hc := digit_ne_zero (by simpa using hd.2) (by simpa using hz)
      omega
    | cons d ds =>
      have := ih (by simp) hd.1 (by simpa using hz)
      omega

theorem decimal_inj {ds es : Bytes} (hd : ds.all isDigit = true) (he : es.all isDigit = true)
    (hdz : ds.head? ≠ some 48) (hez : es.head? ≠ some 48) (h : decimal ds = decimal es) :
    ds = es := by
  induction ds using List.reverseRecOn generalizing es with
  | nil =>
    by_contra hne
    have := decimal_pos (Ne.symm hne) he hez
    simp only [decimal, List.foldl_nil] at h this
    omega
  | append_singleton ds c ih =>
    rcases List.eq_nil_or_concat es with rfl | ⟨es, d, rfl⟩
    · have := decimal_pos (by simp) hd hdz
      simp only [decimal, List.foldl_nil] at h this
      omega
    · rw [List.concat_eq_append] at he hez h ⊢
      simp only [List.all_append, List.all_cons, List.all_nil, Bool.and_true,
        Bool.and_eq_true] at hd he
      rw [decimal_concat, decimal_concat] at h
      have hc := isDigit_iff.mp hd.2
      have hd' := isDigit_iff.mp he.2
      have hlast : c = d := UInt8.toNat_inj.mp (by omega)
      have hds : ds.head? ≠ some 48 := by cases ds <;> simp_all
      have hes : es.head? ≠ some 48 := by cases es <;> simp_all
      rw [ih hd.1 he.1 hds hes (by omega), hlast]

/-- A string that names an integer: a minus sign before digits without leading zeros, or the digits
alone. -/
theorem handleNumericStr_cases {s : Bytes} {i : Int} (h : handleNumericStr s = some i) :
    (∃ ds, s = 45 :: ds ∧ ds ≠ [] ∧ ds.all isDigit = true ∧ ds.head? ≠ some 48 ∧
      decimal ds ≤ 2 ^ 63 ∧ i = -(decimal ds : Int)) ∨
    (s ≠ [] ∧ s.all isDigit = true ∧ (s.head? = some 48 → s = [48]) ∧
      decimal s < 2 ^ 63 ∧ i = decimal s) := by
  simp only [handleNumericStr] at h
  cases hneg : s.head? == some 45 with
  | true =>
    cases s with
    | nil => simp at hneg
    | cons c ds =>
      obtain rfl : c = 45 := by simpa using hneg
      simp only [List.head?_cons, beq_self_eq_true, if_true, List.tail_cons,
        Option.ite_none_left_eq_some, Option.some.injEq] at h
      obtain ⟨hdig, hz, -, hle, rfl⟩ := h
      simp only [Bool.or_eq_true, List.isEmpty_iff, Bool.not_eq_true', not_or,
        Bool.not_eq_false] at hdig
      refine Or.inl ⟨ds, rfl, hdig.1, hdig.2, fun hzero => ?_, by omega, rfl⟩
      cases ds with
      | nil => exact hdig.1 rfl
      | cons d ds => simp_all
  | false =>
    rw [hneg] at h
    simp only [Bool.false_eq_true, if_false, Option.ite_none_left_eq_some, Option.some.injEq] at h
    obtain ⟨hdig, hz, -, hlt, rfl⟩ := h
    simp only [Bool.or_eq_true, List.isEmpty_iff, Bool.not_eq_true', not_or,
      Bool.not_eq_false] at hdig
    refine Or.inr ⟨hdig.1, hdig.2, fun hzero => ?_, by omega, rfl⟩
    rcases s with _ | ⟨c, _ | ⟨d, s⟩⟩ <;> simp_all

theorem handleNumericStr_bounds {s : Bytes} {i : Int} (h : handleNumericStr s = some i) :
    -2 ^ 63 ≤ i ∧ i < 2 ^ 63 := by
  rcases handleNumericStr_cases h with ⟨ds, -, -, -, -, hle, rfl⟩ | ⟨-, -, -, hlt, rfl⟩
  · constructor <;> omega
  · constructor <;> omega

theorem handleNumericStr_inj {s t : Bytes} {i : Int} (hs : handleNumericStr s = some i)
    (ht : handleNumericStr t = some i) : s = t := by
  have hzero : ∀ {ds : Bytes}, ds ≠ [] → ds.all isDigit = true → (ds.head? = some 48 → ds = [48]) →
      ds = [48] ∨ 0 < decimal ds ∧ ds.head? ≠ some 48 := by
    intro ds hne hd hz
    by_cases h : ds.head? = some 48
    · exact Or.inl (hz h)
    · exact Or.inr ⟨decimal_pos hne hd h, h⟩
  have hnil : decimal [48] = 0 := rfl
  rcases handleNumericStr_cases hs with ⟨ds, rfl, hne, hd, hz, -, rfl⟩ | ⟨hne, hd, hz, -, rfl⟩
  · have hpos := decimal_pos hne hd hz
    rcases handleNumericStr_cases ht with ⟨es, rfl, -, he, hez, -, heq⟩ | ⟨-, -, -, -, heq⟩
    · rw [decimal_inj hd he hz hez (by omega)]
    · omega
  · rcases handleNumericStr_cases ht with ⟨es, rfl, hne', he, hez, -, heq⟩ | ⟨hne', he, hez, -, heq⟩
    · have := decimal_pos hne' he hez
      omega
    · rcases hzero hne hd hz with rfl | ⟨hpos, hz⟩
      · rcases hzero hne' he hez with rfl | ⟨hpos', -⟩
        · rfl
        · omega
      · rcases hzero hne' he hez with rfl | ⟨hpos', hez⟩
        · omega
        · exact decimal_inj hd he hz hez (by omega)

theorem symtableKey_eq_name {s t : Bytes} (h : symtableKey s = .name t) : s = t := by
  unfold symtableKey at h
  split at h
  · cases h
  · exact Key.name.inj h

theorem numericKey_eq_name {s t : Bytes} (h : numericKey s = .name t) : s = t := by
  unfold numericKey at h
  split at h
  · cases h
  · exact Key.name.inj h

/-- A string with more digits than a `long` has names no integer. -/
theorem handleNumericStr_of_long {s : Bytes} (h : 20 < s.length) : handleNumericStr s = none := by
  have hds : 19 < (if s.head? == some 45 then s.tail else s).length := by
    split
    · rw [List.length_tail]
      omega
    · omega
  simp only [handleNumericStr, hds, if_true, ite_self]

/-- Two strings are one array key only when they are equal. -/
theorem symtableKey_inj {s t : Bytes} (h : symtableKey s = symtableKey t) : s = t := by
  unfold symtableKey at h
  cases hs : handleNumericStr s with
  | none =>
    cases ht : handleNumericStr t with
    | none => simpa [hs, ht] using h
    | some j => simp [hs, ht] at h
  | some i =>
    cases ht : handleNumericStr t with
    | none => simp [hs, ht] at h
    | some j =>
      obtain rfl : i = j := by simpa [hs, ht] using h
      exact handleNumericStr_inj hs ht

theorem signDigits_of_head {c : UInt8} {s : Bytes} (h : isSpace c = false) :
    signDigits (c :: s) =
      if c = 45 then (true, s) else if c = 43 then (false, s) else (false, c :: s) := by
  simp [signDigits, List.dropWhile_cons_of_neg, h]

theorem digit_plain {c : UInt8} (h : isDigit c = true) :
    isSpace c = false ∧ c ≠ 45 ∧ c ≠ 43 := by
  have hd := isDigit_iff.mp h
  refine ⟨?_, ?_, ?_⟩
  · have h32 : c.toNat ≠ 32 := by omega
    have hne : c ≠ 32 := fun he => h32 (congrArg UInt8.toNat he)
    simp only [isSpace, Bool.or_eq_false_iff, beq_eq_false_iff_ne, Bool.and_eq_false_iff,
      decide_eq_false_iff_not, UInt8.le_iff_toNat_le]
    exact ⟨hne, Or.inr (by change ¬c.toNat ≤ 13; omega)⟩
  · rintro rfl
    revert hd
    decide
  · rintro rfl
    revert hd
    decide

/-- What is an integer for the writer is the same integer for the reader. -/
theorem numericLong_of_handleNumericStr {s : Bytes} {i : Int} (h : handleNumericStr s = some i) :
    numericLong s = some i := by
  rcases handleNumericStr_cases h with ⟨ds, rfl, hne, hd, -, hle, rfl⟩ | ⟨hne, hd, -, hlt, rfl⟩
  · have hsd : signDigits (45 :: ds) = (true, ds) := by rw [signDigits_of_head (by decide)]; rfl
    have hlong : isNumericLong (45 :: ds) = true := by
      simp only [isNumericLong, hsd, hd, if_true, Bool.and_true, Bool.and_eq_true,
        Bool.not_eq_true', List.isEmpty_eq_false_iff, decide_eq_true_eq]
      exact ⟨hne, by omega⟩
    simp [numericLong, hlong, hsd]
  · have hsd : signDigits s = (false, s) := by
      cases s with
      | nil => exact absurd rfl hne
      | cons c s =>
        obtain ⟨hsp, hminus, hplus⟩ := digit_plain (List.all_eq_true.mp hd c List.mem_cons_self)
        rw [signDigits_of_head hsp, if_neg hminus, if_neg hplus]
    have hlong : isNumericLong s = true := by
      simp only [isNumericLong, hsd, hd, Bool.false_eq_true, if_false, Bool.and_true,
        Bool.and_eq_true, Bool.not_eq_true', List.isEmpty_eq_false_iff, decide_eq_true_eq]
      exact ⟨hne, hlt⟩
    simp [numericLong, hlong, hsd]

/-- Reader and writer use one key unless an integer is spelled otherwise than it prints. -/
theorem numericKey_eq_iff {s : Bytes} :
    numericKey s = symtableKey s ↔
      (isNumericLong s = true → (handleNumericStr s).isSome = true) := by
  unfold numericKey symtableKey
  cases hw : handleNumericStr s with
  | some i => simp [numericLong_of_handleNumericStr hw]
  | none =>
    cases hl : isNumericLong s with
    | false => simp [numericLong, hl]
    | true => simp [numericLong, hl]

theorem numericKey_eq_name_iff {s : Bytes} : numericKey s = .name s ↔ isNumericLong s = false := by
  unfold numericKey
  cases hl : isNumericLong s <;> simp [numericLong, hl]

end Yaf
