import Mathlib.Algebra.Ring.Int.Defs
import Mathlib.Algebra.Ring.Nat
import Mathlib.Data.List.DropRight

namespace Yaf

/-- A counted string of the engine. A C string is what comes before its first NUL. -/
abbrev Bytes := List UInt8

/-- The bytes of an ASCII literal. -/
def lit (s : String) : Bytes := s.toList.map Char.toUInt8

def NUL : UInt8 := 0
def blank : UInt8 := 32
def comma : UInt8 := 44
def dot : UInt8 := 46
def slash : UInt8 := 47
def colon : UInt8 := 58
def backslash : UInt8 := 92
def underscore : UInt8 := 95

theorem slash_ne_nul : slash ≠ NUL := by decide

theorem bne_of_not_mem {d : UInt8} {s : Bytes} (hs : d ∉ s) : ∀ c ∈ s, (c != d) = true := by
  intro c hc
  apply bne_iff_ne.mpr
  intro h
  exact hs (h ▸ hc)

theorem takeWhile_bne {d : UInt8} {s : Bytes} (hs : d ∉ s) : s.takeWhile (· != d) = s := by
  rw [List.takeWhile_eq_self_iff]
  exact bne_of_not_mem hs

theorem not_mem_takeWhile_bne (d : UInt8) (s : Bytes) : d ∉ s.takeWhile (· != d) := by
  intro hm
  simpa using List.mem_takeWhile_imp hm

/-- The text before a character that occurs, and the rest. -/
theorem takeWhile_split {c : UInt8} {s : Bytes} (h : c ∈ s) :
    ∃ rest, s = s.takeWhile (· != c) ++ c :: rest := by
  induction s with
  | nil => cases h
  | cons d s ih =>
    by_cases hd : d = c
    · exact ⟨s, by simp [hd]⟩
    · obtain ⟨rest, hrest⟩ := ih (by simpa [Ne.symm hd] using h)
      refine ⟨rest, ?_⟩
      rw [List.takeWhile_cons_of_pos (by simpa using hd), List.cons_append, ← hrest]

/-- The text before a character ends in the front, when the character is there. -/
theorem takeWhile_append_of_mem {c : UInt8} {s : Bytes} (h : c ∈ s) (t : Bytes) :
    (s ++ t).takeWhile (· != c) = s.takeWhile (· != c) := by
  obtain ⟨rest, hrest⟩ := takeWhile_split h
  have hfront := bne_of_not_mem (not_mem_takeWhile_bne c s)
  conv_lhs => rw [hrest, List.append_assoc, List.takeWhile_append_of_pos hfront]
  simp

def cstr (s : Bytes) : Bytes := s.takeWhile (· != NUL)

theorem cstr_of_no_nul {s : Bytes} (hs : NUL ∉ s) : cstr s = s := takeWhile_bne hs

theorem cstr_append {s : Bytes} (hs : NUL ∉ s) (t : Bytes) : cstr (s ++ t) = s ++ cstr t := by
  rw [cstr, List.takeWhile_append_of_pos (bne_of_not_mem hs), cstr]

theorem nul_not_mem_cstr (s : Bytes) : NUL ∉ cstr s := not_mem_takeWhile_bne NUL s

/-- The bytes of a text that its length covers when it is kept in an `uint`. -/
def uintPrefix (s : Bytes) : Bytes := s.take (UInt32.ofNat s.length).toNat

theorem uintPrefix_of_short {s : Bytes} (h : s.length < 2 ^ 32) : uintPrefix s = s := by
  rw [uintPrefix, UInt32.toNat_ofNat', Nat.mod_eq_of_lt h, List.take_length]

theorem length_uintPrefix_lt (s : Bytes) : (uintPrefix s).length < 2 ^ 32 := by
  have hlt := (UInt32.ofNat s.length).toNat_lt
  rw [uintPrefix, List.length_take]
  omega

theorem uintPrefix_subset (s : Bytes) : uintPrefix s ⊆ s := List.take_subset _ _

/-- A length kept in an `int`; none when it turns negative there. -/
def intLength (s : Bytes) : Option Nat := (Int32.ofNat s.length).toInt.toNat?

theorem intLength_of_short {s : Bytes} (h : s.length < 2 ^ 31) : intLength s = some s.length := by
  rw [intLength, Int32.toInt_ofNat_of_lt h]
  rfl

theorem intLength_lt {s : Bytes} {n : Nat} (h : intLength s = some n) : n < 2 ^ 31 := by
  have hn : (Int32.ofNat s.length).toInt = n := Int.mem_toNat?.mp h
  have hlt := (Int32.ofNat s.length).toInt_lt
  omega

/-- The bytes of a text that such a length covers. -/
def intPrefix (s : Bytes) : Option Bytes := (intLength s).map s.take

theorem intPrefix_of_short {s : Bytes} (h : s.length < 2 ^ 31) : intPrefix s = some s := by
  rw [intPrefix, intLength_of_short h, Option.map_some, List.take_length]

/-- A string is its C string, or that and a NUL and more. -/
theorem cstr_split (s : Bytes) : s = cstr s ∨ ∃ t, s = cstr s ++ NUL :: t := by
  have hs : s = cstr s ++ s.dropWhile (· != NUL) := (List.takeWhile_append_dropWhile).symm
  cases hd : s.dropWhile (· != NUL) with
  | nil =>
    left
    rwa [hd, List.append_nil] at hs
  | cons c t =>
    right
    have hc : c = NUL := by
      have h := List.head?_dropWhile_not (· != NUL) s
      rw [hd] at h
      simpa using h
    exact ⟨t, by rwa [hd, hc] at hs⟩

def toLower (c : UInt8) : UInt8 := if 65 ≤ c && c ≤ 90 then c + 32 else c

/-- A character that is no letter is the lower case of itself alone. -/
theorem toLower_eq_iff {d : UInt8} (hd : d < 65 ∨ 90 < d ∧ d < 97 ∨ 122 < d) (c : UInt8) :
    toLower c = d ↔ c = d := by
  unfold toLower
  grind

theorem toLower_slash (c : UInt8) : toLower c = slash ↔ c = slash :=
  toLower_eq_iff (by decide) c

def toUpper (c : UInt8) : UInt8 := if 97 ≤ c && c ≤ 122 then c - 32 else c

def isDigit (c : UInt8) : Bool := 48 ≤ c && c ≤ 57

/-- Drop a trailing run. -/
def trimRight (p : UInt8 → Bool) (s : Bytes) : Bytes := s.rdropWhile p

theorem dropWhile_skip {p : UInt8 → Bool} {s t : Bytes} (hs : ∀ c ∈ s, p c)
    (ht : ∃ c t', t = c :: t' ∧ p c = false) : (s ++ t).dropWhile p = t := by
  obtain ⟨c, t', rfl, hc⟩ := ht
  rw [List.dropWhile_append_of_pos hs, List.dropWhile_cons_of_neg (by simp [hc])]

theorem trimRight_sublist (p : UInt8 → Bool) (s : Bytes) : (trimRight p s).Sublist s :=
  (List.rdropWhile_prefix p s).sublist

theorem trimRight_skip {p : UInt8 → Bool} {s t : Bytes} (ht : ∀ c ∈ t, p c)
    (hs : ∃ s' c, s = s' ++ [c] ∧ p c = false) : trimRight p (s ++ t) = s := by
  obtain ⟨s', c, rfl, hc⟩ := hs
  rw [trimRight, List.rdropWhile, List.reverse_append, dropWhile_skip (by simpa using ht) ?_]
  · simp
  · exact ⟨c, s'.reverse, by simp, hc⟩

/-- Trimming takes no other character away. -/
theorem mem_trimRight {p : UInt8 → Bool} {s : Bytes} {c : UInt8} (hp : p c = false) (hc : c ∈ s) :
    c ∈ trimRight p s := by
  have happend : s.rdropWhile p ++ s.rtakeWhile p = s := List.rdropWhile_append_rtakeWhile
  rw [← happend, List.mem_append] at hc
  rcases hc with hc | hc
  · exact hc
  · have := List.mem_rtakeWhile_imp hc
    rw [hp] at this
    cases this

/-- `IS_ABSOLUTE_PATH` -/
def isAbsolutePath (path : Bytes) : Bool := path.head? == some slash

/-- The tokens `php_strtok_r` cuts at one delimiter; it returns no empty token. -/
def strtok (delim : UInt8) (s : Bytes) : List Bytes :=
  ((cstr s).splitOn delim).filter (· ≠ [])

/-- `strncasecmp` answers that the first `n` characters are equal. -/
def strncasecmp (s t : Bytes) (n : Nat) : Bool :=
  ((cstr s).take n).map toLower == ((cstr t).take n).map toLower

/-- `zend_string_equals_ci`. -/
def equalsCi (s t : Bytes) : Bool := s.map toLower == t.map toLower

def LONG_MAX : Int := 2 ^ 63 - 1

/-- The key of a hash table. -/
inductive Key where
  | index (i : Int)
  | name (s : Bytes)
  deriving DecidableEq, Repr

def Key.name? : Key → Option Bytes
  | .index _ => none
  | .name s => some s

def Key.isName : Key → Bool
  | .index _ => false
  | .name _ => true

def decimal (ds : Bytes) : Nat := ds.foldl (fun n c => n * 10 + (c.toNat - 48)) 0

def octal (ds : Bytes) : Nat := ds.foldl (fun n c => n * 8 + (c.toNat - 48)) 0

/-- `_zend_handle_numeric_str`: the integer a decimal string names, when it is the spelling
the integer prints as. -/
def handleNumericStr (s : Bytes) : Option Int :=
  let neg := s.head? == some 45
  let ds := if neg then s.tail else s
  if ds.isEmpty || !ds.all isDigit then none
  else if ds.head? == some 48 && 1 < s.length then none
  else if 19 < ds.length then none
  else if neg then
    if 2 ^ 63 < decimal ds then none else some (-(decimal ds : Int))
  else
    if 2 ^ 63 ≤ decimal ds then none else some (decimal ds : Int)

/-- The key `zend_symtable_str_find` and its siblings use for a string. -/
def symtableKey (s : Bytes) : Key :=
  match handleNumericStr s with
  | some i => .index i
  | none => .name s

def isSpace (c : UInt8) : Bool := c == 32 || (9 ≤ c && c ≤ 13)

/-- Sign and digits of a number after its leading white space. -/
def signDigits (s : Bytes) : Bool × Bytes :=
  let ds := s.dropWhile isSpace
  if ds.head? == some 45 then (true, ds.tail)
  else if ds.head? == some 43 then (false, ds.tail)
  else (false, ds)

/-- `is_numeric_string` without errors allowed answers `IS_LONG`. -/
def isNumericLong (s : Bytes) : Bool :=
  let (neg, ds) := signDigits s
  !ds.isEmpty && ds.all isDigit && decimal ds < (if neg then 2 ^ 63 + 1 else 2 ^ 63)

/-- `zend_atol` on a string that `isNumericLong` accepts. It reads in base 0, so a leading
zero makes the digits octal and an 8 or a 9 ends them. -/
def zendAtol (s : Bytes) : Int :=
  let (neg, ds) := signDigits s
  let n := if ds.head? == some 48 then octal (ds.takeWhile (· < 56)) else decimal ds
  if neg then -(n : Int) else n

end Yaf
