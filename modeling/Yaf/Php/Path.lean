import Yaf.Php.Bytes

namespace Yaf

/-- `strncmp` answers that the first `n` characters are equal. -/
def strncmp (s t : Bytes) (n : Nat) : Bool := (cstr s).take n == (cstr t).take n

/-- On a text without NUL it is a test for a prefix. -/
theorem strncmp_iff_front {s t : Bytes} (ht : NUL ∉ t) :
    strncmp s t t.length = true ↔ t <+: s := by
  rw [strncmp, cstr_of_no_nul ht, List.take_length, beq_iff_eq]
  constructor
  · intro h
    rw [← h]
    exact (List.take_prefix _ _).trans (List.takeWhile_prefix _)
  · rintro ⟨rest, rfl⟩
    rw [cstr_append ht, List.take_left]

/-- The length of the character in front, as `mblen` finds it in the locale; none for bytes that
are no character. -/
abbrev Mblen := Bytes → Option Nat

/-- The loop of `php_basename`, with the component it has and whether it is inside it. Bytes that
are no character do not start a component. -/
def basenameScan (mblen : Mblen) : Nat → Bytes → Bool → Bytes → Bytes
  | 0, comp, _, _ => comp
  | _ + 1, comp, _, [] => comp
  | n + 1, comp, inside, c :: s =>
    match if c = NUL then some 1 else mblen (c :: s) with
    | some 0 => comp
    | none => basenameScan mblen n (if inside then comp ++ [c] else comp) inside s
    | some len =>
      if len = 1 ∧ c = slash then basenameScan mblen n comp false s
      else
        basenameScan mblen n ((if inside then comp else []) ++ (c :: s).take len) true
          ((c :: s).drop len)

/-- `php_basename`. The suffix is not taken off when it is the whole name. -/
def phpBasename (mblen : Mblen) (s : Bytes) (suffix : Option Bytes) : Bytes :=
  let comp := basenameScan mblen s.length [] false s
  match suffix with
  | some suffix =>
    if suffix.length < comp.length ∧ suffix <:+ comp then
      comp.take (comp.length - suffix.length)
    else comp
  | none => comp

/-- `zend_dirname`. -/
def phpDirname (path : Bytes) : Bytes :=
  if path = [] then []
  else
    let named := trimRight (· == slash) path
    if named = [] then [slash]
    else
      let dir := trimRight (· != slash) named
      if dir = [] then [dot]
      else
        let dir := trimRight (· == slash) dir
        if dir = [] then [slash] else dir

theorem getLast?_trimRight {p : UInt8 → Bool} {s : Bytes} {c : UInt8}
    (h : (trimRight p s).getLast? = some c) : p c = false := by
  have hne : s.rdropWhile p ≠ [] := by
    intro hnil
    simp [trimRight, hnil] at h
  have hlast := List.rdropWhile_last_not p s hne
  rw [trimRight, List.getLast?_eq_some_getLast hne, Option.some.injEq] at h
  simpa [h] using hlast

/-- Only the root ends with a slash. -/
theorem phpDirname_slash {path : Bytes} (h : (phpDirname path).getLast? = some slash) :
    phpDirname path = [slash] := by
  unfold phpDirname at h ⊢
  dsimp only at h ⊢
  split at h
  · simp at h
  · split at h
    · rename_i hpath hnamed
      rw [if_neg hpath, if_pos hnamed]
    · split at h
      · simp [slash, dot] at h
      · split at h
        · rename_i hpath hnamed hdir hroot
          rw [if_neg hpath, if_neg hnamed, if_neg hdir, if_pos hroot]
        · exact absurd (getLast?_trimRight h) (by simp)

end Yaf
