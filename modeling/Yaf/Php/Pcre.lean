import Yaf.Base.Regex
import Yaf.Php.Bytes

namespace Yaf
open Base

/-- `preg_match` with a pattern on a subject: no answer for a pattern that does not compile, and
no groups when there is no match. -/
abbrev PregMatch := Bytes → Bytes → Option (List (Key × Bytes))

/-- A set of characters as a pattern spells it. -/
inductive CharSet where
  | letter (c : UInt8)
  | except (c : UInt8)
  | dot
  deriving DecidableEq, Repr

namespace Pcre

def newline : UInt8 := 10

def isLetter (c : UInt8) : Bool := (65 ≤ c && c ≤ 90) || (97 ≤ c && c ≤ 122)

def isAlnum (c : UInt8) : Bool := isLetter c || isDigit c

/-- The name of a group starts with a letter or an underscore. -/
def isIdentifier : Bytes → Bool
  | [] => false
  | c :: s => (isLetter c || c == underscore) && s.all fun d => isAlnum d || d == underscore

/-- With the modifier `i` letters match in either case. The dot leaves out the newline. -/
def accepts : CharSet → UInt8 → Bool
  | .letter c, d => toLower c == toLower d
  | .except c, d => d != c
  | .dot, d => d != newline

def setText : CharSet → Bytes
  | .letter c => [c]
  | .except c => lit "[^" ++ c :: lit "]"
  | .dot => lit "."

def itemText : RegexItem CharSet Bytes → Bytes
  | .one set => setText set
  | .group name least set =>
    lit "(?P<" ++ name ++ lit ">" ++ setText set ++ (if least = 0 then lit "*" else lit "+") ++
      lit ")"

/-- What stands between the delimiters, behind the anchor. -/
def regexText (r : Regex CharSet Bytes) : Bytes := r.flatMap itemText

/-- The pieces whose meaning is taken for granted: letters, digits and slashes, and groups that
repeat `[^/]` or the dot. -/
def Plain : RegexItem CharSet Bytes → Prop
  | .one (.letter c) => isAlnum c = true ∨ c = slash
  | .group name least set => isIdentifier name = true ∧
      (least = 1 ∧ set = .except slash ∨ least = 0 ∧ set = .dot)
  | _ => False

/-- The sub-patterns `preg_match` hands out: the whole match, and each group by its name and by
its number. -/
def subparts : Option (Way UInt8 Bytes) → List (Key × Bytes)
  | none => []
  | some w => (.index 0, w.taken) :: w.groups.zipIdx.flatMap fun p =>
      [(.name p.1.1, p.1.2), (.index (p.2 + 1), p.1.2)]

/-- PCRE, on the patterns built here: it runs them, and refuses two groups of one name. The limit
on the length of a name is left out. -/
structure Implements (pregMatch : PregMatch) : Prop where
  run : ∀ r : Regex CharSet Bytes, (∀ i ∈ r, Plain i) → (Regex.names r).Nodup → ∀ subject,
    pregMatch (lit "#^" ++ regexText r ++ lit "#i") subject =
      some (subparts (Regex.run accepts r subject))
  duplicate : ∀ r : Regex CharSet Bytes, (∀ i ∈ r, Plain i) → ¬ (Regex.names r).Nodup →
    ∀ subject, pregMatch (lit "#^" ++ regexText r ++ lit "#i") subject = none

/-- A group behind its opening `(?P<`. -/
def parseGroup (s : Bytes) : Option (RegexItem CharSet Bytes × Bytes) :=
  let name := s.takeWhile (· != 62)
  let rest := (s.dropWhile (· != 62)).tail
  if lit "[^/]+)" <+: rest then some (.group name 1 (.except slash), rest.drop 6)
  else if lit ".*)" <+: rest then some (.group name 0 .dot, rest.drop 3)
  else none

/-- Read a pattern back, with a bound on the number of its items. -/
def parseRegex : Nat → Bytes → Option (Regex CharSet Bytes)
  | _, [] => some []
  | 0, _ :: _ => none
  | n + 1, c :: s =>
    if c = 40 then
      match parseGroup (s.drop 3) with
      | some (i, rest) => (parseRegex n rest).map (i :: ·)
      | none => none
    else (parseRegex n s).map (.one (.letter c) :: ·)

/-- A matcher for the patterns built here. -/
def plainMatch : PregMatch := fun pattern subject =>
  let text := (pattern.drop 2).dropLast.dropLast
  match parseRegex text.length text with
  | some r =>
    if (Regex.names r).Nodup then some (subparts (Regex.run accepts r subject)) else none
  | none => none

theorem identifier_free {name : Bytes} (h : isIdentifier name = true) {c : UInt8}
    (hc : isAlnum c = false) (hu : c ≠ underscore) : c ∉ name := by
  cases name with
  | nil => simp
  | cons d s =>
    simp only [isIdentifier, Bool.and_eq_true, Bool.or_eq_true, beq_iff_eq, List.all_eq_true] at h
    intro hm
    rcases List.mem_cons.mp hm with rfl | hm
    · rcases h.1 with hl | hl
      · simp [isAlnum, hl] at hc
      · exact hu hl
    · rcases h.2 c hm with ha | ha
      · simp [hc] at ha
      · exact hu ha

theorem parseGroup_text {name : Bytes} {least : Nat} {set : CharSet}
    (h : Plain (.group name least set)) (rest : Bytes) :
    ∃ s, itemText (.group name least set) = 40 :: s ∧
      parseGroup ((s ++ rest).drop 3) = some (.group name least set, rest) := by
  obtain ⟨hname, h⟩ := h
  have hall : ∀ c ∈ name, (c != 62) = true :=
    bne_of_not_mem (identifier_free hname (by decide) (by decide))
  have hopen : lit "(?P<" = [40, 63, 80, 60] := by decide
  have hclose : lit ">" = [62] := by decide
  have hcut : ∀ u : Bytes, (name ++ 62 :: u).takeWhile (· != 62) = name ∧
      (name ++ 62 :: u).dropWhile (· != 62) = 62 :: u := by
    intro u
    rw [List.takeWhile_append_of_pos hall, List.dropWhile_append_of_pos hall]
    simp
  rcases h with ⟨rfl, rfl⟩ | ⟨rfl, rfl⟩
  · have htext : itemText (.group name 1 (.except slash)) =
        40 :: 63 :: 80 :: 60 :: (name ++ 62 :: lit "[^/]+)") := by
      have htail : setText (.except slash) ++ lit "+" ++ lit ")" = lit "[^/]+)" := by
        decide
      simp only [itemText, hopen, hclose, Nat.one_ne_zero, if_false, ← htail]
      simp
    refine ⟨_, htext, ?_⟩
    have hdrop : (63 :: 80 :: 60 :: (name ++ 62 :: lit "[^/]+)") ++ rest).drop 3 =
        name ++ 62 :: (lit "[^/]+)" ++ rest) := by simp
    have hlen : (lit "[^/]+)").length = 6 := by decide
    rw [hdrop, parseGroup, (hcut _).1, (hcut _).2]
    simp [← hlen]
  · have htext : itemText (.group name 0 .dot) =
        40 :: 63 :: 80 :: 60 :: (name ++ 62 :: lit ".*)") := by
      have htail : setText .dot ++ lit "*" ++ lit ")" = lit ".*)" := by
        decide
      simp only [itemText, hopen, hclose, if_true, ← htail]
      simp
    refine ⟨_, htext, ?_⟩
    have hdrop : (63 :: 80 :: 60 :: (name ++ 62 :: lit ".*)") ++ rest).drop 3 =
        name ++ 62 :: (lit ".*)" ++ rest) := by simp
    have hlen : (lit ".*)").length = 3 := by decide
    have hno : ¬ lit "[^/]+)" <+: lit ".*)" ++ rest := by
      have h₁ : lit "[^/]+)" = 91 :: (lit "[^/]+)").tail := by decide
      have h₂ : lit ".*)" = 46 :: (lit ".*)").tail := by decide
      rw [h₁, h₂, List.cons_append, List.cons_prefix_cons]
      simp
    rw [hdrop, parseGroup, (hcut _).1, (hcut _).2]
    simp [hno, ← hlen]

theorem parseRegex_text {r : Regex CharSet Bytes} (hr : ∀ i ∈ r, Plain i) {n : Nat}
    (hn : (regexText r).length ≤ n) : parseRegex n (regexText r) = some r := by
  induction r generalizing n with
  | nil => cases n <;> rfl
  | cons i r ih =>
    have hi := hr i List.mem_cons_self
    have hrest : ∀ i ∈ r, Plain i := fun j hj => hr j (List.mem_cons_of_mem _ hj)
    have hsplit : regexText (i :: r) = itemText i ++ regexText r := by simp [regexText]
    rw [hsplit] at hn ⊢
    cases i with
    | one set =>
      cases set with
      | letter c =>
        have hc : c ≠ 40 := by
          rintro rfl
          rcases hi with hi | hi <;> exact absurd hi (by decide)
        have htext : itemText (.one (.letter c)) = [c] := rfl
        rw [htext, List.cons_append, List.nil_append] at hn ⊢
        cases n with
        | zero => simp at hn
        | succ n =>
          rw [parseRegex, if_neg hc, ih hrest (by simpa using hn)]
          rfl
      | except c => exact absurd hi (by simp [Plain])
      | dot => exact absurd hi (by simp [Plain])
    | group name least set =>
      obtain ⟨s, htext, hparse⟩ := parseGroup_text hi (regexText r)
      rw [htext, List.cons_append] at hn ⊢
      cases n with
      | zero => simp at hn
      | succ n =>
        have hlen : (regexText r).length ≤ n := by
          simp only [List.length_cons, List.length_append] at hn
          omega
        rw [parseRegex, if_pos rfl, hparse]
        simp [ih hrest hlen]

theorem plainMatch_implements : Implements plainMatch := by
  have hcut : ∀ text : Bytes,
      ((lit "#^" ++ text ++ lit "#i").drop 2).dropLast.dropLast = text := by
    intro text
    have h₁ : lit "#^" = [35, 94] := by decide
    have h₂ : lit "#i" = [35, 105] := by decide
    rw [h₁, h₂]
    simp
  constructor
  · intro r hr hn subject
    rw [plainMatch]
    simp only [hcut, parseRegex_text hr (Nat.le_refl _), if_pos hn]
  · intro r hr hn subject
    rw [plainMatch]
    simp only [hcut, parseRegex_text hr (Nat.le_refl _), if_neg hn]

end Pcre

end Yaf
