import Mathlib.Algebra.Order.Ring.Unbundled.Rat
import Yaf.Base.Best
import Yaf.Php.Strstr
import Yaf.Php.Strtok
import Yaf.Route.Query

namespace Yaf
open Base

/-- The doubles the weights are compared as. What `strtod` reads may be no number. -/
structure Doubles (F : Type) where
  zero : F
  one : F
  strtod : Bytes → Option F

/-- A copy that goes on behind the end of its text. -/
structure Overread where
  text : Bytes
  length : UInt32
  deriving DecidableEq, Repr

/-- `estrndup`. -/
def estrndup (s : Bytes) (length : UInt32) : Except Overread Bytes :=
  if length.toNat ≤ s.length then .ok (s.take length.toNat) else .error ⟨s, length⟩

/-- The value of digits before and behind a dot. -/
def decimalValue (whole frac : Bytes) : ℚ := decimal whole + decimal frac / (10 ^ frac.length : ℕ)

/-- The exact value of a decimal. What follows it is not looked at. -/
def readDecimal (s : Bytes) : ℚ :=
  let whole := s.takeWhile isDigit
  match s.dropWhile isDigit with
  | 46 :: rest => decimalValue whole (rest.takeWhile isDigit)
  | _ => decimalValue whole []

/-- Doubles that would be exact. -/
def exactDoubles : Doubles ℚ := ⟨0, 1, fun s => some (readDecimal s)⟩

def skipBlanks (s : Bytes) : Bytes := s.dropWhile (· == blank)

def qualityMark : Bytes := lit "q="

section
variable {F : Type} [LinearOrder F]

/-- One turn of the loop over the elements of the header, with `max_qvlaue` and `prefer`. -/
def languageTurn (d : Doubles F) (choice : Best F Bytes) (token : Bytes) :
    Except Overread (Best F Bytes) :=
  let seg := skipBlanks token
  match strstr seg qualityMark with
  | some (before, after) =>
    match d.strtod after with
    | none => .ok choice
    | some qval =>
      if choice.top < qval then do
        let prefer ← estrndup seg (UInt32.ofNat before.length - 1)
        .ok ⟨qval, some prefer⟩
      else .ok choice
  | none =>
    if choice.top < d.one then do
      let prefer ← estrndup seg (UInt32.ofNat seg.length)
      .ok ⟨d.one, some prefer⟩
    else .ok choice

def languageLoop (d : Doubles F) (langs : Bytes) : Except Overread (Best F Bytes) :=
  (strtok comma langs).foldlM (languageTurn d) ⟨d.zero, none⟩

def acceptLanguage (server : Table Key Zval) : Option Zval :=
  requestQuery server (lit "HTTP_ACCEPT_LANGUAGE")

/-- `yaf_request_get_language`: what it returns, and what the property holds afterwards. -/
def requestGetLanguage (d : Doubles F) (server : Table Key Zval) (lang : Zval) :
    Except Overread (Option Zval × Zval) :=
  if lang.isString then .ok (some lang, lang)
  else
    match (acceptLanguage server).bind Zval.text? with
    | none => .ok (none, lang)
    | some langs => do
      let choice ← languageLoop d langs
      match choice.kept with
      | some prefer => .ok (some (.string prefer), .string prefer)
      | none => .ok (some lang, lang)

/-- The weight of an element, where it has one. -/
def elementWeight (d : Doubles F) (token : Bytes) : Option F :=
  match strstr (skipBlanks token) qualityMark with
  | some (_, after) => d.strtod after
  | none => some d.one

/-- The length `yaf_request_get_language` takes of an element. -/
def sliceLength (seg : Bytes) : UInt32 :=
  match strstr seg qualityMark with
  | some (before, _) => UInt32.ofNat before.length - 1
  | none => UInt32.ofNat seg.length

def languageSlice (token : Bytes) : Except Overread Bytes :=
  estrndup (skipBlanks token) (sliceLength (skipBlanks token))

/-- Both branches offer the element with its weight and its slice. -/
theorem languageTurn_eq (d : Doubles F) :
    languageTurn d = Best.offer (elementWeight d) languageSlice := by
  funext choice token
  have hmap : ∀ (x : Except Overread Bytes) (w : F),
      (do let prefer ← x; .ok ⟨w, some prefer⟩) = x.map fun c => (⟨w, some c⟩ : Best F Bytes) := by
    intro x w
    cases x <;> rfl
  unfold languageTurn Best.offer elementWeight languageSlice sliceLength
  cases hq : strstr (skipBlanks token) qualityMark with
  | none => simp only [hq, hmap]
  | some p =>
    simp only [hq]
    cases d.strtod p.2 with
    | none => rfl
    | some qval => simp only [hmap]

theorem languageLoop_eq (d : Doubles F) (langs : Bytes) :
    languageLoop d langs =
      (strtok comma langs).foldlM (Best.offer (elementWeight d) languageSlice) ⟨d.zero, none⟩ := by
  rw [languageLoop, languageTurn_eq]

end

/-- One less than a positive distance, in 32 bits. -/
theorem distance_toNat {n : Nat} (hn : 0 < n) :
    (UInt32.ofNat n - 1).toNat = (n - 1) % 2 ^ 32 := by
  rw [UInt32.toNat_sub, UInt32.toNat_ofNat']
  change (2 ^ 32 - 1 + n % 2 ^ 32) % 2 ^ 32 = _
  omega

theorem estrndup_ok_iff {s : Bytes} {length : UInt32} :
    (∃ c, estrndup s length = .ok c) ↔ length.toNat ≤ s.length := by
  unfold estrndup
  split
  · rename_i h
    exact iff_of_true ⟨_, rfl⟩ h
  · rename_i h
    refine iff_of_false ?_ h
    intro hc
    obtain ⟨c, hc⟩ := hc
    cases hc

/-- The length is inside the element unless the mark stands at its front. -/
theorem sliceLength_le_iff (seg : Bytes) :
    (sliceLength seg).toNat ≤ seg.length ↔
      (qualityMark <+: seg → 2 ^ 32 - 1 ≤ seg.length) := by
  unfold sliceLength
  cases hq : strstr seg qualityMark with
  | none =>
    have hle : (UInt32.ofNat seg.length).toNat ≤ seg.length := by
      rw [UInt32.toNat_ofNat']
      exact Nat.mod_le _ _
    refine iff_of_true hle ?_
    intro hpre
    exact absurd hpre.isInfix (strstr_eq_none.mp hq)
  | some p =>
    obtain ⟨before, after⟩ := p
    dsimp only
    cases before with
    | nil =>
      have hpre : qualityMark <+: seg := strstr_nil_iff.mp ⟨after, hq⟩
      simp only [hpre, forall_const]
      rfl
    | cons c before =>
      have hlen : seg.length = before.length + 1 + qualityMark.length + after.length := by
        rw [strstr_split hq]
        simp only [List.length_append, List.length_cons]
      have hle : (UInt32.ofNat (c :: before).length - 1).toNat ≤ seg.length := by
        rw [distance_toNat (by simp), List.length_cons, Nat.add_sub_cancel, hlen]
        have hmod := Nat.mod_le before.length (2 ^ 32)
        omega
      refine iff_of_true hle ?_
      intro hpre
      obtain ⟨rest, hrest⟩ := strstr_nil_iff.mpr hpre
      rw [hq] at hrest
      cases hrest

theorem languageSlice_ok_iff (token : Bytes) :
    (∃ c, languageSlice token = .ok c) ↔
      (qualityMark <+: skipBlanks token → 2 ^ 32 - 1 ≤ (skipBlanks token).length) := by
  rw [languageSlice, estrndup_ok_iff, sliceLength_le_iff]

section
variable {F : Type} [LinearOrder F]

/-- Every slice is inside the element it is taken from. -/
def SlicesInBounds (d : Doubles F) (server : Table Key Zval) (lang : Zval) : Prop :=
  ∃ r, requestGetLanguage d server lang = .ok r

theorem slicesInBounds_loop {d : Doubles F} {server : Table Key Zval} {lang : Zval}
    {langs : Bytes} (hlang : lang.isString = false)
    (hlangs : (acceptLanguage server).bind Zval.text? = some langs) :
    SlicesInBounds d server lang ↔ ∃ choice, languageLoop d langs = .ok choice := by
  unfold SlicesInBounds requestGetLanguage
  rw [hlang, hlangs]
  simp only [Bool.false_eq_true, if_false]
  cases languageLoop d langs with
  | error e => simp [error_bind]
  | ok choice =>
    rw [ok_bind]
    refine iff_of_true ?_ ⟨choice, rfl⟩
    cases choice.kept with
    | none => exact ⟨_, rfl⟩
    | some prefer => exact ⟨_, rfl⟩

/-- The slices are in bounds exactly when no element that is taken starts with the mark, short of
one as long as the length that comes out for it. -/
theorem language_slices_iff (d : Doubles F) (server : Table Key Zval) (lang : Zval) :
    SlicesInBounds d server lang ↔
      (lang.isString = false → ∀ langs, (acceptLanguage server).bind Zval.text? = some langs →
        ∀ token, Raises (elementWeight d) d.zero (strtok comma langs) token →
          qualityMark <+: skipBlanks token → 2 ^ 32 - 1 ≤ (skipBlanks token).length) := by
  cases hlang : lang.isString with
  | true =>
    have hok : requestGetLanguage d server lang = .ok (some lang, lang) := by
      rw [requestGetLanguage, if_pos hlang]
    exact iff_of_true ⟨_, hok⟩ (fun h => nomatch h)
  | false =>
    simp only [forall_const]
    cases hlangs : (acceptLanguage server).bind Zval.text? with
    | none =>
      have hok : requestGetLanguage d server lang = .ok (none, lang) := by
        rw [requestGetLanguage, hlang, hlangs]
        rfl
      exact iff_of_true ⟨_, hok⟩ (fun langs h => nomatch h)
    | some langs =>
      rw [slicesInBounds_loop hlang hlangs, languageLoop_eq, foldlM_offer_ok_iff]
      simp only [languageSlice_ok_iff, Option.some.injEq, forall_eq']

end

/-- An element that is a weight without a tag. -/
theorem slice_of_bare_weight :
    ¬SlicesInBounds exactDoubles
      [(.name (lit "HTTP_ACCEPT_LANGUAGE"), .string (lit "q=1"))] .null := by
  have hlangs : (acceptLanguage [(.name (lit "HTTP_ACCEPT_LANGUAGE"), .string (lit "q=1"))]).bind
      Zval.text? = some (lit "q=1") := by
    unfold acceptLanguage requestQuery
    simp [Table.find?]
    rfl
  have hloop : (languageLoop exactDoubles (lit "q=1")).toOption.isSome = false := by
    decide +kernel
  rw [slicesInBounds_loop rfl hlangs]
  intro hok
  obtain ⟨choice, hchoice⟩ := hok
  rw [hchoice] at hloop
  cases hloop

end Yaf
