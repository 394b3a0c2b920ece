import Yaf.Loader.Autoload

namespace Yaf
open Base

/-- The name ends with the affix and is longer, or starts with it. -/
def Candidate (g : Globals) (class_ category : Bytes) : Prop :=
  if g.nameSuffix = true then category <:+ class_ ∧ category.length < class_.length
  else category <+: class_

section
variable {g : Globals} {class_ category : Bytes}

theorem strncmp_suffix (hnul : NUL ∉ category) (hle : category.length ≤ class_.length) :
    strncmp (class_.drop (class_.length - category.length)) category category.length = true ↔
      category <:+ class_ := by
  rw [strncmp_iff_front hnul, List.suffix_iff_eq_drop]
  constructor
  · intro hpre
    apply hpre.eq_of_length
    rw [List.length_drop]
    omega
  · intro heq
    exact heq ▸ List.prefix_rfl

theorem isCategory_miss (hnul : NUL ∉ category) (h : ¬Candidate g class_ category) :
    loaderIsCategory g class_ category = .ok false := by
  unfold Candidate at h
  unfold loaderIsCategory
  cases hmode : g.nameSuffix with
  | false =>
    rw [hmode] at h
    have hno : ¬strncmp class_ category category.length = true :=
      fun hc => h ((strncmp_iff_front hnul).mp hc)
    simp [hno]
  | true =>
    rw [hmode] at h
    have hno : ¬(category.length < class_.length ∧
        strncmp (class_.drop (class_.length - category.length)) category category.length = true) :=
      fun hc => h ⟨(strncmp_suffix hnul (Nat.le_of_lt hc.1)).mp hc.2, hc.1⟩
    simp only [if_true]
    rw [if_neg hno]

section
variable (hmode : g.nameSuffix = true) (hnul : NUL ∉ category)
  (hcandidate : Candidate g class_ category)
include hmode hnul hcandidate

/-- The separator is compared in front of the affix. -/
theorem isCategory_last (hle : category.length + g.nameSeparator.length ≤ class_.length) :
    loaderIsCategory g class_ category =
      .ok (strncmp (class_.drop (class_.length - category.length - g.nameSeparator.length))
        g.nameSeparator g.nameSeparator.length) := by
  rw [Candidate, if_pos hmode] at hcandidate
  have hfound := And.intro hcandidate.2
    ((strncmp_suffix hnul (Nat.le_of_lt hcandidate.2)).mpr hcandidate.1)
  unfold loaderIsCategory
  dsimp only
  rw [if_pos hmode, if_pos hfound]
  by_cases hsep : g.nameSeparator = []
  · rw [if_pos hsep, hsep]
    rfl
  · have hpos : ((class_.length : Int) - category.length - g.nameSeparator.length).toNat =
        class_.length - category.length - g.nameSeparator.length := by omega
    rw [if_neg hsep, strncmpAt, if_neg (by omega), hpos]

/-- There it is looked for before the start of a short name. -/
theorem isCategory_last_short
    (hlt : class_.length < category.length + g.nameSeparator.length) :
    loaderIsCategory g class_ category = .error .outside := by
  rw [Candidate, if_pos hmode] at hcandidate
  have hfound := And.intro hcandidate.2
    ((strncmp_suffix hnul (Nat.le_of_lt hcandidate.2)).mpr hcandidate.1)
  have hsep : g.nameSeparator ≠ [] := by
    intro hnil
    rw [hnil, List.length_nil] at hlt
    omega
  unfold loaderIsCategory
  dsimp only
  rw [if_pos hmode, if_pos hfound, if_neg hsep, strncmpAt, if_pos (by omega)]

end

/-- The separator is compared behind the affix. -/
theorem isCategory_first (hmode : g.nameSuffix = false) (hnul : NUL ∉ category)
    (hcandidate : Candidate g class_ category) :
    loaderIsCategory g class_ category =
      .ok (strncmp (class_.drop category.length) g.nameSeparator g.nameSeparator.length) := by
  rw [Candidate, if_neg (by simp [hmode])] at hcandidate
  have hle := hcandidate.length_le
  unfold loaderIsCategory
  simp only [hmode, Bool.false_eq_true, if_false, (strncmp_iff_front hnul).mpr hcandidate, if_true]
  by_cases hsep : g.nameSeparator = []
  · rw [if_pos hsep, hsep]
    rfl
  · rw [if_neg hsep, strncmpAt, if_neg (by omega), Int.toNat_natCast]

theorem affixFileName_last (hmode : g.nameSuffix = true)
    (hle : category.length + g.nameSeparator.length ≤ class_.length) :
    affixFileName g class_ category =
      .ok (class_.take (class_.length - g.nameSeparator.length - category.length)) := by
  have hlen : ((class_.length : Int) - g.nameSeparator.length - category.length).toNat =
      class_.length - g.nameSeparator.length - category.length := by omega
  unfold affixFileName
  dsimp only
  rw [if_neg (by omega), if_pos hmode, hlen]

theorem affixFileName_first (hmode : g.nameSuffix = false)
    (hle : category.length + g.nameSeparator.length ≤ class_.length) :
    affixFileName g class_ category =
      .ok (cstr (class_.drop (category.length + g.nameSeparator.length))) := by
  unfold affixFileName
  dsimp only
  rw [if_neg (by omega), hmode, estrdup_eq hle]
  rfl

theorem affixFileName_short (hlt : class_.length < category.length + g.nameSeparator.length) :
    affixFileName g class_ category = .error .underflow := by
  unfold affixFileName
  dsimp only
  rw [if_pos (by omega)]

end

theorem loaderAffixes_nul : ∀ affix ∈ loaderAffixes, NUL ∉ affix.1 := by decide

section
variable {g : Globals} {class_ : Bytes} {affix : Bytes × Bytes} {affixes : List (Bytes × Bytes)}

theorem affixedFile_miss (h : loaderIsCategory g class_ affix.1 = .ok false) :
    affixedFile g class_ (affix :: affixes) = affixedFile g class_ affixes := by
  rw [affixedFile, h]
  rfl

theorem affixedFile_hit (h : loaderIsCategory g class_ affix.1 = .ok true) :
    affixedFile g class_ (affix :: affixes) =
      (affixFileName g class_ affix.1).map fun fileName => some (affix.2, fileName) := by
  rw [affixedFile, h]
  cases affixFileName g class_ affix.1 <;> rfl

theorem affixedFile_error {fault : LoaderFault}
    (h : loaderIsCategory g class_ affix.1 = .error fault) :
    affixedFile g class_ (affix :: affixes) = .error fault := by
  rw [affixedFile, h]
  rfl

theorem affixedFile_none (hnul : ∀ affix ∈ affixes, NUL ∉ affix.1)
    (h : ∀ affix ∈ affixes, ¬Candidate g class_ affix.1) :
    affixedFile g class_ affixes = .ok none := by
  induction affixes with
  | nil => rfl
  | cons affix affixes ih =>
    rw [affixedFile_miss (isCategory_miss (hnul affix List.mem_cons_self)
      (h affix List.mem_cons_self))]
    exact ih (fun other hin => hnul other (List.mem_cons_of_mem _ hin))
      fun other hin => h other (List.mem_cons_of_mem _ hin)

theorem loaderAffixes_apart : ∀ affix ∈ loaderAffixes, ∀ other ∈ loaderAffixes,
    affix.1 <:+ other.1 ∨ affix.1 <+: other.1 → affix = other := by decide

/-- No name has two of the affixes. -/
theorem candidate_unique {other : Bytes × Bytes} (haffix : affix ∈ loaderAffixes)
    (hother : other ∈ loaderAffixes) (h : Candidate g class_ affix.1)
    (ho : Candidate g class_ other.1) : other = affix := by
  unfold Candidate at h ho
  split at h
  · rw [if_pos ‹_›] at ho
    rcases List.suffix_or_suffix_of_suffix h.1 ho.1 with hin | hin
    · exact (loaderAffixes_apart _ haffix _ hother (Or.inl hin)).symm
    · exact loaderAffixes_apart _ hother _ haffix (Or.inl hin)
  · rw [if_neg ‹_›] at ho
    rcases List.prefix_or_prefix_of_prefix h ho with hin | hin
    · exact (loaderAffixes_apart _ haffix _ hother (Or.inr hin)).symm
    · exact loaderAffixes_apart _ hother _ haffix (Or.inr hin)

theorem affixedFile_others (hnul : ∀ affix ∈ affixes, NUL ∉ affix.1) (hnodup : affixes.Nodup)
    (hin : affix ∈ affixes) (h : ∀ other ∈ affixes, other ≠ affix → ¬Candidate g class_ other.1) :
    affixedFile g class_ affixes = affixedFile g class_ [affix] := by
  induction affixes with
  | nil => cases hin
  | cons first affixes ih =>
    obtain ⟨hfirst, hrest⟩ := List.nodup_cons.mp hnodup
    have hnuls : ∀ other ∈ affixes, NUL ∉ other.1 :=
      fun other ho => hnul other (List.mem_cons_of_mem _ ho)
    have hothers : ∀ other ∈ affixes, other ≠ affix → ¬Candidate g class_ other.1 :=
      fun other ho => h other (List.mem_cons_of_mem _ ho)
    rcases List.mem_cons.mp hin with rfl | hin
    · have hnone : affixedFile g class_ affixes = .ok none := by
        apply affixedFile_none hnuls
        intro other ho
        apply hothers other ho
        intro he
        exact hfirst (he ▸ ho)
      cases hfound : loaderIsCategory g class_ affix.1 with
      | error fault => rw [affixedFile_error hfound, affixedFile_error hfound]
      | ok found =>
        cases found with
        | true => rw [affixedFile_hit hfound, affixedFile_hit hfound]
        | false => rw [affixedFile_miss hfound, affixedFile_miss hfound, hnone, affixedFile]
    · have hne : first ≠ affix := by
        intro he
        exact hfirst (he ▸ hin)
      have hmiss := isCategory_miss (hnul first List.mem_cons_self) (h first List.mem_cons_self hne)
      rw [affixedFile_miss hmiss]
      exact ih hnuls hrest hin hothers

/-- The one affix a name may have decides. -/
theorem affixedFile_candidate (hin : affix ∈ loaderAffixes) (h : Candidate g class_ affix.1) :
    affixedFile g class_ loaderAffixes = affixedFile g class_ [affix] := by
  apply affixedFile_others loaderAffixes_nul (by decide) hin
  intro other ho hne hcandidate
  exact hne (candidate_unique hin ho h hcandidate)

section
variable (hin : affix ∈ loaderAffixes) (hcandidate : Candidate g class_ affix.1)
include hin hcandidate

theorem affixedFile_last (hmode : g.nameSuffix = true)
    (hle : affix.1.length + g.nameSeparator.length ≤ class_.length) :
    affixedFile g class_ loaderAffixes =
      .ok (if strncmp (class_.drop (class_.length - affix.1.length - g.nameSeparator.length))
          g.nameSeparator g.nameSeparator.length then
        some (affix.2, class_.take (class_.length - g.nameSeparator.length - affix.1.length))
      else none) := by
  have htest := isCategory_last hmode (loaderAffixes_nul affix hin) hcandidate hle
  rw [affixedFile_candidate hin hcandidate]
  split
  · rename_i hfound
    rw [hfound] at htest
    rw [affixedFile_hit htest, affixFileName_last hmode hle]
    rfl
  · rename_i hmissed
    rw [Bool.eq_false_iff.mpr hmissed] at htest
    rw [affixedFile_miss htest]
    rfl

theorem affixedFile_last_short (hmode : g.nameSuffix = true)
    (hlt : class_.length < affix.1.length + g.nameSeparator.length) :
    affixedFile g class_ loaderAffixes = .error .outside := by
  rw [affixedFile_candidate hin hcandidate]
  exact affixedFile_error
    (isCategory_last_short hmode (loaderAffixes_nul affix hin) hcandidate hlt)

theorem affixedFile_first_missed (hmode : g.nameSuffix = false)
    (h : strncmp (class_.drop affix.1.length) g.nameSeparator g.nameSeparator.length = false) :
    affixedFile g class_ loaderAffixes = .ok none := by
  have htest := isCategory_first hmode (loaderAffixes_nul affix hin) hcandidate
  rw [h] at htest
  rw [affixedFile_candidate hin hcandidate, affixedFile_miss htest]
  rfl

theorem affixedFile_first_found (hmode : g.nameSuffix = false)
    (h : strncmp (class_.drop affix.1.length) g.nameSeparator g.nameSeparator.length = true) :
    affixedFile g class_ loaderAffixes =
      (affixFileName g class_ affix.1).map fun fileName => some (affix.2, fileName) := by
  have htest := isCategory_first hmode (loaderAffixes_nul affix hin) hcandidate
  rw [h] at htest
  rw [affixedFile_candidate hin hcandidate, affixedFile_hit htest]

end

end

end Yaf
