import Yaf.Loader.Affixes

namespace Yaf
open Base

/-- Every read of the autoloader is inside the class name or a copy of it, and no length goes below
zero. The search for a local name has its own bounds. -/
def ReadsInside (g : Globals) (loader : Loader) (className : ClassArg) : Prop :=
  ∀ turns fault, loaderAutoload g loader turns className = .error fault → fault = .search

/-- What is left of a name without the affix can be read: the separator fits before the affix, or
is not behind it, and in an application there is a file name left. -/
def AffixFits (g : Globals) (class_ affix : Bytes) : Prop :=
  if g.nameSuffix = true then
    affix.length + g.nameSeparator.length ≤ class_.length ∧
      (g.directory.isSome = true → affix.length + g.nameSeparator.length = class_.length →
        strncmp class_ g.nameSeparator g.nameSeparator.length = false)
  else
    strncmp (class_.drop affix.length) g.nameSeparator g.nameSeparator.length = true →
      affix.length + g.nameSeparator.length ≤ class_.length ∧
        (g.directory.isSome = true →
          cstr (class_.drop (affix.length + g.nameSeparator.length)) ≠ [])

section
variable {g : Globals} {loader : Loader} {className : ClassArg} {name : Bytes}
  {affix : Bytes × Bytes}

theorem unslashed_ne_nil (hne : name ≠ []) : unslashed name ≠ [] := by
  rw [← List.length_pos_iff, length_unslashed]
  exact List.length_pos_iff.mpr hne

theorem applicationAutoload_named (class_ directory : Bytes) {fileName : Bytes}
    (hne : fileName ≠ []) :
    ∃ asked, applicationAutoload g class_ directory fileName = .ok asked := by
  unfold applicationAutoload
  cases g.directory with
  | none => exact ⟨_, rfl⟩
  | some appDir =>
    dsimp only
    rw [internalAutoload_eq g _ hne, ok_bind]
    exact ⟨_, rfl⟩

section
variable (hname : askedFor loader.namespaces className = name)
include hname

theorem askedFor_plainArg_of : askedFor loader.namespaces (plainArg loader.namespaces className) =
    unslashed name := by
  rw [askedFor_plainArg, hname]

theorem loaderAutoload_named (hne : name ≠ []) (turns : Nat) :
    loaderAutoload g loader turns className =
      affixedFile g (unslashed name) loaderAffixes >>=
        classAutoload g loader turns (plainArg loader.namespaces className) := by
  rw [loaderAutoload, if_neg (by rwa [hname])]
  dsimp only
  rw [askedFor_plainArg, hname]

theorem loaderAutoload_of_ok (hne : name ≠ []) {affixed : Option (Bytes × Bytes)}
    (h : affixedFile g (unslashed name) loaderAffixes = .ok affixed) (turns : Nat) :
    loaderAutoload g loader turns className =
      classAutoload g loader turns (plainArg loader.namespaces className) affixed := by
  rw [loaderAutoload_named hname hne, h, ok_bind]

theorem readsInside_error (hne : name ≠ []) {fault : LoaderFault} (hfault : fault ≠ .search)
    (h : affixedFile g (unslashed name) loaderAffixes = .error fault) :
    ¬ReadsInside g loader className := by
  intro hinside
  apply hfault
  apply hinside 0
  rw [loaderAutoload_named hname hne, h, error_bind]

/-- A name without an affix is read as a whole. -/
theorem readsInside_none (hne : name ≠ [])
    (h : affixedFile g (unslashed name) loaderAffixes = .ok none) :
    ReadsInside g loader className := by
  intro turns fault hfault
  have hclass := unslashed_ne_nil hne
  have hseen := askedFor_plainArg_of hname
  rw [loaderAutoload_of_ok hname hne h, classAutoload, hseen] at hfault
  split at hfault
  · obtain ⟨asked, hok⟩ :=
      applicationAutoload_named (g := g) (unslashed name) (lit "models") hclass
    rw [hok] at hfault
    cases hfault
  · cases hlibrary : libraryAutoload g loader turns (plainArg loader.namespaces className) with
    | ok path =>
      rw [hlibrary] at hfault
      cases hfault
    | error other =>
      rw [hlibrary] at hfault
      cases hfault
      exact libraryAutoload_error (by rwa [hseen]) hlibrary

/-- In an application the file name of a class with an affix has to have a character. -/
theorem readsInside_some (hne : name ≠ []) {directory fileName : Bytes}
    (h : affixedFile g (unslashed name) loaderAffixes = .ok (some (directory, fileName))) :
    ReadsInside g loader className ↔ (g.directory.isSome = true → fileName ≠ []) := by
  have hload : ∀ turns, loaderAutoload g loader turns className =
      applicationAutoload g (unslashed name) directory fileName := by
    intro turns
    rw [loaderAutoload_of_ok hname hne h, classAutoload, askedFor_plainArg_of hname]
  constructor
  · intro hinside hsome hnil
    obtain ⟨appDir, happ⟩ := Option.isSome_iff_exists.mp hsome
    have hfault : loaderAutoload g loader 0 className = .error .outside := by
      rw [hload, applicationAutoload, happ, hnil]
      rfl
    have hsearch := hinside 0 _ hfault
    cases hsearch
  · intro hnamed turns fault hfault
    rw [hload] at hfault
    cases happ : g.directory with
    | none =>
      rw [applicationAutoload, happ] at hfault
      cases hfault
    | some appDir =>
      obtain ⟨asked, hok⟩ := applicationAutoload_named (g := g) (unslashed name) directory
        (hnamed (by rw [happ]; rfl))
      rw [hok] at hfault
      cases hfault

/-- The affix a name has in the mode at its end. -/
theorem readsInside_last (hne : name ≠ []) (hmode : g.nameSuffix = true)
    (hin : affix ∈ loaderAffixes) (hcandidate : Candidate g (unslashed name) affix.1) :
    ReadsInside g loader className ↔ AffixFits g (unslashed name) affix.1 := by
  rw [AffixFits, if_pos hmode]
  by_cases hle : affix.1.length + g.nameSeparator.length ≤ (unslashed name).length
  · have hfile := affixedFile_last hin hcandidate hmode hle
    simp only [hle, true_and]
    split at hfile
    · rename_i hfound
      rw [readsInside_some hname hne hfile]
      have hnamed : (unslashed name).take
          ((unslashed name).length - g.nameSeparator.length - affix.1.length) ≠ [] ↔
          affix.1.length + g.nameSeparator.length ≠ (unslashed name).length := by
        rw [← List.length_pos_iff, List.length_take]
        omega
      rw [hnamed]
      refine imp_congr_right fun _ => ?_
      constructor
      · intro hlen heq
        exact absurd heq hlen
      · intro hmissed heq
        have hfront :
          (unslashed name).length - affix.1.length - g.nameSeparator.length = 0 := by
          omega
        rw [hfront, List.drop_zero, hmissed heq] at hfound
        cases hfound
    · rename_i hmissed
      refine iff_of_true (readsInside_none hname hne hfile) ?_
      intro _ heq
      have hfront : (unslashed name).length - affix.1.length - g.nameSeparator.length = 0 := by
        omega
      rw [hfront, List.drop_zero] at hmissed
      exact Bool.eq_false_iff.mpr hmissed
  · have hshort := affixedFile_last_short hin hcandidate hmode (by omega)
    exact iff_of_false (readsInside_error hname hne (by decide) hshort) fun h => hle h.1

theorem readsInside_first (hne : name ≠ []) (hmode : g.nameSuffix = false)
    (hin : affix ∈ loaderAffixes) (hcandidate : Candidate g (unslashed name) affix.1) :
    ReadsInside g loader className ↔ AffixFits g (unslashed name) affix.1 := by
  rw [AffixFits, if_neg (by simp [hmode])]
  cases hfound : strncmp ((unslashed name).drop affix.1.length) g.nameSeparator
      g.nameSeparator.length with
  | false =>
    refine iff_of_true (readsInside_none hname hne ?_) fun h => nomatch h
    exact affixedFile_first_missed hin hcandidate hmode hfound
  | true =>
    have hfile := affixedFile_first_found hin hcandidate hmode hfound
    simp only [forall_const]
    by_cases hle : affix.1.length + g.nameSeparator.length ≤ (unslashed name).length
    · rw [affixFileName_first hmode hle] at hfile
      rw [readsInside_some hname hne hfile]
      simp only [hle, true_and]
    · rw [affixFileName_short (by omega)] at hfile
      exact iff_of_false (readsInside_error hname hne (by decide) hfile) fun h => hle h.1

end

end

/-- The autoloader reads inside the class name exactly when there is one, and an affix it has fits
the separator and leaves a file name. -/
theorem autoload_reads_inside_iff (g : Globals) (loader : Loader) (className : ClassArg) :
    ReadsInside g loader className ↔
      askedFor loader.namespaces className ≠ [] ∧ ∀ affix ∈ loaderAffixes,
        Candidate g (unslashed (askedFor loader.namespaces className)) affix.1 →
          AffixFits g (unslashed (askedFor loader.namespaces className)) affix.1 := by
  generalize hname : askedFor loader.namespaces className = name
  by_cases hne : name = []
  · refine iff_of_false ?_ fun h => h.1 hne
    intro hinside
    have hfault : loaderAutoload g loader 0 className = .error .noName := by
      rw [loaderAutoload, if_pos (by rw [hname, hne])]
    have hsearch := hinside 0 _ hfault
    cases hsearch
  · simp only [hne, ne_eq, not_false_eq_true, true_and]
    by_cases hsome : ∃ affix ∈ loaderAffixes, Candidate g (unslashed name) affix.1
    · obtain ⟨affix, hin, hcandidate⟩ := hsome
      have hone : ReadsInside g loader className ↔ AffixFits g (unslashed name) affix.1 := by
        cases hmode : g.nameSuffix with
        | true => exact readsInside_last hname hne hmode hin hcandidate
        | false => exact readsInside_first hname hne hmode hin hcandidate
      rw [hone]
      constructor
      · intro hfits other ho hcandidate'
        rwa [candidate_unique hin ho hcandidate hcandidate']
      · intro hfits
        exact hfits affix hin hcandidate
    · have hno : ∀ affix ∈ loaderAffixes, ¬Candidate g (unslashed name) affix.1 := by
        intro affix hin hcandidate
        exact hsome ⟨affix, hin, hcandidate⟩
      refine iff_of_true (readsInside_none hname hne (affixedFile_none loaderAffixes_nul hno)) ?_
      intro affix hin hcandidate
      exact absurd hcandidate (hno affix hin)

/-- A class with the name of an affix, where affixes come first. -/
theorem affix_without_name :
    ¬ReadsInside (defaultGlobals false []) plainLoader (.own (lit "Model")) := by
  have hfault : loaderAutoload (defaultGlobals false []) plainLoader 0 (.own (lit "Model")) =
      .error .outside := by
    decide
  intro hinside
  have hsearch := hinside 0 _ hfault
  cases hsearch

end Yaf
