import Yaf.Dispatcher.Handle
import Yaf.Loader.ClassScript

namespace Yaf
open Base

def controllerAffix : Bytes × Bytes := (lit "Controller", lit "controllers")

/-- Whatever the libraries are, the autoloader asks for the script the dispatcher asks for when the
class the dispatcher looks for is named. -/
def FromOneFile (g : Globals) (appDir module controller : Bytes) : Prop :=
  ∀ loader turns, ∃ reserved,
    loaderAutoload g loader turns (.own (affixedClass g controller (lit "Controller"))) =
      .ok ⟨reserved, some (autoloadPath g.lowcasePath g.ext
        (controllersDirectory appDir module true) controller)⟩

/-- The path the dispatcher asks for, when the class is not there yet. -/
theorem getController_asks {γ : Type} (call : Calls γ) (entry : HandleEntry)
    {appDir module controller path : Bytes} {w : World γ}
    (hnew : Table.find? w.php.classTable
      ((affixedClass w.php.globals controller (lit "Controller")).map toLower) = none)
    (hpath : path = autoloadPath w.php.globals.lowcasePath w.php.globals.ext
      (controllersDirectory appDir module true) controller) :
    ∃ rest : Bool → Exec γ (Option ClassEntry),
      getController call entry appDir module controller true w =
        (loaderImport call path >>= rest)
          (w.record (.openScript entry (controllersDirectory appDir module true) path)) := by
  have hget : (getPhp : Exec γ (Php γ)) w = (.ok w.php, w) := rfl
  unfold getController
  rw [Run.bind_of_ok hget, hpath]
  dsimp only
  rw [hnew]
  exact ⟨_, rfl⟩

theorem controllerAffix_mem : controllerAffix ∈ loaderAffixes := by
  simp [loaderAffixes, controllerAffix]

section
variable {g : Globals} {appDir module controller x sep : Bytes}

/-- A name is read as a C string, when its first character is one of it. -/
theorem autoloadPath_cstr (lowcasePath : Bool) (ext directory : Bytes)
    (hne : cstr controller ≠ []) :
    autoloadPath lowcasePath ext directory (cstr controller) =
      autoloadPath lowcasePath ext directory controller := by
  cases controller with
  | nil => rfl
  | cons c s =>
    have hc : c ≠ NUL := by
      rintro rfl
      exact hne rfl
    have hcut : cstr (c :: s) = c :: cstr s := by simp [cstr, hc]
    have hpieces : autoloadPieces (c :: cstr s) = autoloadPieces (c :: s) := by
      rw [autoloadPieces, autoloadPieces, cstr_of_no_nul (nul_not_mem_cstr s)]
    rw [hcut, autoloadPath, autoloadPath, hpieces]

/-- A separator that compares equal in a long enough C string is in it as a whole. -/
theorem strncmp_whole (hx : NUL ∉ x) (hlen : sep.length ≤ x.length)
    (h : strncmp x sep sep.length = true) : NUL ∉ sep ∧ sep <+: x := by
  have hcut : cstr sep <+: sep := List.takeWhile_prefix _
  rw [strncmp, beq_iff_eq, cstr_of_no_nul hx, List.take_of_length_le hcut.length_le] at h
  have hsame : (cstr sep).length = sep.length := by
    rw [← h, List.length_take, Nat.min_eq_left hlen]
  have hsep : cstr sep = sep := hcut.eq_of_length hsame
  refine ⟨hsep ▸ nul_not_mem_cstr sep, ?_⟩
  rw [← hsep, ← h]
  exact List.take_prefix _ _

/-- Read as paths, a name with a backslash and the name with an underscore there differ. -/
theorem asPath_backslash {name : Bytes} (hname : NUL ∉ name)
    (h : SameCi (asPath (plainName name)) (asPath name)) : backslash ∉ name := by
  have hpath : ∀ s, NUL ∉ s → (backslash ∈ asPath s ↔ backslash ∈ s) := by
    intro s hs
    cases s with
    | nil => rfl
    | cons c s =>
      obtain ⟨hc, hs⟩ := not_or.mp (List.mem_cons.not.mp hs)
      have hmap : backslash ∈ (s.map fun d => if d = underscore then slash else d) ↔
          backslash ∈ s := by
        rw [List.mem_map]
        constructor
        · intro hm
          obtain ⟨d, hd, he⟩ := hm
          split at he
          · exact absurd he (by decide)
          · exact he ▸ hd
        · intro hm
          exact ⟨backslash, hm, by decide⟩
      rw [asPath, if_neg fun h => hc h.1.symm, cstr_of_no_nul hs, List.mem_cons, List.mem_cons,
        hmap]
  have hlower : ∀ s : Bytes, backslash ∈ s.map toLower ↔ backslash ∈ s := by
    intro s
    have hfixed : ∀ c, toLower c = backslash ↔ c = backslash := toLower_eq_iff (by decide)
    simp [List.mem_map, hfixed]
  intro hm
  apply backslash_not_mem_plainName name
  rw [← hpath _ (nul_not_mem_plainName hname), ← hlower, show _ = _ from h, hlower, hpath _ hname]
  exact hm

theorem plainName_append (s t : Bytes) : plainName (s ++ t) = plainName s ++ plainName t :=
  List.map_append

theorem length_plainName (s : Bytes) : (plainName s).length = s.length := List.length_map _

/-- A separator that is there after the rewriting has no backslash. -/
theorem plain_of_prefix {t : Bytes} (h : sep <+: plainName sep ++ t) : backslash ∉ sep := by
  apply plainName_eq_self_iff.mp
  have hsame :=
    List.prefix_of_prefix_length_le h (List.prefix_append _ _) (by rw [length_plainName])
  exact (hsame.eq_of_length (length_plainName sep).symm).symm

theorem controller_bytes :
    lit "Controller" = [67, 111, 110, 116, 114, 111, 108, 108, 101, 114] := by
  decide

theorem plainName_controller : plainName (lit "Controller") = lit "Controller" := by
  rw [controller_bytes]
  rfl

theorem nul_not_mem_affixedClass (controller : Bytes) :
    NUL ∉ affixedClass g controller (lit "Controller") := by
  have haffix : NUL ∉ lit "Controller" := by
    rw [controller_bytes]
    decide
  unfold affixedClass
  split <;> simp [nul_not_mem_cstr, haffix]

theorem nul_not_mem_seenClass (controller : Bytes) :
    NUL ∉ unslashed (affixedClass g controller (lit "Controller")) := by
  have hnul := nul_not_mem_affixedClass (g := g) controller
  rw [unslashed_of_no_nul hnul]
  exact nul_not_mem_plainName hnul

theorem affixedClass_ne_nil (controller : Bytes) :
    affixedClass g controller (lit "Controller") ≠ [] := by
  have haffix : lit "Controller" ≠ [] := by
    rw [controller_bytes]
    exact List.cons_ne_nil _ _
  unfold affixedClass
  split <;> simp [haffix]

/-- The class the autoloader sees, where affixes come last. -/
theorem unslashed_affixedClass_last (controller : Bytes) (hmode : g.nameSuffix = true) :
    unslashed (affixedClass g controller (lit "Controller")) =
      plainName (cstr controller) ++ plainName (cstr g.nameSeparator) ++ controllerAffix.1 := by
  rw [unslashed_of_no_nul (nul_not_mem_affixedClass controller), affixedClass, if_pos hmode,
    plainName_append, plainName_append, plainName_controller]
  rfl

theorem unslashed_affixedClass_first (controller : Bytes) (hmode : g.nameSuffix = false) :
    unslashed (affixedClass g controller (lit "Controller")) =
      controllerAffix.1 ++ plainName (cstr g.nameSeparator) ++ plainName (cstr controller) := by
  rw [unslashed_of_no_nul (nul_not_mem_affixedClass controller), affixedClass,
    if_neg (by simp [hmode]), plainName_append, plainName_append, plainName_controller]
  rfl

/-- Where the autoloader finds an affix in front of a separator, it gets the name back, underscores
apart. -/
theorem affixedFile_controller_last (hmode : g.nameSuffix = true) {directory file : Bytes}
    (h : affixedFile g (unslashed (affixedClass g controller (lit "Controller"))) loaderAffixes =
      .ok (some (directory, file))) :
    NUL ∉ g.nameSeparator ∧ backslash ∉ g.nameSeparator ∧ directory = controllerAffix.2 ∧
      file = plainName (cstr controller) := by
  have hnul := nul_not_mem_seenClass (g := g) controller
  have hshape := unslashed_affixedClass_last controller hmode
  generalize unslashed (affixedClass g controller (lit "Controller")) = class_ at h hnul hshape
  have haffixed : controllerAffix.1 <:+ class_ := ⟨_, hshape.symm⟩
  by_cases hlonger : controllerAffix.1.length < class_.length
  · have hcandidate : Candidate g class_ controllerAffix.1 := by
      rw [Candidate, if_pos hmode]
      exact ⟨haffixed, hlonger⟩
    by_cases hle : controllerAffix.1.length + g.nameSeparator.length ≤ class_.length
    · rw [affixedFile_last controllerAffix_mem hcandidate hmode hle] at h
      split at h
      · rename_i hfound
        simp only [Except.ok.injEq, Option.some.injEq, Prod.mk.injEq] at h
        obtain ⟨rfl, rfl⟩ := h
        obtain ⟨hsep, hpre⟩ := strncmp_whole (fun hm => hnul (List.mem_of_mem_drop hm))
          (by rw [List.length_drop]; omega) hfound
        rw [cstr_of_no_nul hsep] at hshape
        have hlen : class_.length =
            (cstr controller).length + g.nameSeparator.length + controllerAffix.1.length := by
          rw [hshape]
          simp only [List.length_append, length_plainName]
        have hfront : class_.length - controllerAffix.1.length - g.nameSeparator.length =
            (plainName (cstr controller)).length := by
          rw [length_plainName]
          omega
        refine ⟨hsep, ?_, rfl, ?_⟩
        · rw [hfront, hshape, List.append_assoc, List.drop_left] at hpre
          exact plain_of_prefix hpre
        · rw [Nat.sub_right_comm, hfront, hshape, List.append_assoc, List.take_left]
      · cases h
    · rw [affixedFile_last_short controllerAffix_mem hcandidate hmode (by omega)] at h
      cases h
  · have hnone : ∀ affix ∈ loaderAffixes, ¬Candidate g class_ affix.1 := by
      intro affix hin hcandidate
      rw [Candidate, if_pos hmode] at hcandidate
      have hsame : affix = controllerAffix := by
        rcases List.suffix_or_suffix_of_suffix hcandidate.1 haffixed with hsuffix | hsuffix
        · exact loaderAffixes_apart _ hin _ controllerAffix_mem (Or.inl hsuffix)
        · exact (loaderAffixes_apart _ controllerAffix_mem _ hin (Or.inl hsuffix)).symm
      exact hlonger (hsame ▸ hcandidate.2)
    rw [affixedFile_none loaderAffixes_nul hnone] at h
    cases h

theorem affixedFile_controller_first (hmode : g.nameSuffix = false) {directory file : Bytes}
    (h : affixedFile g (unslashed (affixedClass g controller (lit "Controller"))) loaderAffixes =
      .ok (some (directory, file))) :
    NUL ∉ g.nameSeparator ∧ backslash ∉ g.nameSeparator ∧ directory = controllerAffix.2 ∧
      file = plainName (cstr controller) := by
  have hnul := nul_not_mem_seenClass (g := g) controller
  have hshape := unslashed_affixedClass_first controller hmode
  generalize unslashed (affixedClass g controller (lit "Controller")) = class_ at h hnul hshape
  have hcandidate : Candidate g class_ controllerAffix.1 := by
    rw [Candidate, if_neg (by simp [hmode]), hshape, List.append_assoc]
    exact List.prefix_append _ _
  cases hfound : strncmp (class_.drop controllerAffix.1.length) g.nameSeparator
      g.nameSeparator.length with
  | false =>
    rw [affixedFile_first_missed controllerAffix_mem hcandidate hmode hfound] at h
    cases h
  | true =>
    rw [affixedFile_first_found controllerAffix_mem hcandidate hmode hfound] at h
    by_cases hle : controllerAffix.1.length + g.nameSeparator.length ≤ class_.length
    · rw [affixFileName_first hmode hle] at h
      simp only [Except.map, Except.ok.injEq, Option.some.injEq, Prod.mk.injEq] at h
      obtain ⟨rfl, rfl⟩ := h
      obtain ⟨hsep, hpre⟩ := strncmp_whole (fun hm => hnul (List.mem_of_mem_drop hm))
        (by rw [List.length_drop]; omega) hfound
      rw [cstr_of_no_nul hsep] at hshape
      have hfront : controllerAffix.1.length + g.nameSeparator.length =
          (controllerAffix.1 ++ plainName g.nameSeparator).length := by
        rw [List.length_append, length_plainName]
      refine ⟨hsep, ?_, rfl, ?_⟩
      · rw [hshape, List.append_assoc, List.drop_left] at hpre
        exact plain_of_prefix hpre
      · rw [hfront, hshape, List.drop_left,
          cstr_of_no_nul (nul_not_mem_plainName (nul_not_mem_cstr controller))]
    · rw [affixFileName_short (by omega)] at h
      cases h

/-- A directory for models is no directory for controllers. -/
theorem models_ne_controllers (s t : Bytes) :
    cstr appDir ++ slash :: lit "models" ++ s ≠ controllersDirectory appDir module true ++ t := by
  have hmodels : lit "models" = 109 :: lit "odels" := by decide
  have hcontrollers : lit "controllers" = 99 :: lit "ontrollers" := by decide
  intro h
  rw [controllersDirectory, if_pos rfl, hmodels, hcontrollers] at h
  simp at h

/-- A class that stands for a model is not asked for among the controllers. -/
theorem compatible_not_controller {class_ : Bytes} (hdir : g.directory = some appDir)
    (hseen : class_ ≠ []) (hcompatible : isCompatibleModel g class_ = true)
    (loader : Loader) (turns : Nat) (reserved : Bool) :
    classAutoload g loader turns (.own class_) none ≠
      .ok ⟨reserved, some (autoloadPath g.lowcasePath g.ext
        (controllersDirectory appDir module true) controller)⟩ := by
  intro hpath
  rw [classAutoload, askedFor_own, if_pos hcompatible, applicationAutoload, hdir] at hpath
  dsimp only at hpath
  rw [internalAutoload_eq g _ hseen, ok_bind] at hpath
  simp only [Except.ok.injEq, Autoload.mk.injEq, Option.some.injEq] at hpath
  have hsame := hpath.2
  rw [autoloadPath_directory, autoloadPath_directory _ _ (controllersDirectory _ _ _)] at hsame
  exact models_ne_controllers _ _ hsame

/-- A class of a library is asked for in the library, whichever it is. -/
theorem library_not_fixed {class_ : Bytes} (hseen : class_ ≠ [])
    (hcompatible : isCompatibleModel g class_ = false) (path : Bytes) :
    ¬∀ loader, ∃ reserved,
      classAutoload g loader 0 (.own class_) none = .ok ⟨reserved, some path⟩ := by
  intro hload
  have hlibrary : ∀ library : Bytes,
      library ++ autoloadPath g.lowcasePath g.ext [] class_ = path := by
    intro library
    obtain ⟨reserved, hpath⟩ := hload ⟨library, library, none⟩
    rw [classAutoload, askedFor_own, if_neg (by simp [hcompatible]), libraryAutoload] at hpath
    simp only [isLocalNamespace, ClassArg.text, internalAutoload_eq g library hseen, ok_bind,
      Except.ok.injEq, Autoload.mk.injEq, Option.some.injEq] at hpath
    rw [← autoloadPath_directory]
    exact hpath.2
  have hlen := congrArg List.length ((hlibrary [NUL]).trans (hlibrary []).symm)
  simp at hlen

/-- The script is asked for among the classes with an affix. -/
theorem fromOneFile_affixed (hdir : g.directory = some appDir)
    (h : FromOneFile g appDir module controller) :
    ∃ directory file,
      affixedFile g (unslashed (affixedClass g controller (lit "Controller"))) loaderAffixes =
        .ok (some (directory, file)) ∧ file ≠ [] ∧
      autoloadPath g.lowcasePath g.ext (cstr appDir ++ slash :: directory) file =
        autoloadPath g.lowcasePath g.ext (controllersDirectory appDir module true) controller := by
  have hclass := affixedClass_ne_nil (g := g) controller
  have hseen := unslashed_ne_nil hclass
  cases haffixed : affixedFile g
      (unslashed (affixedClass g controller (lit "Controller"))) loaderAffixes with
  | error fault =>
    obtain ⟨reserved, hload⟩ := h plainLoader 0
    rw [loaderAutoload_named (askedFor_own _ _) hclass, haffixed, error_bind] at hload
    cases hload
  | ok found =>
    have hload : ∀ loader, ∃ reserved, classAutoload g loader 0
        (.own (unslashed (affixedClass g controller (lit "Controller")))) found =
        .ok ⟨reserved, some (autoloadPath g.lowcasePath g.ext
          (controllersDirectory appDir module true) controller)⟩ := by
      intro loader
      obtain ⟨reserved, hload⟩ := h loader 0
      refine ⟨reserved, ?_⟩
      rw [← plainArg_own loader.namespaces]
      exact (loaderAutoload_of_ok (askedFor_own _ _) hclass haffixed 0).symm.trans hload
    obtain ⟨reserved, hpath⟩ := hload plainLoader
    cases found with
    | none =>
      cases hcompatible : isCompatibleModel g
          (unslashed (affixedClass g controller (lit "Controller"))) with
      | true => exact absurd hpath (compatible_not_controller hdir hseen hcompatible _ _ _)
      | false => exact absurd hload (library_not_fixed hseen hcompatible _)
    | some place =>
      obtain ⟨directory, file⟩ := place
      rw [classAutoload, askedFor_own, applicationAutoload, hdir] at hpath
      dsimp only at hpath
      by_cases hfile : file = []
      · rw [hfile, internalAutoload_nil, error_bind] at hpath
        cases hpath
      · rw [internalAutoload_eq g _ hfile, ok_bind] at hpath
        simp only [Except.ok.injEq, Autoload.mk.injEq, Option.some.injEq] at hpath
        exact ⟨directory, file, rfl, hfile, hpath.2⟩

/-- The affix tests give a plain name back. -/
theorem affixedFile_controller (hname : cstr controller ≠ []) (hplain : backslash ∉ cstr controller)
    (hsep : NUL ∉ g.nameSeparator) (hsepPlain : backslash ∉ g.nameSeparator) :
    affixedFile g (unslashed (affixedClass g controller (lit "Controller"))) loaderAffixes =
      .ok (some (controllerAffix.2, cstr controller)) := by
  have hnul := nul_not_mem_seenClass (g := g) controller
  have hnames := And.intro (plainName_eq_self_iff.mpr hplain) (plainName_eq_self_iff.mpr hsepPlain)
  have haffix := loaderAffixes_nul controllerAffix controllerAffix_mem
  cases hmode : g.nameSuffix with
  | true =>
    have hshape := unslashed_affixedClass_last controller hmode
    rw [cstr_of_no_nul hsep, hnames.1, hnames.2] at hshape
    have hcandidate : Candidate g (unslashed (affixedClass g controller (lit "Controller")))
        controllerAffix.1 := by
      have hpos := List.length_pos_iff.mpr hname
      rw [Candidate, if_pos hmode, hshape]
      refine ⟨List.suffix_append _ _, ?_⟩
      simp only [List.length_append]
      omega
    rw [affixedFile_candidate controllerAffix_mem hcandidate]
    apply affixedFile_stripped hnul hsep haffix ?_ hname
    rw [stripAffix_last hmode, hshape]
    refine ⟨by rw [List.append_assoc]; exact List.suffix_append _ _, ?_⟩
    have hlen : (cstr controller ++ g.nameSeparator ++ controllerAffix.1).length -
        g.nameSeparator.length - controllerAffix.1.length = (cstr controller).length := by
      simp only [List.length_append]
      omega
    rw [hlen, List.append_assoc, List.take_left]
  | false =>
    have hshape := unslashed_affixedClass_first controller hmode
    rw [cstr_of_no_nul hsep, hnames.1, hnames.2] at hshape
    have hcandidate : Candidate g (unslashed (affixedClass g controller (lit "Controller")))
        controllerAffix.1 := by
      rw [Candidate, if_neg (by simp [hmode]), hshape, List.append_assoc]
      exact List.prefix_append _ _
    rw [affixedFile_candidate controllerAffix_mem hcandidate]
    apply affixedFile_stripped hnul hsep haffix ?_ hname
    rw [stripAffix_first hmode, hshape]
    refine ⟨List.prefix_append _ _, ?_⟩
    rw [← List.length_append, List.drop_left]

/-- One path for both names means that no backslash was rewritten. -/
theorem plain_of_same_path {lowcasePath : Bool} {ext directory : Bytes}
    (hname : cstr controller ≠ [])
    (h : autoloadPath lowcasePath ext directory (plainName (cstr controller)) =
      autoloadPath lowcasePath ext directory controller) : backslash ∉ cstr controller := by
  obtain ⟨x, hx, hxpath⟩ :=
    autoloadPath_asPath lowcasePath ext directory (plainName (cstr controller))
  obtain ⟨y, hy, hypath⟩ := autoloadPath_asPath lowcasePath ext directory (cstr controller)
  rw [← autoloadPath_cstr lowcasePath ext directory hname, hxpath, hypath] at h
  have hsame : x = y := by
    have htail := List.append_cancel_left h
    exact List.append_cancel_right (List.cons.inj htail).2
  apply asPath_backslash (nul_not_mem_cstr controller)
  exact SameCi.trans (hsame ▸ hx.symm) hy

end

/-- A controller comes from one file by either way exactly when its name has a first character and
no backslash, and the separator is a C string without one. -/
theorem controller_one_file_iff {g : Globals} {appDir : Bytes} (hdir : g.directory = some appDir)
    (module controller : Bytes) :
    FromOneFile g appDir module controller ↔
      cstr controller ≠ [] ∧ backslash ∉ cstr controller ∧ NUL ∉ g.nameSeparator ∧
        backslash ∉ g.nameSeparator := by
  constructor
  · intro h
    obtain ⟨directory, file, haffixed, hfile, hpath⟩ := fromOneFile_affixed hdir h
    have hfound : NUL ∉ g.nameSeparator ∧ backslash ∉ g.nameSeparator ∧
        directory = controllerAffix.2 ∧ file = plainName (cstr controller) := by
      cases hmode : g.nameSuffix with
      | true => exact affixedFile_controller_last hmode haffixed
      | false => exact affixedFile_controller_first hmode haffixed
    obtain ⟨hsep, hsepPlain, rfl, rfl⟩ := hfound
    have hname : cstr controller ≠ [] := by
      intro hnil
      rw [hnil] at hfile
      exact hfile rfl
    exact ⟨hname, plain_of_same_path hname hpath, hsep, hsepPlain⟩
  · intro h loader turns
    obtain ⟨hname, hplain, hsep, hsepPlain⟩ := h
    refine ⟨loaderReserved (unslashed (affixedClass g controller (lit "Controller"))), ?_⟩
    rw [loaderAutoload_of_ok (askedFor_own _ _) (affixedClass_ne_nil controller)
      (affixedFile_controller hname hplain hsep hsepPlain), plainArg_own, classAutoload,
        askedFor_own, applicationAutoload, hdir]
    dsimp only
    rw [internalAutoload_eq g _ hname, ok_bind, autoloadPath_cstr _ _ _ hname]
    rfl

theorem controller_one_file_index :
    FromOneFile (defaultGlobals true []) (lit "/app") (lit "Index") (lit "Foo_Bar") :=
  (controller_one_file_iff rfl (lit "Index") (lit "Foo_Bar")).mpr
    ⟨by decide, by decide, by decide, by decide⟩

/-- The controller `Foo\Bar` of the dispatcher is the file `Foo\Bar.php`, that of the autoloader
`Foo/Bar.php`. -/
theorem namespaced_controller :
    ¬FromOneFile (defaultGlobals true []) (lit "/app") (lit "Index")
      [70, 111, 111, 92, 66, 97, 114] := by
  intro h
  obtain ⟨reserved, hload⟩ := h plainLoader 0
  have hread : loaderAutoload (defaultGlobals true []) plainLoader 0
      (.own (affixedClass (defaultGlobals true []) [70, 111, 111, 92, 66, 97, 114]
        (lit "Controller"))) =
      .ok ⟨false, some (lit "/app/controllers/Foo/Bar.php")⟩ := by
    decide
  rw [hread] at hload
  have hscript := congrArg Autoload.script (Except.ok.inj hload)
  have hother : some (lit "/app/controllers/Foo/Bar.php") ≠
      some (autoloadPath (defaultGlobals true []).lowcasePath (defaultGlobals true []).ext
        (controllersDirectory (lit "/app") (lit "Index") true)
          [70, 111, 111, 92, 66, 97, 114]) := by
    decide
  exact hother hscript

end Yaf
