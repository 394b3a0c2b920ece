import Yaf.Loader.Inside

namespace Yaf
open Base

/-- The name without an affix and the separator beside it, when it has both. -/
def stripAffix (g : Globals) (affix name : Bytes) : Option Bytes :=
  if g.nameSuffix then
    if (g.nameSeparator ++ affix).isSuffixOf name then
      some (name.take (name.length - (g.nameSeparator ++ affix).length))
    else none
  else
    if (affix ++ g.nameSeparator).isPrefixOf name then
      some (name.drop (affix ++ g.nameSeparator).length)
    else none

/-- The directory of the first affix a name has, and the file name in it; the whole name without
one. -/
def classPlace (g : Globals) (affixes : List (Bytes × Bytes)) (name : Bytes) :
    Option Bytes × Bytes :=
  match affixes.findSome? fun affix => (stripAffix g affix.1 name).map fun file =>
    (affix.2, file) with
  | some (directory, file) => (some directory, file)
  | none => (none, name)

/-- The pieces between the underscores, of which one at the very front is none. -/
def filePieces : Bytes → List Bytes
  | [] => [[]]
  | c :: s => (s.splitOn underscore).modifyHead (c :: ·)

/-- `directory/S1/.../Sk.ext`. -/
def classScript (g : Globals) (directory file : Bytes) : Bytes :=
  let pieces := filePieces file
  let dirs := pieces.dropLast.map fun p => if g.lowcasePath then p.map toLower else p
  directory ++ slash :: [slash].intercalate (dirs ++ [pieces.getLast?.getD []]) ++ dot :: g.ext

def classDirectory (loader : Loader) (appDir : Bytes) (isLocal : Bool) : Option Bytes → Bytes
  | some directory => cstr appDir ++ slash :: directory
  | none => if isLocal then loader.library else loader.globalLibrary

/-- A class name with every backslash read as an underscore. -/
def plainName (className : Bytes) : Bytes :=
  className.map fun c => if c = backslash then underscore else c

/-- The class name the autoloader is called with, with every backslash read as an underscore. -/
def plainClass (loader : Loader) (className : ClassArg) : Bytes :=
  plainName (askedFor loader.namespaces className)

/-- The autoloader asks for the script of the class, in the library the search for its name
decides on when it has no affix. -/
def AsksForScript (g : Globals) (loader : Loader) (appDir : Bytes) (className : ClassArg) : Prop :=
  ∃ turns isLocal reserved,
    loaderAutoload g loader turns className =
      .ok ⟨reserved, some (classScript g
        (classDirectory loader appDir isLocal
          (classPlace g loaderAffixes (plainClass loader className)).1)
        (classPlace g loaderAffixes (plainClass loader className)).2)⟩ ∧
    ((classPlace g loaderAffixes (plainClass loader className)).1 = none →
      (isLocalNamespace loader.namespaces (plainArg loader.namespaces className) turns).1 =
        .ended isLocal)

/-- The search gets past an empty prefix: a list of local names, if there is one, does not start
with a name. -/
def SearchStarts (namespaces : Option Bytes) (name : Bytes) : Prop :=
  ∀ list, namespaces = some list → name.head? = some underscore →
    ∃ c, charAt list 0 = some c ∧ endsName c = true

theorem unslashed_of_no_nul {className : Bytes} (hnul : NUL ∉ className) :
    unslashed className = plainName className := by
  rw [unslashed, cstr_of_no_nul hnul, List.drop_length, List.append_nil, plainName]

theorem nul_not_mem_plainName {className : Bytes} (hnul : NUL ∉ className) :
    NUL ∉ plainName className := by
  intro hm
  obtain ⟨c, hc, he⟩ := List.mem_map.mp hm
  by_cases hslash : c = backslash
  · rw [if_pos hslash] at he
    exact absurd he (by decide)
  · rw [if_neg hslash] at he
    exact hnul (he ▸ hc)

theorem backslash_not_mem_plainName (className : Bytes) : backslash ∉ plainName className := by
  intro hm
  obtain ⟨c, -, he⟩ := List.mem_map.mp hm
  split at he
  · exact absurd he (by decide)
  · rename_i hc
    exact hc he

theorem plainName_eq_self_iff {s : Bytes} : plainName s = s ↔ backslash ∉ s := by
  induction s with
  | nil => simp [plainName]
  | cons c s ih =>
    rw [plainName, List.map_cons, ← plainName, List.cons.injEq, ih, List.mem_cons, not_or]
    refine and_congr_left fun _ => ?_
    by_cases hc : c = backslash
    · simp [hc, show underscore ≠ backslash by decide]
    · simp [hc, Ne.symm hc]

/-- For a C string the path of the loop is the script of the pieces. -/
theorem autoloadPath_eq_classScript (g : Globals) (directory : Bytes) {file : Bytes}
    (hne : file ≠ []) (hnul : NUL ∉ file) :
    autoloadPath g.lowcasePath g.ext directory file = classScript g directory file := by
  obtain ⟨c, s, rfl⟩ := List.exists_cons_of_ne_nil hne
  obtain ⟨hc, hs⟩ := not_or.mp (List.mem_cons.not.mp hnul)
  obtain ⟨piece, pieces, hsplit, hpieces⟩ := autoloadPieces_cons c s
  rw [cstr_of_no_nul hs] at hsplit
  have hfile : filePieces (c :: s) = (c :: piece) :: pieces := by rw [filePieces, hsplit]; rfl
  have hlast : NUL ∉ ((c :: piece) :: pieces).getLast?.getD [] := by
    rw [List.getLast?_eq_some_getLast (List.cons_ne_nil _ _), Option.getD_some]
    intro hm
    rcases List.mem_cons.mp (List.getLast_mem (List.cons_ne_nil (c :: piece) pieces)) with he | hin
    · rw [he] at hm
      rcases List.mem_cons.mp hm with h | h
      · exact hc h
      · exact hs (mem_of_mem_splitOn (hsplit ▸ List.mem_cons_self) h)
    · exact hs (mem_of_mem_splitOn (hsplit ▸ List.mem_cons_of_mem _ hin) hm)
  rw [autoloadPath, hpieces, classScript, hfile]
  dsimp only
  rw [cstr_of_no_nul hlast]
  generalize (c :: piece) :: pieces = ps
  have hjoin := flatMap_dropLast_append slash
    (List.append_ne_nil_of_right_ne_nil
      (ps.dropLast.map fun p => if g.lowcasePath then p.map toLower else p)
      (List.cons_ne_nil (ps.getLast?.getD []) []))
  rw [List.dropLast_concat, List.getLast?_concat, Option.getD_some, List.flatMap_map] at hjoin
  rw [← hjoin]
  have hslash : toLower slash = slash := by decide
  cases g.lowcasePath <;>
    simp [List.map_flatMap, hslash]

section
variable {g : Globals} {name file : Bytes} {affix : Bytes × Bytes}
  {affixes : List (Bytes × Bytes)}

theorem stripAffix_last (hmode : g.nameSuffix = true) :
    stripAffix g affix.1 name = some file ↔ g.nameSeparator ++ affix.1 <:+ name ∧
      file = name.take (name.length - g.nameSeparator.length - affix.1.length) := by
  unfold stripAffix
  rw [if_pos hmode, ← List.isSuffixOf_iff_suffix, List.length_append, Nat.sub_sub]
  cases (g.nameSeparator ++ affix.1).isSuffixOf name <;> simp [eq_comm]

theorem stripAffix_first (hmode : g.nameSuffix = false) :
    stripAffix g affix.1 name = some file ↔ affix.1 ++ g.nameSeparator <+: name ∧
      file = name.drop (affix.1.length + g.nameSeparator.length) := by
  unfold stripAffix
  rw [if_neg (by simp [hmode]), ← List.isPrefixOf_iff_prefix, List.length_append]
  cases (affix.1 ++ g.nameSeparator).isPrefixOf name <;> simp [eq_comm]

/-- A separator in front of an affix. -/
theorem suffix_append_iff {s t u : Bytes} (ht : t <:+ u) :
    s ++ t <:+ u ↔ s.length + t.length ≤ u.length ∧
      s <+: u.drop (u.length - t.length - s.length) := by
  obtain ⟨r, rfl⟩ := ht
  rw [List.length_append]
  constructor
  · intro h
    obtain ⟨q, hq⟩ := h
    have hr : r = q ++ s := List.append_cancel_right (by rw [← hq, List.append_assoc])
    subst hr
    refine ⟨by simp only [List.length_append]; omega, t, ?_⟩
    have hlen : (q ++ s).length + t.length - t.length - s.length = q.length := by
      rw [List.length_append]
      omega
    rw [hlen, List.append_assoc, List.drop_left]
  · intro h
    obtain ⟨hle, hpre⟩ := h
    have hlen : r.length + t.length - t.length - s.length = r.length - s.length := by omega
    rw [hlen, List.drop_append_of_le_length (by omega)] at hpre
    have hs : s = r.drop (r.length - s.length) := by
      apply (List.prefix_of_prefix_length_le hpre (List.prefix_append _ _) ?_).eq_of_length ?_
      · rw [List.length_drop]
        omega
      · rw [List.length_drop]
        omega
    refine ⟨r.take (r.length - s.length), ?_⟩
    conv_lhs => rw [hs]
    rw [← List.append_assoc, List.length_drop]
    have hcut : r.length - (r.length - (r.length - s.length)) = r.length - s.length := by omega
    rw [hcut, List.take_append_drop]

section
variable (hname : NUL ∉ name) (hsep : NUL ∉ g.nameSeparator) (haffix : NUL ∉ affix.1)
include hname hsep haffix

/-- One affix that a name has with its separator. -/
theorem affixedFile_stripped (h : stripAffix g affix.1 name = some file) (hne : file ≠ []) :
    affixedFile g name (affix :: affixes) = .ok (some (affix.2, file)) := by
  cases hmode : g.nameSuffix with
  | true =>
    obtain ⟨hsuffix, rfl⟩ := (stripAffix_last hmode).mp h
    have haffixed : affix.1 <:+ name := (List.suffix_append _ _).trans hsuffix
    obtain ⟨hle, hpre⟩ := (suffix_append_iff haffixed).mp hsuffix
    have hlonger : affix.1.length < name.length := by
      have hpos := List.length_pos_iff.mpr hne
      rw [List.length_take] at hpos
      omega
    have hcandidate : Candidate g name affix.1 := by
      rw [Candidate, if_pos hmode]
      exact ⟨haffixed, hlonger⟩
    have hcompare := (strncmp_iff_front hsep).mpr hpre
    have htest := isCategory_last hmode haffix hcandidate (by omega)
    rw [hcompare] at htest
    rw [affixedFile_hit htest, affixFileName_last hmode (by omega)]
    rfl
  | false =>
    obtain ⟨hstart, rfl⟩ := (stripAffix_first hmode).mp h
    have hcandidate : Candidate g name affix.1 := by
      rw [Candidate, if_neg (by simp [hmode])]
      exact (List.prefix_append _ _).trans hstart
    obtain ⟨rest, rfl⟩ := hstart
    have hcompare : strncmp ((affix.1 ++ g.nameSeparator ++ rest).drop affix.1.length)
        g.nameSeparator g.nameSeparator.length = true := by
      rw [strncmp_iff_front hsep, List.append_assoc, List.drop_left]
      exact List.prefix_append _ _
    have htest := isCategory_first hmode haffix hcandidate
    rw [hcompare] at htest
    have hle : affix.1.length + g.nameSeparator.length ≤
        (affix.1 ++ g.nameSeparator ++ rest).length := by
      simp only [List.length_append]
      omega
    have hcut : NUL ∉ (affix.1 ++ g.nameSeparator ++ rest).drop
        (affix.1.length + g.nameSeparator.length) := fun hm => hname (List.mem_of_mem_drop hm)
    rw [affixedFile_hit htest, affixFileName_first hmode hle, cstr_of_no_nul hcut]
    rfl

/-- An affix it does not have is passed over. -/
theorem affixedFile_passed (h : stripAffix g affix.1 name = none)
    (hlong : affix.1 <:+ name → affix.1.length + g.nameSeparator.length ≤ name.length) :
    affixedFile g name (affix :: affixes) = affixedFile g name affixes := by
  have hnot : ∀ file, stripAffix g affix.1 name ≠ some file := by
    intro file hsome
    rw [h] at hsome
    cases hsome
  by_cases hcandidate : Candidate g name affix.1
  · cases hmode : g.nameSuffix with
    | true =>
      have haffixed := hcandidate
      rw [Candidate, if_pos hmode] at haffixed
      have hle := hlong haffixed.1
      have htest := isCategory_last hmode haffix hcandidate hle
      have hcompare : strncmp (name.drop (name.length - affix.1.length - g.nameSeparator.length))
          g.nameSeparator g.nameSeparator.length = false := by
        apply Bool.eq_false_iff.mpr
        intro hc
        have hpre := (strncmp_iff_front hsep).mp hc
        have hsuffix := (suffix_append_iff haffixed.1).mpr ⟨by omega, hpre⟩
        exact hnot _ ((stripAffix_last hmode).mpr ⟨hsuffix, rfl⟩)
      rw [hcompare] at htest
      exact affixedFile_miss htest
    | false =>
      have haffixed := hcandidate
      rw [Candidate, if_neg (by simp [hmode])] at haffixed
      have htest := isCategory_first hmode haffix hcandidate
      have hcompare : strncmp (name.drop affix.1.length)
          g.nameSeparator g.nameSeparator.length = false := by
        apply Bool.eq_false_iff.mpr
        intro hc
        obtain ⟨rest, hrest⟩ := (strncmp_iff_front hsep).mp hc
        obtain ⟨tail, rfl⟩ := haffixed
        rw [List.drop_left] at hrest
        have hstart : affix.1 ++ g.nameSeparator <+: affix.1 ++ tail :=
          ⟨rest, by rw [List.append_assoc, hrest]⟩
        exact hnot _ ((stripAffix_first hmode).mpr ⟨hstart, rfl⟩)
      rw [hcompare] at htest
      exact affixedFile_miss htest
  · exact affixedFile_miss (isCategory_miss haffix hcandidate)

end

/-- The tests find the place of the class. -/
theorem affixedFile_eq (hname : NUL ∉ name) (hsep : NUL ∉ g.nameSeparator)
    (haffixes : ∀ affix ∈ affixes, NUL ∉ affix.1)
    (hlong : ∀ affix ∈ affixes, affix.1 <:+ name →
      affix.1.length + g.nameSeparator.length ≤ name.length)
    (hfile : (classPlace g affixes name).2 ≠ []) :
    affixedFile g name affixes =
      .ok ((classPlace g affixes name).1.map fun directory =>
        (directory, (classPlace g affixes name).2)) := by
  induction affixes with
  | nil => rfl
  | cons affix affixes ih =>
    have hnul := haffixes affix List.mem_cons_self
    cases hstrip : stripAffix g affix.1 name with
    | some file =>
      have hplace : classPlace g (affix :: affixes) name = (some affix.2, file) := by
        rw [classPlace, List.findSome?_cons, hstrip]
        rfl
      rw [hplace] at hfile ⊢
      exact affixedFile_stripped hname hsep hnul hstrip hfile
    | none =>
      have hplace : classPlace g (affix :: affixes) name = classPlace g affixes name := by
        rw [classPlace, List.findSome?_cons, hstrip]
        rfl
      rw [hplace] at hfile ⊢
      rw [affixedFile_passed hname hsep hnul hstrip (hlong affix List.mem_cons_self)]
      exact ih (fun other ho => haffixes other (List.mem_cons_of_mem _ ho))
        (fun other ho => hlong other (List.mem_cons_of_mem _ ho)) hfile

theorem classPlace_none (h : (classPlace g affixes name).1 = none) :
    (classPlace g affixes name).2 = name := by
  unfold classPlace at h ⊢
  split at h
  · cases h
  · rfl

theorem nul_not_mem_classPlace (hname : NUL ∉ name) : NUL ∉ (classPlace g affixes name).2 := by
  unfold classPlace
  split
  · rename_i directory file hfound
    obtain ⟨affix, -, hsome⟩ := List.exists_of_findSome?_eq_some hfound
    obtain ⟨stripped, hstrip, he⟩ := Option.map_eq_some_iff.mp hsome
    cases he
    cases hmode : g.nameSuffix with
    | true =>
      rw [((stripAffix_last hmode).mp hstrip).2]
      exact fun hm => hname (List.mem_of_mem_take hm)
    | false =>
      rw [((stripAffix_first hmode).mp hstrip).2]
      exact fun hm => hname (List.mem_of_mem_drop hm)
  · exact hname

/-- Nothing in front of the underscore, in a name that starts with one. -/
theorem classPrefix_eq_nil_iff (hne : name ≠ []) (hplain : backslash ∉ name) :
    classPrefix name = [] ↔ name.head? = some underscore := by
  obtain ⟨c, t, rfl⟩ := List.exists_cons_of_ne_nil hne
  unfold classPrefix
  by_cases hunder : underscore ∈ c :: t
  · rw [if_pos hunder]
    by_cases hc : c = underscore <;> simp [hc]
  · rw [if_neg hunder, takeWhile_bne hplain]
    have hc : c ≠ underscore := fun hc => hunder (by simp [hc])
    simp [hc]

/-- With nothing in front of the underscore the first turn decides: it ends, or the search stands
still. -/
theorem searchTurn_nil (list : Bytes) {cut : ClassCut} (hpre : cut.namePrefix = [])
    (hlen : cut.prefixLen = 0) : ∃ c, charAt list 0 = some c ∧
      searchTurn list cut 0 = if endsName c then .ended true else .on 0 := by
  obtain ⟨c, hplace, hc⟩ : ∃ c, placeBehind list cut 0 = some (0 + 0, c) ∧
      charAt list (0 + 0) = some c :=
    placeBehind_eq hlen (Nat.zero_le _)
  have hfound : strstr (cstr (list.drop 0)) [] = some ([], cstr (list.drop 0)) :=
    strstr_here (d := []) _
  refine ⟨c, hc, ?_⟩
  rw [searchTurn, hpre, hfound]
  dsimp only
  rw [List.length_nil, Nat.add_zero, hplace]
  cases hend : endsName c <;> simp [hend]

/-- The search for a C string answers exactly if it is not stuck at its start. -/
theorem isLocalNamespace_answers_iff (namespaces : Option Bytes) (hname : NUL ∉ name)
    (hne : name ≠ []) (hplain : backslash ∉ name)
    (hshort : underscore ∉ name → name.length < 2 ^ 31) :
    (∃ turns isLocal, isLocalNamespace namespaces (.own name) turns = (.ended isLocal, name)) ↔
      SearchStarts namespaces name := by
  cases hlist : namespaces with
  | none =>
    have hstarts : SearchStarts none name := fun _ h => nomatch h
    exact ⟨fun _ => hstarts, fun _ => ⟨0, false, rfl⟩⟩
  | some list =>
    obtain ⟨hstart, hrestore, hlen⟩ := cutClassName_spec name
    have hinside : CutInside name := by
      rintro (hm | hlong)
      · exact absurd hm hname
      · rw [cstr_of_no_nul hname]
        by_contra hno
        exact absurd (hshort (not_or.mp hno).1) (Nat.not_lt.mpr hlong)
    have hlen := hlen hinside
    rw [cstr_of_no_nul hname] at hstart hlen
    have hsearch : (∃ turns isLocal,
        isLocalNamespace (some list) (.own name) turns = (.ended isLocal, name)) ↔
          ∃ turns found, search list (cutClassName name) turns 0 = .ended found := by
      refine exists_congr fun turns => exists_congr fun found => ?_
      simp only [isLocalNamespace, ClassArg.text, ClassArg.searched]
      cases hs : search list (cutClassName name) turns 0 <;> simp [hrestore]
    rw [hsearch]
    by_cases hempty : classPrefix name = []
    · have hzero : (cutClassName name).prefixLen = 0 := by
        rw [hlen, hempty]
        rfl
      obtain ⟨c, hc, hturn⟩ := searchTurn_nil list (hstart.trans hempty) hzero
      have hhead := (classPrefix_eq_nil_iff hne hplain).mp hempty
      by_cases hend : endsName c = true
      · rw [if_pos hend] at hturn
        refine ⟨fun _ l hl _ => ?_, fun _ => ⟨1, true, by rw [search, hturn]⟩⟩
        cases hl
        exact ⟨c, hc, hend⟩
      · rw [if_neg hend] at hturn
        constructor
        · rintro ⟨turns, found, h⟩
          rw [search_still hturn] at h
          cases h
        · intro hstarts
          obtain ⟨d, hd, hends⟩ := hstarts list rfl hhead
          rw [hc] at hd
          cases hd
          exact absurd hends hend
    · have hp : (cutClassName name).namePrefix ≠ [] := by rwa [hstart]
      refine ⟨fun _ l _ hhead => ?_, fun _ => ?_⟩
      · exact absurd ((classPrefix_eq_nil_iff hne hplain).mpr hhead) hempty
      · exact ⟨_, search_ends hp (by rw [hlen, hstart]) (list.length + 1) (Nat.zero_le _)
          (by omega)⟩

/-- The search for a copy answers if it is not stuck at its start, that for the string of the list
always. -/
theorem plainArg_answers_iff {loader : Loader} {className : ClassArg}
    (hnul : NUL ∉ askedFor loader.namespaces className)
    (hne : askedFor loader.namespaces className ≠ [])
    (hshort : underscore ∉ plainClass loader className →
      (plainClass loader className).length < 2 ^ 31) :
    (∃ turns isLocal, isLocalNamespace loader.namespaces (plainArg loader.namespaces className)
        turns = (.ended isLocal, plainClass loader className)) ↔
      ((className = .handedOut → backslash ∈ askedFor loader.namespaces className) →
        SearchStarts loader.namespaces (plainClass loader className)) := by
  unfold plainClass at *
  have hnamed : plainName (askedFor loader.namespaces className) ≠ [] := by
    rwa [plainName, ne_eq, List.map_eq_nil_iff]
  have hown := isLocalNamespace_answers_iff loader.namespaces
    (nul_not_mem_plainName hnul) hnamed (backslash_not_mem_plainName _) hshort
  by_cases hslash : backslash ∈ askedFor loader.namespaces className
  · have harg : plainArg loader.namespaces className =
        .own (plainName (askedFor loader.namespaces className)) := by
      rw [plainArg, if_pos (by rwa [cstr_of_no_nul hnul]), unslashed_of_no_nul hnul]
    rw [harg, hown, imp_iff_right fun _ => hslash]
  · have harg : plainArg loader.namespaces className = className :=
      if_neg (by rwa [cstr_of_no_nul hnul])
    have hsame := plainName_eq_self_iff.mpr hslash
    rw [harg]
    cases className with
    | own name =>
      have hasked : plainName (askedFor loader.namespaces (.own name)) = name := hsame
      rw [hasked] at hown ⊢
      rw [hown, imp_iff_right fun h => nomatch h]
    | handedOut =>
      refine iff_of_true ?_ fun h => absurd (h rfl) hslash
      rw [hsame] at hshort ⊢
      cases hlist : loader.namespaces with
      | none => exact ⟨0, false, rfl⟩
      | some list =>
        have hasked : askedFor loader.namespaces .handedOut = list := by rw [hlist]; rfl
        rw [hasked] at hnul hshort
        refine ⟨1, true, isLocalNamespace_handedOut ?_ 0⟩
        intro hlong
        rw [cstr_of_no_nul hnul]
        by_contra hno
        exact absurd (hshort (not_or.mp hno).1) (Nat.not_lt.mpr hlong)

end

/-- The script a class is looked for in, for names that are C strings: it is asked for exactly if
the search for a local name, where there is one, is not stuck at its start. That for the string of
the list never is, unless it has to be copied. -/
theorem autoload_class_script {g : Globals} {loader : Loader} {appDir : Bytes}
    {className : ClassArg} (hdir : g.directory = some appDir) (hst : g.stCompatible = false)
    (hne : askedFor loader.namespaces className ≠ [])
    (hnul : NUL ∉ askedFor loader.namespaces className) (hsep : NUL ∉ g.nameSeparator)
    (hfile : (classPlace g loaderAffixes (plainClass loader className)).2 ≠ [])
    (hlong : ∀ affix ∈ loaderAffixes, affix.1 <:+ plainClass loader className →
      affix.1.length + g.nameSeparator.length ≤ (plainClass loader className).length)
    (hshort : underscore ∉ plainClass loader className →
      (plainClass loader className).length < 2 ^ 31) :
    AsksForScript g loader appDir className ↔
      ((classPlace g loaderAffixes (plainClass loader className)).1 = none →
        (className = .handedOut → backslash ∈ askedFor loader.namespaces className) →
          SearchStarts loader.namespaces (plainClass loader className)) := by
  have hanswers := plainArg_answers_iff hnul hne hshort
  have hname : NUL ∉ plainClass loader className := nul_not_mem_plainName hnul
  have haffixed := affixedFile_eq hname hsep loaderAffixes_nul hlong hfile
  have hseen : unslashed (askedFor loader.namespaces className) = plainClass loader className :=
    unslashed_of_no_nul hnul
  have hasked : askedFor loader.namespaces (plainArg loader.namespaces className) =
      plainClass loader className := by
    rw [askedFor_plainArg, hseen]
  have hload : ∀ turns, loaderAutoload g loader turns className =
      classAutoload g loader turns (plainArg loader.namespaces className)
        ((classPlace g loaderAffixes (plainClass loader className)).1.map fun directory =>
          (directory, (classPlace g loaderAffixes (plainClass loader className)).2)) := by
    rw [← hseen] at haffixed ⊢
    exact loaderAutoload_of_ok rfl hne haffixed
  unfold AsksForScript
  generalize plainClass loader className = name at hanswers hname hfile hasked hload ⊢
  have hscript : ∀ directory, internalAutoload g directory (classPlace g loaderAffixes name).2 =
      .ok (classScript g directory (classPlace g loaderAffixes name).2) := by
    intro directory
    rw [internalAutoload_eq g directory hfile,
      autoloadPath_eq_classScript g directory hfile (nul_not_mem_classPlace hname)]
  cases hplace : (classPlace g loaderAffixes name).1 with
  | some directory =>
    refine ⟨fun _ h => absurd h (by simp), fun _ => ?_⟩
    refine ⟨0, false, loaderReserved name, ?_, fun h => nomatch h⟩
    rw [hload, hplace, Option.map_some, classAutoload, hasked, applicationAutoload, hdir]
    dsimp only
    rw [hscript, ok_bind]
    rfl
  | none =>
    rw [classPlace_none hplace] at hscript ⊢
    rw [imp_iff_right rfl, ← hanswers]
    constructor
    · rintro ⟨turns, isLocal, -, -, hended⟩
      refine ⟨turns, isLocal, ?_⟩
      have hfst := hended rfl
      cases hcall : isLocalNamespace loader.namespaces
          (plainArg loader.namespaces className) turns with
      | mk turn left =>
        rw [hcall] at hfst
        obtain rfl : turn = .ended isLocal := hfst
        rw [isLocalNamespace_ended hcall, hasked]
    · rintro ⟨turns, isLocal, hanswer⟩
      refine ⟨turns, isLocal, loaderReserved name, ?_, fun _ => by rw [hanswer]⟩
      have hcompatible : isCompatibleModel g name = false := by
        rw [isCompatibleModel, hst, Bool.false_and]
      rw [hload, hplace, Option.map_none, classAutoload, hasked, hcompatible, libraryAutoload,
        hanswer]
      cases isLocal <;> simp only [Bool.false_eq_true, if_false] <;> rw [hscript, ok_bind] <;> rfl

theorem autoload_class_script_model :
    AsksForScript (defaultGlobals true []) plainLoader (lit "/app") (.own (lit "Foo_BarModel")) ∧
      AsksForScript (defaultGlobals true []) ⟨lit "/lib", lit "/lib", some (lit "_Bar")⟩
        (lit "/app") .handedOut := by
  constructor
  · apply (autoload_class_script rfl rfl (by decide) (by decide) (by decide)
      (by decide) (by decide) (by decide)).mpr
    exact fun h => absurd h (by decide)
  · apply (autoload_class_script rfl rfl (by decide) (by decide) (by decide)
      (by decide) (by decide) (by decide)).mpr
    exact fun _ h => absurd (h rfl) (by decide)

/-- With `Foo` registered the class `_Bar` is looked for without end. -/
theorem class_never_looked_for :
    ¬AsksForScript (defaultGlobals true []) ⟨lit "/lib", lit "/lib", some (lit "Foo")⟩ (lit "/app")
      (.own (lit "_Bar")) := by
  rintro ⟨turns, isLocal, -, -, hended⟩
  have hplace : (classPlace (defaultGlobals true []) loaderAffixes
      (plainClass ⟨lit "/lib", lit "/lib", some (lit "Foo")⟩ (.own (lit "_Bar")))).1 = none := by
    decide
  have hanswered := hended hplace
  have hturn : searchTurn (lit "Foo") (cutClassName (lit "_Bar")) 0 = .on 0 := by decide
  have harg : plainArg (some (lit "Foo")) (.own (lit "_Bar")) = .own (lit "_Bar") :=
    if_neg (by decide)
  simp [harg, isLocalNamespace, ClassArg.text, ClassArg.searched, search_still hturn] at hanswered

end Yaf
