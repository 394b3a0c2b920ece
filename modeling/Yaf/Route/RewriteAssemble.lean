import Yaf.Route.RewriteLanguage

namespace Yaf
open Base Pcre

/-- The info that gives each name its value. -/
def placeholders (value : Bytes → Bytes) (names : List Bytes) : Table Key InfoValue :=
  names.map fun n => (.name (colon :: n), ⟨true, value n⟩)

/-- One name after the other is replaced by its value. -/
def substituted (value : Bytes → Bytes) (names : List Bytes) (s : Bytes) : Bytes :=
  names.foldl (fun s n => replaceAll (colon :: n) (value n) s) s

/-- The match of a route spells the pattern, with any number of slashes between and around the
segments. -/
def RewriteShape.SpelledBy (p : RewriteShape) (m : Bytes) : Prop :=
  (m.splitOn slash).filter (· ≠ []) = p.texts

/-- Matching what is assembled gives the assignment back. -/
def AssignmentRoundTrip (pregMatch : PregMatch) (route : RouteRewrite) (names : List Bytes)
    (value : Bytes → Bytes) : Prop :=
  ∃ uri, routeRewriteAssemble route (placeholders value names) none = some uri ∧
    routeRewriteMatch pregMatch route uri =
      some (some (names.map fun n => (.name n, .string (value n))))

section
variable {value : Bytes → Bytes} {names : List Bytes}

theorem substituted_append_slash (hnames : ∀ n ∈ names, slash ∉ n) (x y : Bytes) :
    substituted value names (x ++ slash :: y) =
      substituted value names x ++ slash :: substituted value names y := by
  induction names generalizing x y with
  | nil => rfl
  | cons n names ih =>
    have hn : slash ∉ colon :: n := by
      have hc : slash ≠ colon := by decide
      simp [hc, hnames n List.mem_cons_self]
    simp only [substituted, List.foldl_cons]
    rw [replaceAll_append_sep (by simp) hn]
    exact ih (fun m hm => hnames m (List.mem_cons_of_mem _ hm)) _ _

theorem substituted_nil : substituted value names [] = [] := by
  induction names with
  | nil => rfl
  | cons n names ih => simpa [substituted] using ih

theorem substituted_of_no_colon {s : Bytes} (hs : colon ∉ s) : substituted value names s = s := by
  induction names with
  | nil => rfl
  | cons n names ih =>
    have hno : ¬ colon :: n <:+: s := fun h => hs (h.subset (by simp))
    rw [substituted, List.foldl_cons, replaceAll_of_not_infix hno]
    exact ih

/-- A piece stays a piece: it is not emptied and gets no slash. -/
theorem substituted_piece (hvalue : ∀ n ∈ names, value n ≠ [] ∧ slash ∉ value n) {s : Bytes}
    (hs : s ≠ [] ∧ slash ∉ s) :
    substituted value names s ≠ [] ∧ slash ∉ substituted value names s := by
  induction names generalizing s with
  | nil => exact hs
  | cons n names ih =>
    obtain ⟨hne, hfree⟩ := hvalue n List.mem_cons_self
    exact ih (fun m hm => hvalue m (List.mem_cons_of_mem _ hm))
      ⟨replaceAll_ne_nil hne hs.1, not_mem_replaceAll hfree hs.2⟩

theorem substituted_ne_nil (hvalue : ∀ n ∈ names, value n ≠ []) {s : Bytes} (hs : s ≠ []) :
    substituted value names s ≠ [] := by
  induction names generalizing s with
  | nil => exact hs
  | cons n names ih =>
    exact ih (fun m hm => hvalue m (List.mem_cons_of_mem _ hm))
      (replaceAll_ne_nil (hvalue n List.mem_cons_self) hs)

/-- A name that no earlier one starts, with a value in which no later one stands, is replaced by
its value. -/
theorem substituted_name (pre post : List Bytes) {n : Bytes} (hn : colon ∉ n)
    (hpre : ∀ m ∈ pre, ¬ m <+: n) (hpost : ∀ m ∈ post, ¬ colon :: m <:+: value n) :
    substituted value (pre ++ n :: post) (colon :: n) = value n := by
  have hbefore : substituted value pre (colon :: n) = colon :: n := by
    induction pre with
    | nil => rfl
    | cons m pre ih =>
      have hno : ¬ colon :: m <:+: colon :: n := by
        rw [List.infix_cons_iff, List.cons_prefix_cons]
        rintro (⟨-, h⟩ | h)
        · exact hpre m List.mem_cons_self h
        · exact hn (h.subset (by simp))
      rw [substituted, List.foldl_cons, replaceAll_of_not_infix hno]
      exact ih fun k hk => hpre k (List.mem_cons_of_mem _ hk)
  have hafter : ∀ post : List Bytes, (∀ m ∈ post, ¬ colon :: m <:+: value n) →
      substituted value post (value n) = value n := by
    intro post
    induction post with
    | nil => intro _; rfl
    | cons m post ih =>
      intro h
      rw [substituted, List.foldl_cons, replaceAll_of_not_infix (h m List.mem_cons_self)]
      exact ih fun k hk => h k (List.mem_cons_of_mem _ hk)
  have hhere : replaceAll (colon :: n) (value n) (colon :: n) = value n := by
    have hself : replaceAll (colon :: n) (value n) (colon :: n ++ []) = _ :=
      replaceAll_self (by simp) []
    simpa using hself
  rw [substituted, List.foldl_append, List.foldl_cons, ← substituted, ← substituted, hbefore,
    hhere, hafter post hpost]

end

section
variable {p : RewriteShape} {value : Bytes → Bytes}

theorem find?_placeholders {names : List Bytes} {n : Bytes} (hn : n ∈ names) :
    Table.find? (placeholders value names) (.name (colon :: n)) = some ⟨true, value n⟩ := by
  induction names with
  | nil => simp at hn
  | cons m names ih =>
    by_cases he : m = n
    · simp [placeholders, Table.find?, he]
    · have hm : n ∈ names := by simpa [Ne.symm he] using hn
      have hne : ¬ Key.name (colon :: m) = Key.name (colon :: n) := by simpa using he
      simpa [placeholders, Table.find?, hne] using ih hm

/-- Without a star every name of the segments is replaced, in their order. -/
theorem assembleSegments_eq {info : Table Key InfoValue} {segs : List RewriteSeg}
    (hwf : ∀ seg ∈ segs, seg.WellFormed)
    (hinfo : ∀ n ∈ segNames segs, Table.find? info (.name (colon :: n)) = some ⟨true, value n⟩)
    (pidents : Table Key InfoValue) (uri : Bytes) :
    assembleSegments info pidents uri (segs.map RewriteSeg.text) =
      some (substituted value (segNames segs) uri) := by
  induction segs generalizing pidents uri with
  | nil => rfl
  | cons seg segs ih =>
    have hrest : ∀ s ∈ segs, s.WellFormed := fun s hs => hwf s (List.mem_cons_of_mem _ hs)
    have hseg := hwf seg List.mem_cons_self
    rw [List.map_cons, assembleSegments]
    cases seg with
    | literal s =>
      obtain ⟨hne, hall⟩ := hseg
      cases s with
      | nil => exact absurd rfl hne
      | cons c s =>
        have hc := hall c List.mem_cons_self
        have hstar : c ≠ 42 := by
          rintro rfl
          exact absurd hc (by decide)
        have hcolon : c ≠ colon := by
          rintro rfl
          exact absurd hc (by decide)
        simp only [RewriteSeg.text, List.head?_cons, Option.some.injEq, hstar, hcolon, ↓reduceIte]
        exact ih hrest hinfo pidents uri
    | name n =>
      have hstar : colon ≠ 42 := by decide
      have hn := hinfo n (by simp [segNames])
      simp only [RewriteSeg.text, List.head?_cons, Option.some.injEq, hstar, ↓reduceIte, hn]
      exact ih hrest (fun m hm => hinfo m (by simpa [segNames] using Or.inr hm)) _ _

theorem names_wellFormed {segs : List RewriteSeg} (hwf : ∀ seg ∈ segs, seg.WellFormed) :
    ∀ n ∈ segNames segs, isIdentifier n = true := by
  intro n hn
  obtain ⟨seg, hseg, he⟩ := List.mem_filterMap.mp hn
  cases seg with
  | literal s => cases he
  | name m =>
    cases he
    exact hwf _ hseg

theorem text_piece {seg : RewriteSeg} (h : seg.WellFormed) :
    seg.text ≠ [] ∧ slash ∉ seg.text ∧ NUL ∉ seg.text := by
  cases seg with
  | literal s =>
    obtain ⟨hne, hall⟩ := h
    refine ⟨hne, ?_, ?_⟩
    · intro hm
      exact absurd (hall _ hm) (by decide)
    · intro hm
      exact absurd (hall _ hm) (by decide)
  | name n =>
    have hs := identifier_free h (c := slash) (by decide) (by decide)
    have hn := identifier_free h (c := NUL) (by decide) (by decide)
    have hcs : slash ≠ colon := by decide
    have hcn : NUL ≠ colon := by decide
    exact ⟨by simp [RewriteSeg.text], by simp [RewriteSeg.text, hs, hcs],
      by simp [RewriteSeg.text, hn, hcn]⟩

/-- A literal stays, a name becomes a segment. -/
theorem corresponds_substituted {segs : List RewriteSeg} {names : List Bytes}
    (hwf : ∀ seg ∈ segs, seg.WellFormed)
    (hvalue : ∀ n ∈ names, value n ≠ [] ∧ slash ∉ value n) :
    List.Forall₂ RewriteSeg.Corresponds segs
      ((segs.map RewriteSeg.text).map (substituted value names)) := by
  induction segs with
  | nil => exact .nil
  | cons seg segs ih =>
    refine .cons ?_ (ih fun s hs => hwf s (List.mem_cons_of_mem _ hs))
    have hseg := hwf seg List.mem_cons_self
    have hpiece := text_piece hseg
    cases seg with
    | literal s =>
      have hcolon : colon ∉ s := fun hm => absurd (hseg.2 _ hm) (by decide)
      show equalsCi s (substituted value names s) = true
      rw [substituted_of_no_colon hcolon]
      exact beq_self_eq_true _
    | name n => exact substituted_piece hvalue ⟨hpiece.1, hpiece.2.1⟩

theorem segValues_substituted (segs : List RewriteSeg) (names : List Bytes) :
    segValues segs ((segs.map RewriteSeg.text).map (substituted value names)) =
      (segNames segs).map fun n => (n, substituted value names (colon :: n)) := by
  induction segs with
  | nil => rfl
  | cons seg segs ih => cases seg <;> simpa [segValues, segNames, RewriteSeg.text] using ih

/-- The match spells the pattern in the one way that can be matched again: a slash before each
segment, and nothing but slashes behind the last. -/
def RewriteShape.Plainly (p : RewriteShape) (m : Bytes) : Prop :=
  ∃ k, m = pathOf p.texts ++ List.replicate k slash

theorem substituted_slash {names : List Bytes} (hnames : ∀ n ∈ names, slash ∉ n) (w : Bytes) :
    substituted value names (slash :: w) = slash :: substituted value names w := by
  have h : substituted value names ([] ++ slash :: w) = _ := substituted_append_slash hnames [] w
  simpa [substituted_nil] using h

/-- Pieces are replaced one by one. -/
theorem substituted_append {names : List Bytes} (hnames : ∀ n ∈ names, slash ∉ n) (t : Bytes)
    {w : Bytes} (hw : w = [] ∨ w.head? = some slash) :
    substituted value names (t ++ w) = substituted value names t ++ substituted value names w := by
  cases w with
  | nil => simp [substituted_nil]
  | cons c w =>
    obtain rfl : c = slash := by simpa using hw
    rw [substituted_append_slash hnames, substituted_slash hnames]

theorem replicate_head (k : Nat) :
    List.replicate k slash = [] ∨ (List.replicate k slash).head? = some slash := by
  cases k with
  | zero => exact Or.inl rfl
  | succ k => exact Or.inr rfl

theorem substituted_path {names : List Bytes} (hnames : ∀ n ∈ names, slash ∉ n) (ts : List Bytes)
    (k : Nat) :
    substituted value names (pathOf ts ++ List.replicate k slash) =
      pathOf (ts.map (substituted value names)) ++ List.replicate k slash := by
  induction ts with
  | nil =>
    induction k with
    | zero => exact substituted_nil
    | succ k ih => simpa [pathOf, List.replicate_succ, substituted_slash hnames] using ih
  | cons t ts ih =>
    rw [pathOf_cons, List.cons_append, List.append_assoc, substituted_slash hnames,
      substituted_append hnames t (pathOf_head ts (replicate_head k)), ih, List.map_cons,
      pathOf_cons]
    simp

/-- The first piece of a text and what follows it. -/
theorem first_piece (m : Bytes) : ∃ x w, m = x ++ w ∧ slash ∉ x ∧ (w = [] ∨ w.head? = some slash) ∧
    (m.splitOn slash).filter (· ≠ []) =
      (if x = [] then [] else [x]) ++ (w.splitOn slash).filter (· ≠ []) := by
  have hx : slash ∉ m.takeWhile (· != slash) := not_mem_takeWhile_bne slash m
  have hm := (List.takeWhile_append_dropWhile (p := (· != slash)) (l := m)).symm
  refine ⟨_, _, hm, hx, ?_⟩
  generalize m.takeWhile (· != slash) = x at hm hx
  cases hw : m.dropWhile (· != slash) with
  | nil =>
    rw [hw, List.append_nil] at hm
    refine ⟨Or.inl rfl, ?_⟩
    rw [hm, List.splitOn_eq_singleton hx]
    by_cases hne : x = [] <;> simp [hne]
  | cons c w =>
    have hc : c = slash := by
      have hhead := List.head_dropWhile_not (p := (· != slash)) (l := m) (by simp [hw])
      simpa [hw] using hhead
    rw [hw, hc] at hm
    refine ⟨Or.inr (by simp [hc]), ?_⟩
    rw [hm, hc, List.splitOn_append_cons_self_of_not_mem hx, splitOn_cons_self]
    by_cases hne : x = [] <;> simp [hne]

theorem slashes_of_no_piece {m : Bytes} (hm : (m.splitOn slash).filter (· ≠ []) = []) :
    ∃ k, m = List.replicate k slash := by
  induction m with
  | nil => exact ⟨0, rfl⟩
  | cons c m ih =>
    obtain ⟨x, w, hsplit, hx, hw, hfilter⟩ := first_piece (c :: m)
    rw [hm] at hfilter
    have hxe : x = [] := by
      by_contra hne
      rw [if_neg hne] at hfilter
      simp at hfilter
    subst hxe
    rw [List.nil_append] at hsplit
    subst hsplit
    obtain rfl : c = slash := by simpa using hw
    rw [splitOn_cons_self] at hm
    obtain ⟨k, rfl⟩ := ih (by simpa using hm)
    exact ⟨k + 1, rfl⟩

/-- A first segment is taken behind a slash only, and leaves what follows its piece. -/
theorem takeSegs_cons {seg : RewriteSeg} {segs : List RewriteSeg} {u : Bytes}
    {s : List Bytes × Bytes} (hseg : seg.WellFormed) (h : takeSegs (seg :: segs) u = some s) :
    ∃ u', u = slash :: u' ∧ u' ≠ [] ∧ u'.head? ≠ some slash := by
  cases u with
  | nil => cases seg <;> simp [takeSegs] at h
  | cons c u =>
    by_cases hc : c = slash
    · subst hc
      refine ⟨u, rfl, ?_⟩
      cases seg with
      | literal t =>
        rw [takeSegs_literal] at h
        split at h
        · rename_i he
          obtain ⟨hne, hall⟩ := hseg
          cases t with
          | nil => exact absurd rfl hne
          | cons d t =>
            cases u with
            | nil => simp [equalsCi] at he
            | cons c u =>
              simp only [equalsCi, List.length_cons, List.take_succ_cons, List.map_cons,
                beq_iff_eq, List.cons.injEq] at he
              refine ⟨by simp, ?_⟩
              simp only [List.head?_cons, ne_eq, Option.some.injEq]
              rintro rfl
              have hd : d = slash := (toLower_slash d).mp he.1
              have halnum := hall d List.mem_cons_self
              rw [hd] at halnum
              exact absurd halnum (by decide)
        · cases h
      | name n =>
        rw [takeSegs_name] at h
        split at h
        · cases h
        · rename_i hne
          cases u with
          | nil => simp at hne
          | cons c u =>
            refine ⟨by simp, ?_⟩
            simp only [List.head?_cons, ne_eq, Option.some.injEq]
            rintro rfl
            simp at hne
    · rw [takeSegs_other hc] at h
      cases h

/-- A text starts with a slash after the replacements as it did before. -/
theorem substituted_head {names : List Bytes} (hnames : ∀ n ∈ names, slash ∉ n)
    (hvalue : ∀ n ∈ names, value n ≠ [] ∧ slash ∉ value n) (m : Bytes) :
    (substituted value names m).head? = some slash ↔ m.head? = some slash := by
  obtain ⟨x, w, rfl, hx, hw, -⟩ := first_piece m
  rw [substituted_append hnames x hw]
  by_cases hne : x = []
  · subst hne
    rw [substituted_nil, List.nil_append, List.nil_append]
    cases w with
    | nil => rw [substituted_nil]
    | cons c w =>
      obtain rfl : c = slash := by simpa using hw
      simp [substituted_slash hnames]
  · obtain ⟨hsne, hsfree⟩ := substituted_piece hvalue ⟨hne, hx⟩
    have hno : ∀ {t u : Bytes}, t ≠ [] → slash ∉ t → (t ++ u).head? ≠ some slash := by
      intro t u htne htfree h
      cases t with
      | nil => exact htne rfl
      | cons c t => exact htfree (by simp_all)
    exact iff_of_false (hno hsne hsfree) (hno hne hx)

/-- What is matched again was spelled plainly. -/
theorem plainly_of_taken {names : List Bytes} (hnames : ∀ n ∈ names, slash ∉ n)
    (hvalue : ∀ n ∈ names, value n ≠ [] ∧ slash ∉ value n) {segs : List RewriteSeg}
    (hwf : ∀ seg ∈ segs, seg.WellFormed) {m : Bytes}
    (hm : (m.splitOn slash).filter (· ≠ []) = segs.map RewriteSeg.text)
    {s : List Bytes × Bytes} (hs : takeSegs segs (substituted value names m) = some s) :
    ∃ k, m = pathOf (segs.map RewriteSeg.text) ++ List.replicate k slash := by
  induction segs generalizing m s with
  | nil => simpa [pathOf] using slashes_of_no_piece hm
  | cons seg segs ih =>
    have hseg := hwf seg List.mem_cons_self
    obtain ⟨u', hu, hne, hhead⟩ := takeSegs_cons hseg hs
    -- the match starts with a slash
    obtain ⟨y, rfl⟩ : ∃ y, m = slash :: y := by
      have h := (substituted_head hnames hvalue m).mp (by rw [hu]; rfl)
      cases m with
      | nil => cases h
      | cons c y => exact ⟨y, by simpa using h⟩
    rw [substituted_slash hnames] at hu hs
    cases hu
    -- behind it stands the first segment
    obtain ⟨x, w, hy, hx, hw, hfilter⟩ := first_piece y
    have hxne : x ≠ [] := by
      rintro rfl
      rw [List.nil_append] at hy
      rcases hw with hw | hw
      · exact hne (by rw [hy, hw, substituted_nil])
      · exact hhead ((substituted_head hnames hvalue y).mpr (by rw [hy, hw]))
    rw [splitOn_cons_self, List.filter_cons, if_neg (by simp), hfilter, if_neg hxne, List.map_cons,
      List.singleton_append] at hm
    obtain ⟨hxt, hrest⟩ := List.cons.inj hm
    subst hxt
    rw [hy, substituted_append hnames _ hw] at hs
    obtain ⟨hsne, hsfree⟩ := substituted_piece hvalue ⟨hxne, hx⟩
    have hwsub : substituted value names w = [] ∨
        (substituted value names w).head? = some slash := by
      rcases hw with hw | hw
      · exact Or.inl (by rw [hw, substituted_nil])
      · exact Or.inr ((substituted_head hnames hvalue w).mpr hw)
    obtain ⟨s', hs'⟩ : ∃ s', takeSegs segs (substituted value names w) = some s' := by
      cases seg with
      | literal t =>
        have hcolon : colon ∉ t := fun hmem => absurd (hseg.2 _ hmem) (by decide)
        obtain ⟨htake, hdrop⟩ := equalsCi_take (s := t) (t := t) (beq_self_eq_true _)
          (substituted value names w)
        rw [RewriteSeg.text, substituted_of_no_colon hcolon, takeSegs_literal, htake, hdrop] at hs
        split at hs
        · obtain ⟨s', hs', -⟩ := Option.map_eq_some_iff.mp hs
          exact ⟨s', hs'⟩
        · cases hs
      | name n =>
        obtain ⟨htake, hdrop⟩ := span_segment hsfree hwsub
        rw [takeSegs_name, htake, hdrop, if_neg hsne] at hs
        obtain ⟨s', hs', -⟩ := Option.map_eq_some_iff.mp hs
        exact ⟨s', hs'⟩
    obtain ⟨k, hk⟩ := ih (fun r hr => hwf r (List.mem_cons_of_mem _ hr)) hrest hs'
    exact ⟨k, by rw [hy, hk, List.map_cons, pathOf_cons]; simp⟩

/-- A match that is spelled by a pattern holds no NUL, so its segments are the pattern's. -/
theorem RewriteShape.SpelledBy.strtok {m : Bytes} (h : p.SpelledBy m) :
    NUL ∉ m ∧ Yaf.strtok slash m = p.texts := by
  have htexts : ∀ s ∈ p.texts, NUL ∉ s := by
    intro s hs
    rcases List.mem_append.mp hs with hs | hs
    · obtain ⟨seg, hseg, rfl⟩ := List.mem_map.mp hs
      exact (text_piece (p.wellFormed seg hseg)).2.2
    · split at hs
      · rw [List.mem_singleton.mp hs]
        decide
      · simp at hs
  have hnul : NUL ∉ m := by
    intro hmem
    obtain ⟨s, hs, hc⟩ := exists_mem_splitOn (a := slash) (by decide) hmem
    have hne : s ≠ [] := by
      rintro rfl
      cases hc
    exact htexts s (h ▸ List.mem_filter.mpr ⟨hs, by simpa using hne⟩) hc
  exact ⟨hnul, by rw [Yaf.strtok, cstr_of_no_nul hnul]; exact h⟩

/-- A table with one entry for each name has none that is cut into pairs. -/
theorem not_reserved_of_collect {names : List Bytes} {value : Bytes → Bytes}
    {vals : List (Bytes × Bytes)} (hn : names.Nodup) (hslash : ∀ g ∈ vals, slash ∉ g.2)
    (h : collect vals = names.map fun n => (Key.name n, Zval.string (value n))) :
    routeRest ∉ names := by
  intro hmem
  apply collect_reserved hslash (value routeRest)
  rw [h]
  apply Table.find?_of_mem
  · have he : Table.keys (names.map fun n => (Key.name n, Zval.string (value n))) =
        names.map Key.name := by simp [Table.keys, Function.comp_def]
    rw [he]
    exact hn.map fun _ _ h => Key.name.inj h
  · exact List.mem_map.mpr ⟨routeRest, hmem, rfl⟩

/-- Matching undoes assembling exactly when the match has a slash before each segment and only
slashes behind them, no name is the one of the rest, and the placeholder of each name is turned into
its value by the replacements, its own and those of the other names. -/
theorem rewrite_assemble_match_iff (pregMatch : PregMatch) (route : RouteRewrite)
    (p : RewriteShape) (value : Bytes → Bytes) (hp : Implements pregMatch) (hs : p.star = false)
    (hm : p.SpelledBy route.match)
    (hvalue : ∀ n ∈ segNames p.segs, value n ≠ [] ∧ slash ∉ value n) :
    AssignmentRoundTrip pregMatch route (segNames p.segs) value ↔
      route.match ≠ [] ∧ p.Plainly route.match ∧ routeRest ∉ segNames p.segs ∧
      ∀ n ∈ segNames p.segs, substituted value (segNames p.segs) (colon :: n) = value n := by
  have htexts : p.texts = p.segs.map RewriteSeg.text := by simp [RewriteShape.texts, hs]
  obtain ⟨-, htok⟩ := hm.strtok
  have hnames : ∀ n ∈ segNames p.segs, slash ∉ n := fun n hn =>
    identifier_free (names_wellFormed p.wellFormed n hn) (by decide) (by decide)
  have hasm : routeRewriteAssemble route (placeholders value (segNames p.segs)) none =
      some (substituted value (segNames p.segs) route.match) := by
    rw [routeRewriteAssemble, htok, htexts,
      assembleSegments_eq p.wellFormed fun n hn => find?_placeholders hn]
    simp
  -- what is taken from the assembled URI
  have htake : p.Plainly route.match →
      ∃ w, takeSegs p.segs (substituted value (segNames p.segs) route.match) =
        some (p.texts.map (substituted value (segNames p.segs)), w) := by
    rintro ⟨k, hk⟩
    rw [hk, substituted_path hnames, htexts]
    exact ⟨_, takeSegs_complete (corresponds_substituted p.wellFormed hvalue) (replicate_head k)⟩
  have hres : segValues p.segs (p.texts.map (substituted value (segNames p.segs))) =
      (segNames p.segs).map fun n => (n, substituted value (segNames p.segs) (colon :: n)) := by
    rw [htexts, segValues_substituted]
  have hkeys : Table.keys ((segNames p.segs).map fun n =>
      (n, substituted value (segNames p.segs) (colon :: n))) = segNames p.segs := by
    simp [Table.keys, Function.comp_def]
  constructor
  · rintro ⟨uri, hasm', hmatch⟩
    rw [hasm] at hasm'
    cases hasm'
    have hu : substituted value (segNames p.segs) route.match ≠ [] := by
      intro he
      simp [routeRewriteMatch, he] at hmatch
    have hne : route.match ≠ [] := by
      intro he
      exact hu (by rw [he, substituted_nil])
    rw [match_plain hp htok hs hu] at hmatch
    obtain ⟨⟨ts, w⟩, hts, hcollect⟩ := Option.map_eq_some_iff.mp (Option.some.inj hmatch)
    have hplain : p.Plainly route.match := by
      rw [RewriteShape.Plainly, htexts]
      exact plainly_of_taken hnames hvalue p.wellFormed (htexts ▸ hm) hts
    obtain ⟨w', hw'⟩ := htake hplain
    rw [hts] at hw'
    cases hw'
    rw [hres] at hcollect
    have hrest : routeRest ∉ segNames p.segs := by
      apply not_reserved_of_collect p.distinct _ hcollect
      rw [← hres]
      exact segValues_slash (takeSegs_sound hts).1
    refine ⟨hne, hplain, hrest, ?_⟩
    rw [collect_eq_values (by rw [hkeys]; exact hrest) (by rw [hkeys]; exact p.distinct),
      valuesTable, List.map_map, List.map_inj_left] at hcollect
    intro n hn
    simpa using hcollect n hn
  · rintro ⟨hne, hplain, hrest, hval⟩
    refine ⟨_, hasm, ?_⟩
    have hu : substituted value (segNames p.segs) route.match ≠ [] :=
      substituted_ne_nil (fun n hn => (hvalue n hn).1) hne
    obtain ⟨w, hw⟩ := htake hplain
    rw [match_plain hp htok hs hu, hw, Option.map_some, hres,
      collect_eq_values (by rw [hkeys]; exact hrest) (by rw [hkeys]; exact p.distinct)]
    simp only [valuesTable, List.map_map, Option.some.injEq]
    apply List.map_congr_left
    intro n hn
    simp [hval n hn]

end

/-- The pattern `/:a/:ab`, where one name starts the other. -/
def prefixShape : RewriteShape where
  segs := [.name [97], .name [97, 98]]
  star := false
  wellFormed := by
    intro seg h
    rcases List.mem_cons.mp h with rfl | h
    · exact (by decide : isIdentifier [97] = true)
    · rw [List.mem_singleton.mp h]
      exact (by decide : isIdentifier [97, 98] = true)
  short := by decide
  distinct := by decide

/-- `/:n` with the value `x`. -/
theorem rewrite_assemble_match_iff_sample :
    AssignmentRoundTrip plainMatch ⟨[47, 58, 110], [], none⟩ (segNames nameShape.segs) fun _ =>
      [120] := by
  refine (rewrite_assemble_match_iff plainMatch ⟨[47, 58, 110], [], none⟩ nameShape (fun _ => [120])
    plainMatch_implements rfl (by unfold RewriteShape.SpelledBy; decide) (by decide)).mpr
    ⟨by decide, ⟨0, by decide⟩, by decide, ?_⟩
  intro n hn
  obtain rfl : n = [110] := by simpa [nameShape, segNames] using hn
  exact substituted_name [] [] (by decide) (by simp) (by simp)

/-- `/:a/:ab` with the values `x` and `y` assembles to `/x/xb`. -/
theorem rewrite_prefix_name_lost :
    ¬ AssignmentRoundTrip plainMatch ⟨[47, 58, 97, 47, 58, 97, 98], [], none⟩
      (segNames prefixShape.segs) fun n => if n = [97] then [120] else [121] := by
  rintro ⟨uri, hasm, hmatch⟩
  have huri : routeRewriteAssemble ⟨[47, 58, 97, 47, 58, 97, 98], [], none⟩
      (placeholders (fun n => if n = [97] then [120] else [121]) (segNames prefixShape.segs)) none =
      some [47, 120, 47, 120, 98] := by
    decide
  rw [huri] at hasm
  cases hasm
  rw [match_plain plainMatch_implements (p := prefixShape) (by decide) rfl (by decide)] at hmatch
  have htake : takeSegs prefixShape.segs [47, 120, 47, 120, 98] =
      some ([[120], [120, 98]], []) := by decide
  rw [htake] at hmatch
  have hfind := congrArg
    (fun ret => (ret.join.bind fun t => Table.find? t (.name [97, 98])).bind Zval.text?) hmatch
  exact absurd hfind (by decide)

end Yaf
