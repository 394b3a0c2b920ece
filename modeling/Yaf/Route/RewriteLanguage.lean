import Yaf.Route.RewriteMatch

namespace Yaf
open Base Pcre

def pathOf (ts : List Bytes) : Bytes := ts.flatMap (slash :: ·)

theorem pathOf_cons (t : Bytes) (ts : List Bytes) :
    pathOf (t :: ts) = slash :: (t ++ pathOf ts) := by
  simp [pathOf]

theorem equalsCi_take {s t : Bytes} (h : equalsCi s t = true) (w : Bytes) :
    (t ++ w).take s.length = t ∧ (t ++ w).drop s.length = w := by
  have hlen : s.length = t.length := by
    simp only [equalsCi, beq_iff_eq] at h
    simpa using congrArg List.length h
  rw [hlen]
  simp

theorem span_segment {t : Bytes} (ht : slash ∉ t) {w : Bytes} (hw : w = [] ∨ w.head? = some slash) :
    (t ++ w).takeWhile (· != slash) = t ∧ (t ++ w).dropWhile (· != slash) = w := by
  have hall : ∀ c ∈ t, (c != slash) = true := bne_of_not_mem ht
  rw [List.takeWhile_append_of_pos hall, List.dropWhile_append_of_pos hall]
  cases w with
  | nil => simp
  | cons c w =>
    have hc : c = slash := by simpa using hw
    simp [hc]

theorem pathOf_head (ts : List Bytes) {w : Bytes} (hw : w = [] ∨ w.head? = some slash) :
    pathOf ts ++ w = [] ∨ (pathOf ts ++ w).head? = some slash := by
  cases ts with
  | nil => exact hw
  | cons t ts => exact Or.inr (by simp [pathOf_cons])

/-- What is taken corresponds to the segments. -/
theorem takeSegs_sound {segs : List RewriteSeg} {u w : Bytes} {ts : List Bytes}
    (h : takeSegs segs u = some (ts, w)) :
    List.Forall₂ RewriteSeg.Corresponds segs ts ∧ u = pathOf ts ++ w := by
  induction segs generalizing u ts with
  | nil =>
    simp only [takeSegs, Option.some.injEq, Prod.mk.injEq] at h
    obtain ⟨rfl, rfl⟩ := h
    exact ⟨.nil, rfl⟩
  | cons seg segs ih =>
    cases u with
    | nil => cases seg <;> simp [takeSegs] at h
    | cons c u =>
      by_cases hc : c = slash
      · subst hc
        cases seg with
        | literal s =>
          rw [takeSegs_literal] at h
          split at h
          · rename_i he
            obtain ⟨⟨ts', w'⟩, hrest, hp⟩ := Option.map_eq_some_iff.mp h
            cases hp
            obtain ⟨hall, hu⟩ := ih hrest
            refine ⟨.cons he hall, ?_⟩
            rw [pathOf_cons, List.cons_append, List.append_assoc, ← hu, List.take_append_drop]
          · cases h
        | name n =>
          rw [takeSegs_name] at h
          split at h
          · cases h
          · rename_i ht
            obtain ⟨⟨ts', w'⟩, hrest, hp⟩ := Option.map_eq_some_iff.mp h
            cases hp
            obtain ⟨hall, hu⟩ := ih hrest
            refine ⟨.cons ⟨ht, ?_⟩ hall, ?_⟩
            · exact not_mem_takeWhile_bne slash _
            · rw [pathOf_cons, List.cons_append, List.append_assoc, ← hu,
                List.takeWhile_append_dropWhile]
      · rw [takeSegs_other hc] at h
        cases h

/-- Segments that correspond are taken, when a slash or the end comes behind them. -/
theorem takeSegs_complete {segs : List RewriteSeg} {ts : List Bytes}
    (h : List.Forall₂ RewriteSeg.Corresponds segs ts) {w : Bytes}
    (hw : w = [] ∨ w.head? = some slash) : takeSegs segs (pathOf ts ++ w) = some (ts, w) := by
  induction h with
  | nil => rfl
  | @cons seg t segs ts hseg hall ih =>
    rw [pathOf_cons, List.cons_append, List.append_assoc]
    cases seg with
    | literal s =>
      obtain ⟨htake, hdrop⟩ := equalsCi_take hseg (pathOf ts ++ w)
      have he : equalsCi s t = true := hseg
      rw [takeSegs_literal, htake, hdrop, if_pos he, ih]
      rfl
    | name n =>
      obtain ⟨htake, hdrop⟩ := span_segment hseg.2 (pathOf_head ts hw)
      rw [takeSegs_name, htake, hdrop, if_neg hseg.1, ih]
      rfl

/-- Something is taken from every URI whose front the segments describe. -/
theorem takeSegs_front {segs : List RewriteSeg} {ts : List Bytes}
    (h : List.Forall₂ RewriteSeg.Corresponds segs ts) (w : Bytes) :
    ∃ s, takeSegs segs (pathOf ts ++ w) = some s := by
  induction h with
  | nil => exact ⟨_, rfl⟩
  | @cons seg t segs ts hseg hall ih =>
    rw [pathOf_cons, List.cons_append, List.append_assoc]
    cases seg with
    | literal s =>
      obtain ⟨htake, hdrop⟩ := equalsCi_take hseg (pathOf ts ++ w)
      have he : equalsCi s t = true := hseg
      obtain ⟨r, hr⟩ := ih
      exact ⟨_, by rw [takeSegs_literal, htake, hdrop, if_pos he, hr]; rfl⟩
    | name n =>
      cases hall with
      | nil =>
        have hne : (t ++ (pathOf [] ++ w)).takeWhile (· != slash) ≠ [] := by
          obtain ⟨hne, hfree⟩ := hseg
          cases t with
          | nil => exact absurd rfl hne
          | cons c t =>
            have hc : c ≠ slash := fun he => hfree (by simp [he])
            simp [hc]
        exact ⟨_, by rw [takeSegs_name, if_neg hne]; rfl⟩
      | @cons seg' t' segs' ts' hseg' hall' =>
        have hhead : pathOf (t' :: ts') ++ w = [] ∨
            (pathOf (t' :: ts') ++ w).head? = some slash := Or.inr (by simp [pathOf_cons])
        obtain ⟨htake, hdrop⟩ := span_segment hseg.2 hhead
        obtain ⟨r, hr⟩ := ih
        exact ⟨_, by rw [takeSegs_name, htake, hdrop, if_neg hseg.1, hr]; rfl⟩

theorem nodup_routerParseParameters (s : Bytes) :
    (Table.keys (routerParseParameters s)).Nodup := by
  rw [routerParseParameters, parseParametersGo_eq]
  exact Table.nodup_merge (by simp) _

/-- The parameters of one segment hold no string. -/
theorem parameters_of_segment {s : Bytes} (hs : slash ∉ s) (k : Key) (v : Bytes) :
    Table.find? (routerParseParameters s) k ≠ some (.string v) := by
  have hfree : slash ∉ cstr s := fun h => hs ((List.takeWhile_prefix _).subset h)
  rw [← routerParseParameters_cstr, routerParseParameters,
    strtok_of_free (nul_not_mem_cstr s) hfree]
  split
  · simp [parseParametersGo]
  · intro h
    rw [parseParametersGo] at h
    split at h
    · cases h
    · simp only [Table.update, Table.find?] at h
      split at h <;> cases h

/-- The entries of the names. -/
def valuesTable (groups : List (Bytes × Bytes)) : Table Key Zval :=
  groups.map fun g => (.name g.1, .string g.2)

theorem collect_eq_values {groups : List (Bytes × Bytes)} (hrest : routeRest ∉ Table.keys groups)
    (hn : (Table.keys groups).Nodup) : collect groups = valuesTable groups := by
  have hmerge : collect groups = Table.merge [] (valuesTable groups) := by
    rw [collect, Table.merge, valuesTable, List.foldl_map]
    refine List.foldl_ext _ _ _ ?_
    intro ret g hg
    have hne : g.1 ≠ routeRest := by
      intro he
      exact hrest (List.mem_map.mpr ⟨g, hg, he⟩)
    rw [if_neg hne]
  have hkeys : (Table.keys (valuesTable groups)).Nodup := by
    have he : Table.keys (valuesTable groups) = (Table.keys groups).map Key.name := by
      simp [Table.keys, valuesTable]
    rw [he]
    exact hn.map fun _ _ h => Key.name.inj h
  rw [hmerge, Table.merge_nil_left hkeys]

theorem keys_segValues {segs : List RewriteSeg} {ts : List Bytes}
    (h : List.Forall₂ RewriteSeg.Corresponds segs ts) :
    Table.keys (segValues segs ts) = segNames segs := by
  induction h with
  | nil => rfl
  | @cons seg t segs ts hseg hall ih => cases seg <;> simpa [segValues, segNames] using ih

theorem segValues_slash {segs : List RewriteSeg} {ts : List Bytes}
    (h : List.Forall₂ RewriteSeg.Corresponds segs ts) :
    ∀ g ∈ segValues segs ts, slash ∉ g.2 := by
  induction h with
  | nil => simp [segValues]
  | @cons seg t segs ts hseg hall ih =>
    cases seg with
    | literal s => exact ih
    | name n =>
      intro g hg
      rcases List.mem_cons.mp hg with rfl | hg
      · exact hseg.2
      · exact ih g hg

/-- A name that is the one of the rest is not reported. -/
theorem collect_reserved {groups : List (Bytes × Bytes)} (h : ∀ g ∈ groups, slash ∉ g.2)
    (v : Bytes) : Table.find? (collect groups) (.name routeRest) ≠ some (.string v) := by
  have hgo : ∀ ret : Table Key Zval, Table.find? ret (.name routeRest) ≠ some (.string v) →
      Table.find? (groups.foldl (fun ret g =>
        if g.1 = routeRest then Table.merge ret (routerParseParameters g.2)
        else Table.update ret (.name g.1) (.string g.2)) ret) (.name routeRest) ≠
        some (.string v) := by
    induction groups with
    | nil => intro ret hret; exact hret
    | cons g groups ih =>
      intro ret hret
      refine ih (fun g' hg => h g' (List.mem_cons_of_mem _ hg)) _ ?_
      beta_reduce
      by_cases hg : g.1 = routeRest
      · rw [if_pos hg, Table.find?_merge (nodup_routerParseParameters _)]
        have hseg := parameters_of_segment (h g List.mem_cons_self) (.name routeRest) v
        cases hf : Table.find? (routerParseParameters g.2) (.name routeRest) with
        | none => simpa using hret
        | some w => simpa [hf] using hseg
      · rw [if_neg hg, Table.find?_update_other]
        · exact hret
        · intro he
          exact hg (Key.name.inj he).symm
  exact hgo [] (by simp)

/-- A URI the pattern describes: a slash and the segments, and with a star a slash and any
rest. -/
structure RewriteShape.Describes (p : RewriteShape) (uri : Bytes) (ts : List Bytes)
    (rest : Bytes) : Prop where
  segments : List.Forall₂ RewriteSeg.Corresponds p.segs ts
  spelled : uri = if p.star then pathOf ts ++ slash :: rest else slash :: [slash].intercalate ts
  ended : p.star = false → rest = []

/-- The result maps each name to its segment, and with a star holds the parameters of the rest. -/
structure RewriteShape.Reports (p : RewriteShape) (ts : List Bytes) (rest : Bytes)
    (ret : Table Key Zval) : Prop where
  names : ∀ g ∈ segValues p.segs ts, Table.find? ret (.name g.1) = some (.string g.2)
  parameters : p.star = true → ∀ k v, Table.find? (routerParseParameters rest) k = some v →
    Table.find? ret k = some v

/-- The route matches exactly the URIs its pattern describes, with the right result. -/
structure MatchesDescribed (pregMatch : PregMatch) (route : RouteRewrite) (p : RewriteShape)
    (uri : Bytes) : Prop where
  accepts : (∃ ret, routeRewriteMatch pregMatch route uri = some (some ret)) ↔
    ∃ ts rest, p.Describes uri ts rest
  reports : ∀ ret, routeRewriteMatch pregMatch route uri = some (some ret) →
    ∃ ts rest, p.Describes uri ts rest ∧ p.Reports ts rest ret

/-- When the pattern has no star: a URI that goes on behind a front the segments describe is
described as a whole. -/
def RewriteShape.EndsThere (p : RewriteShape) (uri : Bytes) : Prop :=
  ∀ ts tail, uri ≠ [] → List.Forall₂ RewriteSeg.Corresponds p.segs ts → uri = pathOf ts ++ tail →
    ∃ ts, p.Describes uri ts []

/-- When it has one: the first line of the rest has the parameters of the rest, and none of them
gives a name another value. -/
structure RewriteShape.RestFits (p : RewriteShape) (ts : List Bytes) (rest : Bytes) : Prop where
  names : ∀ g ∈ segValues p.segs ts, ∀ v,
    Table.find? (routerParseParameters (firstLine rest)) (.name g.1) = some v → v = .string g.2
  line : ∀ k v, Table.find? (routerParseParameters rest) k = some v →
    Table.find? (routerParseParameters (firstLine rest)) k = some v ∨
      ∃ g ∈ segValues p.segs ts, k = .name g.1 ∧ v = .string g.2

theorem slash_intercalate {ts : List Bytes} (h : ts ≠ []) :
    slash :: [slash].intercalate ts = pathOf ts := by
  induction ts with
  | nil => exact absurd rfl h
  | cons t ts ih =>
    cases ts with
    | nil => simp [pathOf]
    | cons t' ts =>
      rw [intercalate_cons_of_ne_nil _ (by simp), ih (by simp), ← pathOf_cons]

section
variable {pregMatch : PregMatch} {route : RouteRewrite} {p : RewriteShape}

/-- Without a star the segments of a described URI are the ones that are taken. -/
theorem describes_plain (hs : p.star = false) {uri rest : Bytes} {ts : List Bytes}
    (h : p.Describes uri ts rest) : uri ≠ [] ∧ ∃ tail, takeSegs p.segs uri = some (ts, tail) := by
  obtain ⟨hall, hspell, -⟩ := h
  rw [hs, if_neg (by simp)] at hspell
  refine ⟨by simp [hspell], ?_⟩
  generalize p.segs = segs at hall ⊢
  cases hall with
  | nil => exact ⟨uri, rfl⟩
  | @cons seg t segs ts hseg hall =>
    rw [slash_intercalate (by simp)] at hspell
    refine ⟨[], ?_⟩
    have htake := takeSegs_complete (.cons hseg hall) (w := []) (Or.inl rfl)
    rwa [List.append_nil, ← hspell] at htake

theorem describes_star (hs : p.star = true) {uri rest : Bytes} {ts : List Bytes} :
    p.Describes uri ts rest ↔ takeSegs p.segs uri = some (ts, slash :: rest) := by
  constructor
  · rintro ⟨hall, hspell, -⟩
    rw [hs, if_pos rfl] at hspell
    rw [hspell]
    exact takeSegs_complete hall (Or.inr rfl)
  · intro h
    obtain ⟨hall, hu⟩ := takeSegs_sound h
    exact ⟨hall, by rw [hs, if_pos rfl, hu], by simp [hs]⟩

theorem match_plain (hp : Implements pregMatch) (hm : strtok slash route.match = p.texts)
    (hs : p.star = false) {uri : Bytes} (hu : uri ≠ []) :
    routeRewriteMatch pregMatch route uri =
      some ((takeSegs p.segs uri).map fun s => collect (segValues p.segs s.1)) := by
  rw [routeRewriteMatch_eq hp hm, if_neg (by simp [hu, hs])]
  cases takeSegs p.segs uri with
  | none => rfl
  | some s => simp [RewriteShape.behind, RewriteShape.result, hs]

theorem match_star (hp : Implements pregMatch) (hm : strtok slash route.match = p.texts)
    (hs : p.star = true) (hrest : routeRest ∉ segNames p.segs) {uri : Bytes}
    {ret : Table Key Zval} :
    routeRewriteMatch pregMatch route uri = some (some ret) ↔
      ∃ ts rest, p.Describes uri ts rest ∧ ret = p.result ts rest := by
  rw [routeRewriteMatch_eq hp hm, Option.some.injEq]
  constructor
  · intro h
    split at h
    · cases h
    · obtain ⟨⟨ts, w⟩, htake, hb⟩ := Option.bind_eq_some_iff.mp h
      obtain ⟨rest, hbehind, rfl⟩ := Option.map_eq_some_iff.mp hb
      rw [RewriteShape.behind, hs, if_pos rfl] at hbehind
      split at hbehind
      · rename_i hhead
        cases hbehind
        refine ⟨ts, w.tail, (describes_star hs).mpr ?_, rfl⟩
        rw [htake, List.cons_head?_tail (by simpa using hhead)]
      · cases hbehind
  · rintro ⟨ts, rest, hd, rfl⟩
    have hu : uri ≠ [] := by
      rintro rfl
      obtain ⟨-, hspell, -⟩ := hd
      rw [hs, if_pos rfl] at hspell
      simp at hspell
    rw [if_neg (by simp [hu, hrest]), (describes_star hs).mp hd]
    simp [RewriteShape.behind, hs]

/-- The segments of a described URI are determined. -/
theorem describes_unique {uri rest rest' : Bytes} {ts ts' : List Bytes}
    (h : p.Describes uri ts rest) (h' : p.Describes uri ts' rest') : ts = ts' ∧ rest = rest' := by
  cases hs : p.star with
  | false =>
    obtain ⟨-, tail, htake⟩ := describes_plain hs h
    obtain ⟨-, tail', htake'⟩ := describes_plain hs h'
    rw [htake] at htake'
    cases htake'
    exact ⟨rfl, by rw [h.ended hs, h'.ended hs]⟩
  | true =>
    have htake := (describes_star hs).mp h
    rw [(describes_star hs).mp h'] at htake
    cases htake
    exact ⟨rfl, rfl⟩

theorem find?_values {uri rest : Bytes} {ts : List Bytes} (hd : p.Describes uri ts rest)
    (hrest : routeRest ∉ segNames p.segs) {g : Bytes × Bytes} (hg : g ∈ segValues p.segs ts) :
    Table.find? (collect (segValues p.segs ts)) (.name g.1) = some (.string g.2) := by
  have hkeys := keys_segValues hd.segments
  have hn : (Table.keys (segValues p.segs ts)).Nodup := hkeys ▸ p.distinct
  rw [collect_eq_values (by rw [hkeys]; exact hrest) hn]
  apply Table.find?_of_mem
  · have he : Table.keys (valuesTable (segValues p.segs ts)) =
        (Table.keys (segValues p.segs ts)).map Key.name := by simp [Table.keys, valuesTable]
    rw [he]
    exact hn.map fun _ _ h => Key.name.inj h
  · exact List.mem_map.mpr ⟨g, hg, rfl⟩

theorem find?_result {ts : List Bytes} {rest : Bytes} (hs : p.star = true) (k : Key) :
    Table.find? (p.result ts rest) k = (Table.find? (routerParseParameters (firstLine rest)) k).or
      (Table.find? (collect (segValues p.segs ts)) k) := by
  have hres : p.result ts rest = Table.merge (collect (segValues p.segs ts))
      (routerParseParameters (firstLine rest)) := by
    rw [RewriteShape.result, hs, if_pos rfl, collect, List.foldl_append, ← collect]
    rfl
  rw [hres, Table.find?_merge (nodup_routerParseParameters _)]

/-- The rest of a described URI gives the result what it should exactly when it fits. -/
theorem reports_star {uri rest : Bytes} {ts : List Bytes} (hs : p.star = true)
    (hd : p.Describes uri ts rest) (hrest : routeRest ∉ segNames p.segs) :
    p.Reports ts rest (p.result ts rest) ↔ p.RestFits ts rest := by
  constructor
  · rintro ⟨hnames, hparams⟩
    constructor
    · intro g hg v hv
      have h := hnames g hg
      rw [find?_result hs, hv] at h
      simpa using h
    · intro k v hv
      have h := hparams hs k v hv
      rw [find?_result hs] at h
      cases hl : Table.find? (routerParseParameters (firstLine rest)) k with
      | some w =>
        rw [hl] at h
        exact Or.inl (by simpa using h)
      | none =>
        rw [hl, Option.none_or] at h
        apply Or.inr
        have hn : (Table.keys (segValues p.segs ts)).Nodup :=
          keys_segValues hd.segments ▸ p.distinct
        rw [collect_eq_values (by rw [keys_segValues hd.segments]; exact hrest) hn] at h
        obtain ⟨g, hg, he⟩ := List.mem_map.mp (Table.mem_of_find? h)
        cases he
        exact ⟨g, hg, rfl, rfl⟩
  · rintro ⟨hnames, hline⟩
    constructor
    · intro g hg
      rw [find?_result hs, find?_values hd hrest hg]
      cases hl : Table.find? (routerParseParameters (firstLine rest)) (.name g.1) with
      | none => rfl
      | some v => rw [hnames g hg v hl]; rfl
    · intro _ k v hv
      rw [find?_result hs]
      rcases hline k v hv with hl | ⟨g, hg, rfl, rfl⟩
      · rw [hl]
        rfl
      · rw [find?_values hd hrest hg]
        cases hl : Table.find? (routerParseParameters (firstLine rest)) (.name g.1) with
        | none => rfl
        | some v => rw [hnames g hg v hl]; rfl

/-- Without a star: nothing goes on behind a front the pattern describes, and no name of a described
URI is the one of the rest. -/
theorem match_plain_iff {pregMatch : PregMatch} {route : RouteRewrite} {p : RewriteShape}
    {uri : Bytes} (hp : Implements pregMatch) (hm : strtok slash route.match = p.texts)
    (hs : p.star = false) :
    MatchesDescribed pregMatch route p uri ↔
      p.EndsThere uri ∧ ∀ ts rest, p.Describes uri ts rest → routeRest ∉ segNames p.segs := by
  constructor
  · rintro ⟨haccepts, hreports⟩
    refine ⟨?_, ?_⟩
    · intro ts tail hu hall hspell
      obtain ⟨s, htake⟩ := takeSegs_front hall tail
      rw [← hspell] at htake
      obtain ⟨ts', rest, hd, -⟩ := hreports _ (by rw [match_plain hp hm hs hu, htake]; rfl)
      exact ⟨ts', hd.ended hs ▸ hd⟩
    · intro ts rest hd
      obtain ⟨hu, tail, htake⟩ := describes_plain hs hd
      obtain ⟨ts', rest', hd', hrep⟩ := hreports _ (by rw [match_plain hp hm hs hu, htake]; rfl)
      obtain ⟨rfl, rfl⟩ := describes_unique hd hd'
      intro hmem
      rw [← keys_segValues hd.segments] at hmem
      obtain ⟨g, hg, he⟩ := List.mem_map.mp hmem
      have hname := hrep.names g hg
      rw [he] at hname
      exact collect_reserved (segValues_slash hd.segments) g.2 hname
  · rintro ⟨hends, hdesc⟩
    have hmatch : ∀ ret, routeRewriteMatch pregMatch route uri = some (some ret) →
        ∃ ts rest, p.Describes uri ts rest ∧ ret = collect (segValues p.segs ts) := by
      intro ret h
      have hu : uri ≠ [] := by
        rintro rfl
        simp [routeRewriteMatch] at h
      rw [match_plain hp hm hs hu, Option.some.injEq] at h
      obtain ⟨⟨ts, w⟩, htake, rfl⟩ := Option.map_eq_some_iff.mp h
      obtain ⟨hall, hspell⟩ := takeSegs_sound htake
      obtain ⟨ts', hd⟩ := hends ts w hu hall hspell
      obtain ⟨-, tail, htake'⟩ := describes_plain hs hd
      rw [htake] at htake'
      cases htake'
      exact ⟨ts, [], hd, rfl⟩
    refine ⟨⟨?_, ?_⟩, ?_⟩
    · rintro ⟨ret, h⟩
      obtain ⟨ts, rest, hd, -⟩ := hmatch ret h
      exact ⟨ts, rest, hd⟩
    · rintro ⟨ts, rest, hd⟩
      obtain ⟨hu, tail, htake⟩ := describes_plain hs hd
      exact ⟨_, by rw [match_plain hp hm hs hu, htake]; rfl⟩
    · intro ret h
      obtain ⟨ts, rest, hd, rfl⟩ := hmatch ret h
      exact ⟨ts, rest, hd, fun g hg => find?_values hd (hdesc ts rest hd) hg, by simp [hs]⟩

/-- With a star the rest fits too. -/
theorem match_star_iff {pregMatch : PregMatch} {route : RouteRewrite} {p : RewriteShape}
    {uri : Bytes} (hp : Implements pregMatch) (hm : strtok slash route.match = p.texts)
    (hs : p.star = true) :
    MatchesDescribed pregMatch route p uri ↔
      ∀ ts rest, p.Describes uri ts rest → routeRest ∉ segNames p.segs ∧ p.RestFits ts rest := by
  constructor
  · rintro ⟨haccepts, hreports⟩
    intro ts rest hd
    have hrest : routeRest ∉ segNames p.segs := by
      intro hmem
      obtain ⟨ret, h⟩ := haccepts.mpr ⟨ts, rest, hd⟩
      rw [routeRewriteMatch_eq hp hm, if_pos (Or.inr ⟨hs, hmem⟩)] at h
      cases h
    refine ⟨hrest, ?_⟩
    obtain ⟨ts', rest', hd', hrep⟩ :=
      hreports _ ((match_star hp hm hs hrest).mpr ⟨ts, rest, hd, rfl⟩)
    obtain ⟨rfl, rfl⟩ := describes_unique hd hd'
    exact (reports_star hs hd hrest).mp hrep
  · intro hdesc
    have hmatch : ∀ ret, routeRewriteMatch pregMatch route uri = some (some ret) →
        ∃ ts rest, p.Describes uri ts rest ∧ ret = p.result ts rest := by
      intro ret h
      by_cases hmem : routeRest ∈ segNames p.segs
      · rw [routeRewriteMatch_eq hp hm, if_pos (Or.inr ⟨hs, hmem⟩)] at h
        cases h
      · exact (match_star hp hm hs hmem).mp h
    refine ⟨⟨?_, ?_⟩, ?_⟩
    · rintro ⟨ret, h⟩
      obtain ⟨ts, rest, hd, -⟩ := hmatch ret h
      exact ⟨ts, rest, hd⟩
    · rintro ⟨ts, rest, hd⟩
      exact ⟨_, (match_star hp hm hs (hdesc ts rest hd).1).mpr ⟨ts, rest, hd, rfl⟩⟩
    · intro ret h
      obtain ⟨ts, rest, hd, rfl⟩ := hmatch ret h
      obtain ⟨hrest, hfits⟩ := hdesc ts rest hd
      exact ⟨ts, rest, hd, (reports_star hs hd hrest).mpr hfits⟩

/-- A pattern matches exactly what it describes when, without a star, nothing goes on behind a
front it describes, when with a star the rest fits, and when no name of a described URI is the one
of the rest. -/
theorem rewrite_match_iff (pregMatch : PregMatch) (route : RouteRewrite) (p : RewriteShape)
    (uri : Bytes) (hp : Implements pregMatch) (hm : strtok slash route.match = p.texts) :
    MatchesDescribed pregMatch route p uri ↔
      (p.star = false → p.EndsThere uri) ∧
      ∀ ts rest, p.Describes uri ts rest →
        routeRest ∉ segNames p.segs ∧ (p.star = true → p.RestFits ts rest) := by
  cases hs : p.star with
  | false => simpa using match_plain_iff hp hm hs
  | true => simpa using match_star_iff hp hm hs

end

/-- The pattern `/:n`. -/
def nameShape : RewriteShape where
  segs := [.name [110]]
  star := false
  wellFormed := by
    intro seg h
    rw [List.mem_singleton.mp h]
    exact (by decide : isIdentifier [110] = true)
  short := by decide
  distinct := by decide

/-- The pattern `/a`. -/
def literalShape : RewriteShape where
  segs := [.literal [97]]
  star := false
  wellFormed := by
    intro seg h
    rw [List.mem_singleton.mp h]
    exact ⟨by decide, List.forall_mem_singleton.mpr (by decide)⟩
  short := by decide
  distinct := by decide

/-- The URI `/x` against `/:n`. -/
theorem rewrite_match_iff_sample :
    MatchesDescribed plainMatch ⟨[47, 58, 110], [], none⟩ nameShape [47, 120] := by
  refine (rewrite_match_iff plainMatch ⟨[47, 58, 110], [], none⟩ nameShape [47, 120]
    plainMatch_implements (by decide)).mpr ⟨?_, ?_⟩
  · intro _ ts tail _ _ _
    exact ⟨[[120]], .cons ⟨by decide, by decide⟩ .nil, by decide, fun _ => rfl⟩
  · intro ts rest _
    exact ⟨by decide, by intro h; cases h⟩

/-- `/a` matches `/ab`, and so does every text behind `/a`. -/
theorem rewrite_match_goes_on :
    ¬ MatchesDescribed plainMatch ⟨[47, 97], [], none⟩ literalShape [47, 97, 98] := by
  intro h
  obtain ⟨ts, rest, hd⟩ := h.accepts.mp ⟨collect [], by
    rw [match_plain plainMatch_implements (p := literalShape) (by decide) rfl (by decide)]
    rfl⟩
  obtain ⟨hu, tail, htake⟩ := describes_plain rfl hd
  have hts : ts = [[97]] := by
    have hrun : takeSegs literalShape.segs [47, 97, 98] = some ([[97]], [98]) := by decide
    rw [hrun] at htake
    cases htake
    rfl
  have hspell := hd.spelled
  rw [hts, if_neg (by decide)] at hspell
  exact absurd hspell (by decide)

end Yaf
