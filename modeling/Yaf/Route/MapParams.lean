import Yaf.Route.MapName
import Yaf.Route.Parameters

namespace Yaf
open Base

theorem strstr_skip_pieces {d : Bytes} {segs : List Bytes} (u : Bytes) (hslash : slash ∉ d)
    (hne : d ≠ []) (hsegs : ∀ s ∈ segs, ¬ d <:+: s) :
    strstr (segs.flatMap (slash :: ·) ++ slash :: (d ++ u)) d =
      some (segs.flatMap (slash :: ·) ++ [slash], u) := by
  have hnil : ¬ d <:+: [] := by simpa using hne
  -- the slash before a piece is the slash behind the piece before it
  suffices h : ∀ seg, ¬ d <:+: seg →
      strstr (seg ++ (segs.flatMap (slash :: ·) ++ slash :: (d ++ u))) d =
        some (seg ++ (segs.flatMap (slash :: ·) ++ [slash]), u) by
    simpa using h [] hnil
  induction segs with
  | nil =>
    intro seg hseg
    simp [strstr_skip_piece _ hslash hseg, strstr_here]
  | cons s segs ih =>
    intro seg hseg
    have hih := ih (fun t ht => hsegs t (List.mem_cons_of_mem _ ht)) s (hsegs s List.mem_cons_self)
    simp only [List.flatMap_cons, List.cons_append, List.append_assoc]
    rw [strstr_skip_piece _ hslash hseg, hih]
    simp

/-- The string entries of a query. -/
def named (query : Table Bytes Bytes) : Info := query.map fun p => (.name p.1, p.2)

/-- The text of the pairs. -/
def pairsText (query : Table Bytes Bytes) : Bytes :=
  query.flatMap fun p => slash :: p.1 ++ slash :: p.2

/-- The parameters hold every entry of the map and nothing else. An empty value may be null. -/
structure Carries (query : Table Bytes Bytes) (params : Table Key Zval) : Prop where
  keys : ∀ k, k ∈ Table.keys params ↔ ∃ p ∈ query, k = .name p.1
  values : ∀ p ∈ query, Table.find? params (.name p.1) = some (.string p.2) ∨
    p.2 = [] ∧ Table.find? params (.name p.1) = some .null

/-- Routing what the query assembles to gives a request without parameters those of the map. -/
def ParamsRoundTrip (route : RouteMap) (info : Table Key Zval) (query : Table Bytes Bytes) : Prop :=
  ∃ uri, routeMapAssemble route info (some (named query)) = .ok (some uri) ∧
    ∀ request : Request, request.uri = uri → request.baseUri = .string [] → request.params = [] →
      ∃ r, routeMapRoute route request = some (true, r) ∧ Carries query r.params

theorem mapAssembleQuery_named {route : RouteMap} {d : Bytes} (hd : route.delimiter = some d)
    (hne : d ≠ []) (query : Table Bytes Bytes) :
    mapAssembleQuery route (named query) = slash :: (d ++ pairsText query) := by
  cases d with
  | nil => exact absurd rfl hne
  | cons c d => simp [mapAssembleQuery, hd, named, pairsText, List.flatMap_map]

theorem routeMapAssemble_named {route : RouteMap} {info : Table Key Zval} {d name : Bytes}
    (hd : route.delimiter = some d) (hne : d ≠ [])
    (hname : Table.find? info route.assembleFormat.1 = some (.string name))
    (query : Table Bytes Bytes) :
    routeMapAssemble route info (some (named query)) =
      .ok (some ((strtok underscore name).flatMap (slash :: ·) ++
        slash :: (d ++ pairsText query))) := by
  rw [routeMapAssemble, hname]
  simp [mapAssembleQuery_named hd hne]

/-- The tokens of the pairs: an empty value leaves none. -/
def pairTokens (query : Table Bytes Bytes) : List Bytes :=
  query.flatMap fun p => if p.2 = [] then [p.1] else [p.1, p.2]

/-- A text a path can carry. -/
structure Carried (s : Bytes) : Prop where
  nul : NUL ∉ s
  slash : slash ∉ s

theorem strtok_pairsText {query : Table Bytes Bytes} (hk : ∀ p ∈ query, p.1 ≠ [])
    (hc : ∀ p ∈ query, Carried p.1 ∧ Carried p.2) :
    strtok slash (pairsText query) = pairTokens query := by
  have htext : pairsText query = (query.flatMap fun p => [p.1, p.2]).flatMap (slash :: ·) := by
    simp [pairsText, List.flatMap_assoc]
  have hnul : ∀ s ∈ query.flatMap fun p => [p.1, p.2], NUL ∉ s := by
    intro s hs
    obtain ⟨p, hp, hs⟩ := List.mem_flatMap.mp hs
    simp only [List.mem_cons, List.not_mem_nil, or_false] at hs
    rcases hs with rfl | rfl
    · exact (hc p hp).1.nul
    · exact (hc p hp).2.nul
  rw [htext, strtok_flatMap (by decide) hnul, List.flatMap_assoc, pairTokens]
  apply List.flatMap_congr
  intro p hp
  have h₁ := strtok_of_free (hc p hp).1.nul (hc p hp).1.slash
  have h₂ := strtok_of_free (hc p hp).2.nul (hc p hp).2.slash
  rw [if_neg (hk p hp)] at h₁
  by_cases hv : p.2 = []
  · simp [h₁, hv, strtok_nil]
  · simp [h₁, h₂, hv]

/-- What a map sends as parameters. -/
def sentPairs (query : Table Bytes Bytes) : Table Key Zval :=
  query.map fun p => (.name p.1, if p.2 = [] then .null else .string p.2)

theorem tokenPairs_append {query : Table Bytes Bytes} (h : ∀ p ∈ query, p.2 ≠ [])
    (segs : List Bytes) :
    tokenPairs (pairTokens query ++ segs) = sentPairs query ++ tokenPairs segs := by
  induction query with
  | nil => rfl
  | cons p query ih =>
    have hv := h p List.mem_cons_self
    have hih := ih fun r hr => h r (List.mem_cons_of_mem _ hr)
    rw [pairTokens, List.flatMap_cons, if_neg hv, ← pairTokens]
    simp only [List.cons_append, List.nil_append, tokenPairs, hih]
    simp [sentPairs, hv]

/-- A key that comes back as it is: not empty, and not too long for its length. -/
def KeyFits (key : Bytes) : Prop := key ≠ [] ∧ key.length < 2 ^ 32

theorem keptPairs_append {query : Table Bytes Bytes} (hk : ∀ p ∈ query, KeyFits p.1)
    (h : ∀ p ∈ query, p.2 ≠ []) (segs : List Bytes) :
    keptPairs (pairTokens query ++ segs) = sentPairs query ++ keptPairs segs := by
  induction query with
  | nil => rfl
  | cons p query ih =>
    have hv := h p List.mem_cons_self
    obtain ⟨hne, hshort⟩ := hk p List.mem_cons_self
    have hih := ih (fun r hr => hk r (List.mem_cons_of_mem _ hr))
      fun r hr => h r (List.mem_cons_of_mem _ hr)
    rw [pairTokens, List.flatMap_cons, if_neg hv, ← pairTokens]
    simp only [List.cons_append, List.nil_append, keptPairs_cons hne hshort, hih]
    simp [sentPairs, hv]

theorem tokenPairs_pairTokens {query : Table Bytes Bytes} (h : ∀ p ∈ query.dropLast, p.2 ≠ []) :
    tokenPairs (pairTokens query) = sentPairs query := by
  rcases List.eq_nil_or_concat query with rfl | ⟨init, p, rfl⟩
  · rfl
  · rw [List.concat_eq_append] at h ⊢
    rw [List.dropLast_concat] at h
    have happ : pairTokens (init ++ [p]) = pairTokens init ++ pairTokens [p] := by
      simp [pairTokens]
    rw [happ, tokenPairs_append h]
    by_cases hv : p.2 = [] <;> simp [pairTokens, sentPairs, tokenPairs, hv]

/-- Pairs whose keys fit are kept as they are sent. -/
theorem keptPairs_pairTokens {query : Table Bytes Bytes} (hk : ∀ p ∈ query, KeyFits p.1)
    (h : ∀ p ∈ query.dropLast, p.2 ≠ []) : keptPairs (pairTokens query) = sentPairs query := by
  rw [← tokenPairs_pairTokens h]
  apply keptPairs_of_fit
  · intro s hs
    obtain ⟨p, hp, hs⟩ := List.mem_flatMap.mp hs
    by_cases hv : p.2 = []
    · rw [if_pos hv, List.mem_singleton] at hs
      exact hs ▸ (hk p hp).1
    · rw [if_neg hv, List.mem_cons, List.mem_singleton] at hs
      rcases hs with rfl | rfl
      · exact (hk p hp).1
      · exact hv
  · intro key hkey
    rw [tokenPairs_pairTokens h] at hkey
    obtain ⟨r, hr, he⟩ := List.mem_map.mp hkey
    obtain ⟨p, hp, rfl⟩ := List.mem_map.mp hr
    obtain rfl := Key.name.inj he
    exact (hk p hp).2

theorem carries_sentPairs {query : Table Bytes Bytes} (hn : (Table.keys query).Nodup) :
    (Table.keys (sentPairs query)).Nodup ∧ Carries query (sentPairs query) := by
  have hkeys : Table.keys (sentPairs query) = (Table.keys query).map Key.name := by
    simp [Table.keys, sentPairs]
  have hnodup : (Table.keys (sentPairs query)).Nodup := by
    rw [hkeys]
    exact hn.map fun _ _ h => Key.name.inj h
  refine ⟨hnodup, ?_, ?_⟩
  · intro k
    rw [hkeys]
    simp only [Table.keys, List.map_map, List.mem_map, Function.comp_apply]
    constructor
    · rintro ⟨p, hp, rfl⟩
      exact ⟨p, hp, rfl⟩
    · rintro ⟨p, hp, rfl⟩
      exact ⟨p, hp, rfl⟩
  · intro p hp
    have hfind := Table.find?_of_mem hnodup (List.mem_map.mpr ⟨p, hp, rfl⟩)
    by_cases hv : p.2 = []
    · rw [if_pos hv] at hfind
      exact Or.inr ⟨hv, hfind⟩
    · rw [if_neg hv] at hfind
      exact Or.inl hfind

/-- The URI is cut at the delimiter, when no piece before it holds it. -/
theorem mapSplit_at_delimiter {route : RouteMap} {d q : Bytes} {segs : List Bytes}
    (hd : route.delimiter = some d) (hne : d ≠ []) (hslash : slash ∉ d) (hnul : NUL ∉ d)
    (hsegs : ∀ s ∈ segs, ¬ d <:+: s) (hq : q = [] ∨ q.head? = some slash) :
    mapSplit route (segs.flatMap (slash :: ·) ++ slash :: (d ++ q)) =
      some (segs.flatMap (slash :: ·) ++ [slash], if q = [] then none else some q) := by
  have hfind := strstr_skip_pieces q hslash hne hsegs
  cases d with
  | nil => exact absurd rfl hne
  | cons c ds =>
    rw [mapSplit, hd]
    simp only [cstr_of_no_nul hnul, hfind, List.length_cons, Nat.sub_self, Nat.not_lt_zero,
      ↓reduceIte, List.drop_zero]
    cases hp : segs.flatMap (slash :: ·) ++ [slash] with
    | nil => simp at hp
    | cons e es =>
      have hlast : (e :: es).getLast? = some slash := by rw [← hp]; simp
      rcases hq with rfl | hq
      · simp [hlast]
      · have hne : q ≠ [] := by
          rintro rfl
          simp at hq
        simp [hlast, hq, hne]

/-- Only the query part touches the parameters. -/
theorem routeMapRoute_of_split {route : RouteMap} {request : Request} {path : Bytes}
    {query : Option Bytes} (h : mapSplit route (cstr (stripBaseUri request)) = some (path, query)) :
    ∃ r, routeMapRoute route request = some (true, r) ∧
      r.params = Table.merge request.params ((query.map routerParseParameters).getD []) := by
  rw [routeMapRoute, h]
  simp only [Option.bind_eq_bind, Option.bind_some]
  cases query with
  | none =>
    refine ⟨_, rfl, ?_⟩
    cases strtok slash path with
    | nil => rfl
    | cons seg segs =>
      simp only
      split <;> rfl
  | some query =>
    refine ⟨_, rfl, ?_⟩
    cases strtok slash path with
    | nil => rfl
    | cons seg segs =>
      simp only [requestSetParamsMulti]
      split <;> rfl

/-- The pairs behind the delimiter become the parameters. -/
theorem routeMapRoute_params {route : RouteMap} {request : Request} {d : Bytes}
    {segs : List Bytes} {query : Table Bytes Bytes} (hd : route.delimiter = some d) (hne : d ≠ [])
    (hslash : slash ∉ d) (hnul : NUL ∉ d) (hsegs : ∀ s ∈ segs, NUL ∉ s ∧ ¬ d <:+: s)
    (huri : request.uri = segs.flatMap (slash :: ·) ++ slash :: (d ++ pairsText query))
    (hbase : request.baseUri = .string []) (hparams : request.params = []) :
    ∃ r, routeMapRoute route request = some (true, r) ∧
      r.params = Table.merge [] (keptPairs (strtok slash (pairsText query))) := by
  have hpath : NUL ∉ segs.flatMap (slash :: ·) ++ slash :: d := by
    intro h
    rcases List.mem_append.mp h with h | h
    · obtain ⟨s, hs, hm⟩ := List.mem_flatMap.mp h
      rcases List.mem_cons.mp hm with he | hm
      · exact absurd he (by decide)
      · exact (hsegs s hs).1 hm
    · rcases List.mem_cons.mp h with he | h
      · exact absurd he (by decide)
      · exact hnul h
  have hcut : cstr (stripBaseUri request) =
      segs.flatMap (slash :: ·) ++ slash :: (d ++ cstr (pairsText query)) := by
    rw [stripBaseUri_empty _ hbase, huri]
    simpa using cstr_append hpath (pairsText query)
  have htok : strtok slash (cstr (pairsText query)) = strtok slash (pairsText query) := by
    rw [strtok, strtok, cstr_of_no_nul (nul_not_mem_cstr _)]
  have hhead : cstr (pairsText query) = [] ∨ (cstr (pairsText query)).head? = some slash := by
    cases query with
    | nil => exact Or.inl rfl
    | cons p query => exact Or.inr rfl
  have hsplit := mapSplit_at_delimiter hd hne hslash hnul (fun s hs => (hsegs s hs).2) hhead
  rw [← hcut] at hsplit
  obtain ⟨r, hr, hp⟩ := routeMapRoute_of_split hsplit
  refine ⟨r, hr, ?_⟩
  rw [hp, hparams, ← htok]
  by_cases hnil : cstr (pairsText query) = []
  · simp [hnil, strtok_nil, keptPairs]
  · rw [if_neg hnil, Option.map_some, Option.getD_some, routerParseParameters, parseParametersGo_eq,
      Table.merge_nil_left (Table.nodup_merge (by simp) _)]

/-- The first empty value, when one stands before the last entry. -/
theorem exists_empty_value {query : Table Bytes Bytes} (h : ∃ p ∈ query.dropLast, p.2 = []) :
    ∃ pre k q post, query = pre ++ (k, []) :: q :: post ∧ ∀ p ∈ pre, p.2 ≠ [] := by
  induction query with
  | nil => simp at h
  | cons p query ih =>
    cases query with
    | nil => simp at h
    | cons q query =>
      by_cases hp : p.2 = []
      · exact ⟨[], p.1, q, query, by simp [← hp], by simp⟩
      · rw [List.dropLast_cons_cons] at h
        obtain ⟨r, hr, hv⟩ := h
        rcases List.mem_cons.mp hr with rfl | hr
        · exact absurd hv hp
        · obtain ⟨pre, k, q', post, hq, hpre⟩ := ih ⟨r, hr, hv⟩
          refine ⟨p :: pre, k, q', post, by rw [hq]; rfl, ?_⟩
          intro s hs
          rcases List.mem_cons.mp hs with rfl | hs
          · exact hp
          · exact hpre s hs

theorem length_pairTokens_le (query : Table Bytes Bytes) :
    (pairTokens query).length ≤ 2 * query.length := by
  induction query with
  | nil => simp [pairTokens]
  | cons p query ih =>
    rw [pairTokens, List.flatMap_cons, ← pairTokens, List.length_append, List.length_cons]
    split <;> simp only [List.length_cons, List.length_nil] <;> omega

/-- An empty value before the last entry takes the next key for its value, and the tokens behind
are too few to mend it: every pair they make is needed for a key that is still missing. -/
theorem values_of_carries {query : Table Bytes Bytes} (hn : (Table.keys query).Nodup)
    (hk : ∀ p ∈ query, KeyFits p.1)
    (h : Carries query (Table.merge [] (keptPairs (pairTokens query)))) :
    ∀ p ∈ query.dropLast, p.2 ≠ [] := by
  by_contra hno
  simp only [not_forall, not_not, exists_prop] at hno
  obtain ⟨pre, k, q, post, rfl, hpre⟩ := exists_empty_value hno
  obtain ⟨rest, hrest, hlen⟩ : ∃ rest, pairTokens (pre ++ (k, []) :: q :: post) =
      pairTokens pre ++ k :: q.1 :: rest ∧ rest.length ≤ 2 * post.length + 1 := by
    refine ⟨(if q.2 = [] then [] else [q.2]) ++ pairTokens post, ?_, ?_⟩
    · by_cases hq : q.2 = [] <;> simp [pairTokens, hq]
    · have hpost := length_pairTokens_le post
      rw [List.length_append]
      split <;> simp only [List.length_cons, List.length_nil] <;> omega
  have hpairs : keptPairs (pairTokens (pre ++ (k, []) :: q :: post)) =
      (sentPairs pre ++ [(.name k, .string q.1)]) ++ keptPairs rest := by
    obtain ⟨hne, hshort⟩ : KeyFits k := hk (k, []) (by simp)
    rw [hrest, keptPairs_append (fun p hp => hk p (by simp [hp])) hpre, keptPairs_cons hne hshort]
    simp
  rw [hpairs, Table.merge_append] at h
  have hnames : ((k :: q.1 :: Table.keys post).map Key.name).Nodup := by
    refine List.Nodup.map (fun _ _ h => Key.name.inj h) ?_
    simp only [Table.keys, List.map_append, List.map_cons] at hn
    exact (List.nodup_append.mp hn).2.1
  -- the keys behind the empty value are found behind it only
  have hmiss : ∀ s ∈ q.1 :: Table.keys post, Key.name s ∈ Table.keys (keptPairs rest) := by
    intro s hs
    obtain ⟨p, hp, rfl⟩ := List.mem_map.mp (show s ∈ Table.keys (q :: post) from hs)
    have hkey := (h.keys (.name p.1)).mpr ⟨p, by simp [List.mem_cons.mp hp], rfl⟩
    rcases Table.mem_keys_merge.mp hkey with hkey | hkey
    · rw [Table.mem_keys_merge] at hkey
      simp only [Table.keys, sentPairs, List.map_append, List.map_map, List.mem_append,
        List.map_cons, List.map_nil, List.mem_singleton, List.not_mem_nil, false_or, List.mem_map,
        Function.comp_apply, Key.name.injEq] at hkey
      simp only [Table.keys, List.map_append, List.map_cons] at hn
      obtain ⟨-, hnk, hdis⟩ := List.nodup_append.mp hn
      rcases hkey with ⟨r, hr, he⟩ | he
      · exact absurd he (hdis r.1 (List.mem_map_of_mem hr) p.1 (List.mem_cons_of_mem _ hs))
      · exact absurd (he ▸ hs) (List.nodup_cons.mp hnk).1
    · exact hkey
  have hfree : Key.name k ∉ Table.keys (keptPairs rest) := by
    intro hmem
    have hsub : (k :: q.1 :: Table.keys post).map Key.name ⊆ Table.keys (keptPairs rest) := by
      intro s hs
      obtain ⟨t, ht, rfl⟩ := List.mem_map.mp hs
      rcases List.mem_cons.mp ht with rfl | ht
      · exact hmem
      · exact hmiss t ht
    have hle := hnames.length_le_of_subset hsub
    have hpairs := length_keptPairs_le rest
    simp only [Table.keys, List.length_map, List.length_cons] at hle
    omega
  have hfind :
    Table.find? (Table.merge (Table.merge [] (sentPairs pre ++ [(Key.name k, .string q.1)]))
      (keptPairs rest)) (.name k) = some (.string q.1) := by
    rw [Table.find?_merge_of_not_mem hfree, Table.merge_append, Table.merge_cons, Table.merge_nil,
      Table.find?_update_self]
  have hval := h.values (k, []) (by simp)
  simp only [hfind, Option.some.injEq, Zval.string.injEq, true_and, reduceCtorEq, or_false] at hval
  exact (hk q (by simp)).1 hval

/-- What comes back holds no NUL. -/
theorem carried_of_carries {query : Table Bytes Bytes} (hs : ∀ p ∈ query, slash ∉ p.1 ∧ slash ∉ p.2)
    (h : Carries query (Table.merge [] (keptPairs (strtok slash (pairsText query))))) :
    ∀ p ∈ query, Carried p.1 ∧ Carried p.2 := by
  intro p hp
  refine ⟨⟨?_, (hs p hp).1⟩, ⟨?_, (hs p hp).2⟩⟩
  · have hkey := (h.keys (.name p.1)).mpr ⟨p, hp, rfl⟩
    rcases Table.mem_keys_merge.mp hkey with hkey | hkey
    · simp at hkey
    · obtain ⟨q, hmem, he⟩ := List.mem_map.mp hkey
      obtain ⟨⟨s, hs, hk⟩, -⟩ := mem_keptPairs hmem
      rw [he] at hk
      rw [Key.name.inj hk]
      exact fun hm => (mem_strtok hs).2.1 (uintPrefix_subset s hm)
  · rcases h.values p hp with hv | ⟨hv, -⟩
    · rcases Table.mem_merge (Table.mem_of_find? hv) with hmem | hmem
      · simp at hmem
      · obtain ⟨-, he | ⟨s, hs, he⟩⟩ := mem_keptPairs hmem
        · cases he
        · cases he
          exact (mem_strtok hs).2.1
    · simp [hv]

/-- What comes back has keys whose lengths are kept. -/
theorem short_of_carries {query : Table Bytes Bytes} {segs : List Bytes}
    (h : Carries query (Table.merge [] (keptPairs segs))) : ∀ p ∈ query, p.1.length < 2 ^ 32 := by
  intro p hp
  have hkey := (h.keys (.name p.1)).mpr ⟨p, hp, rfl⟩
  rcases Table.mem_keys_merge.mp hkey with hkey | hkey
  · simp at hkey
  · exact short_of_keptPairs hkey

/-- The pieces of a name are the segments of its path, up to a NUL. -/
theorem piece_of_strtok {d name s : Bytes}
    (hpieces : ∀ p ∈ name.splitOn underscore, ¬ d <:+: p) (hs : s ∈ strtok underscore name) :
    NUL ∉ s ∧ ¬ d <:+: s := by
  obtain ⟨p, hp, hsp⟩ := strtok_front hs
  exact ⟨(mem_strtok hs).2.1, fun h => hpieces p hp (h.trans hsp.isInfix)⟩

/-- Without a NUL in the delimiter the parameters are those of the tokens behind it. -/
theorem paramsRoundTrip_iff {route : RouteMap} {d name : Bytes} {info : Table Key Zval}
    {query : Table Bytes Bytes} (hd : route.delimiter = some d) (hne : d ≠ []) (hslash : slash ∉ d)
    (hnul : NUL ∉ d) (hname : Table.find? info route.assembleFormat.1 = some (.string name))
    (hpieces : ∀ s ∈ name.splitOn underscore, ¬ d <:+: s) :
    ParamsRoundTrip route info query ↔
      Carries query (Table.merge [] (keptPairs (strtok slash (pairsText query)))) := by
  have hasm := routeMapAssemble_named hd hne hname query
  have hsegs : ∀ s ∈ strtok underscore name, NUL ∉ s ∧ ¬ d <:+: s := fun s hs =>
    piece_of_strtok hpieces hs
  constructor
  · rintro ⟨uri, hasm', hroute⟩
    rw [hasm] at hasm'
    cases hasm'
    obtain ⟨r, hr, hcarries⟩ := hroute (freshRequest _) rfl rfl rfl
    obtain ⟨r', hr', hp⟩ := routeMapRoute_params hd hne hslash hnul hsegs
      (show (freshRequest _).uri = _ from rfl) rfl rfl
    rw [hr] at hr'
    cases hr'
    exact hp ▸ hcarries
  · intro h
    refine ⟨_, hasm, ?_⟩
    intro request huri hbase hparams
    obtain ⟨r, hr, hp⟩ := routeMapRoute_params hd hne hslash hnul hsegs huri hbase hparams
    exact ⟨r, hr, hp ▸ h⟩

/-- The parameters come back when no text holds a NUL, 32 bits hold the lengths of the keys and no
value but the last is empty, and only then, a delimiter with a NUL apart. -/
theorem map_params_round_trip (route : RouteMap) (d : Bytes) (info : Table Key Zval) (name : Bytes)
    (query : Table Bytes Bytes) (hd : route.delimiter = some d) (hne : d ≠ []) (hslash : slash ∉ d)
    (hname : Table.find? info route.assembleFormat.1 = some (.string name))
    (hpieces : ∀ s ∈ name.splitOn underscore, s ≠ [] ∧ slash ∉ s ∧ ¬ d <:+: s)
    (hkeys : (Table.keys query).Nodup)
    (hquery : ∀ p ∈ query, p.1 ≠ [] ∧ slash ∉ p.1 ∧ slash ∉ p.2) :
    (NUL ∉ d ∧ (∀ p ∈ query, NUL ∉ p.1 ∧ NUL ∉ p.2) ∧ (∀ p ∈ query, p.1.length < 2 ^ 32) ∧
        (∀ p ∈ query.dropLast, p.2 ≠ []) →
      ParamsRoundTrip route info query) ∧
    (ParamsRoundTrip route info query →
      NUL ∈ d ∨ (∀ p ∈ query, NUL ∉ p.1 ∧ NUL ∉ p.2) ∧ (∀ p ∈ query, p.1.length < 2 ^ 32) ∧
        ∀ p ∈ query.dropLast, p.2 ≠ []) := by
  have hinfix : ∀ s ∈ name.splitOn underscore, ¬ d <:+: s := fun s hs => (hpieces s hs).2.2
  constructor
  · rintro ⟨hnul, hfree, hshort, hvals⟩
    obtain ⟨hnodup, hcarries⟩ := carries_sentPairs hkeys
    have hcarried : ∀ p ∈ query, Carried p.1 ∧ Carried p.2 := fun p hm =>
      ⟨⟨(hfree p hm).1, (hquery p hm).2.1⟩, ⟨(hfree p hm).2, (hquery p hm).2.2⟩⟩
    rw [paramsRoundTrip_iff hd hne hslash hnul hname hinfix,
      strtok_pairsText (fun p hm => (hquery p hm).1) hcarried,
      keptPairs_pairTokens (fun p hm => ⟨(hquery p hm).1, hshort p hm⟩) hvals,
      Table.merge_nil_left hnodup]
    exact hcarries
  · intro h
    by_cases hnul : NUL ∈ d
    · exact Or.inl hnul
    · apply Or.inr
      rw [paramsRoundTrip_iff hd hne hslash hnul hname hinfix] at h
      have hcarried := carried_of_carries (fun p hm => (hquery p hm).2) h
      have hshort := short_of_carries h
      refine ⟨fun p hm => ⟨(hcarried p hm).1.nul, (hcarried p hm).2.nul⟩, hshort, ?_⟩
      rw [strtok_pairsText (fun p hm => (hquery p hm).1) hcarried] at h
      exact values_of_carries hkeys (fun p hm => ⟨(hquery p hm).1, hshort p hm⟩) h

/-- The last of two values is empty. -/
theorem map_params_round_trip_sample :
    ParamsRoundTrip ⟨false, some [95]⟩ [(assembleControllerFormat, .string [102])]
      [([97], [98]), ([99], [])] := by
  refine (map_params_round_trip ⟨false, some [95]⟩ [95] [(assembleControllerFormat, .string [102])]
    [102] [([97], [98]), ([99], [])] rfl (by decide) (by decide) ?_ (by decide) (by decide)
    (by decide)).1 (by decide)
  simp [Table.find?, RouteMap.assembleFormat]

/-- The first of two values is empty: the key behind it becomes its value, and is lost. -/
theorem map_empty_value_shifts :
    ¬ ParamsRoundTrip ⟨false, some [95]⟩ [(assembleControllerFormat, .string [102])]
      [([97], []), ([98], [99])] := by
  intro h
  have hname : Table.find? [(assembleControllerFormat, Zval.string [102])]
      (RouteMap.assembleFormat ⟨false, some [95]⟩).1 = some (.string [102]) := by
    simp [Table.find?, RouteMap.assembleFormat]
  have hcarries := (paramsRoundTrip_iff rfl (by decide) (by decide) (by decide) hname
    (by decide)).mp h
  exact absurd ((hcarries.keys (.name [98])).mpr ⟨([98], [99]), by decide, rfl⟩) (by decide)

end Yaf
