import Yaf.Php.Url
import Yaf.Router

namespace Yaf
open Base

/-- The values as `zval_get_string` gives them. -/
def infoTexts (info : Table Key InfoValue) : Info := info.map fun p => (p.1, p.2.text)

/-- A value as a route sees it that takes strings only. -/
def InfoValue.zval (v : InfoValue) : Zval := if v.isString then .string v.text else .null

def infoZvals (info : Table Key InfoValue) : Table Key Zval := info.map fun p => (p.1, p.2.zval)

namespace BuiltinRoute

/-- The `assemble` method of the built-in classes: undefined behaviour, an error, null or a URL. -/
def assemble (info : Table Key InfoValue) (query : Option (Table Key InfoValue)) :
    BuiltinRoute → Option (Except Trigger (Option Bytes))
  | .static => some ((routeStaticAssemble (infoTexts info) (query.map infoTexts)).map some)
  | .map route => some (routeMapAssemble route (infoZvals info) (query.map infoTexts))
  | .rewrite route =>
    (routeRewriteAssemble route info (query.map infoTexts)).map fun uri => .ok (some uri)
  | .regex route => (routeRegexAssemble route info query).map fun r => r.map some
  | .simple route => some ((routeSimpleAssemble route (infoTexts info) (query.map infoTexts)).map
      some)
  | .supervar varname =>
    some ((routeSupervarAssemble varname (infoTexts info) (query.map infoTexts)).map some)

/-- The assembler writes the query as a query: a map route does so without a delimiter. -/
def WritesQuery : BuiltinRoute → Prop
  | .map route => route.delimiter.getD [] = []
  | _ => True

/-- The pairs a route writes itself in front of the query. -/
def ownPairs (info : Table Key InfoValue) : BuiltinRoute → List (Bytes × Bytes)
  | .simple route =>
    ((Table.find? info assembleModuleFormat).map fun v => (route.module, v.text)).toList ++
      ((Table.find? info assembleControllerFormat).map fun v =>
        (route.controller, v.text)).toList ++
      ((Table.find? info assembleActionFormat).map fun v => (route.action, v.text)).toList
  | .supervar varname =>
    match assemblePath (infoTexts info) with
    | .ok path => [(varname, path)]
    | .error _ => []
  | _ => []

/-- The texts of the route, and of the keys of the info, that go into a URL. -/
def texts (info : Table Key InfoValue) : BuiltinRoute → List Bytes
  | .rewrite route => route.match :: info.filterMap fun p => p.1.name?
  | .regex route => route.reverse.toList
  | .simple route => [route.module, route.controller, route.action]
  | .supervar varname => [varname]
  | _ => []

end BuiltinRoute

/-- A map of string keys to string values, as a query. -/
def queryOf (pairs : List (Bytes × Bytes)) : Table Key InfoValue :=
  pairs.map fun p => (.name p.1, ⟨true, p.2⟩)

/-- The pairs in the query part of a URL. -/
def decodeQuery (url : Bytes) : List (Bytes × Bytes) := decodePairs (urlQuery url)

/-- The characters that mean something in the query of a URL: `?&=#%+`. -/
def reserved : Bytes := [63, 38, 61, 35, 37, 43]

def Unreserved (s : Bytes) : Prop := ∀ c ∈ reserved, c ∉ s

/-- The query of an assembled URL decodes to the pairs of the route and those of the map, different
maps give different URLs, and an empty map adds nothing. -/
structure QueryDecodes (route : BuiltinRoute) (info : Table Key InfoValue) : Prop where
  decodes : ∀ pairs url, (∀ p ∈ pairs, p.1 ≠ []) →
    route.assemble info (some (queryOf pairs)) = some (.ok (some url)) →
    decodeQuery url = route.ownPairs info ++ pairs
  injective : ∀ pairs pairs' url, (∀ p ∈ pairs, p.1 ≠ []) → (∀ p ∈ pairs', p.1 ≠ []) →
    route.assemble info (some (queryOf pairs)) = some (.ok (some url)) →
    route.assemble info (some (queryOf pairs')) = some (.ok (some url)) → pairs = pairs'
  empty : route.assemble info (some []) = route.assemble info none

/-- The same for the maps that need no encoding: these decode, and no others. -/
structure PlainQueryDecodes (route : BuiltinRoute) (info : Table Key InfoValue) : Prop where
  decodes : ∀ pairs url, (∀ p ∈ pairs, p.1 ≠ []) →
    route.assemble info (some (queryOf pairs)) = some (.ok (some url)) →
    (decodeQuery url = route.ownPairs info ++ pairs ↔ ∀ p ∈ pairs, PlainPair p)
  injective : ∀ pairs pairs' url, (∀ p ∈ pairs, p.1 ≠ [] ∧ PlainPair p) →
    (∀ p ∈ pairs', p.1 ≠ [] ∧ PlainPair p) →
    route.assemble info (some (queryOf pairs)) = some (.ok (some url)) →
    route.assemble info (some (queryOf pairs')) = some (.ok (some url)) → pairs = pairs'
  empty : route.assemble info (some []) = route.assemble info none

section
variable {s t : Bytes} {pairs : List (Bytes × Bytes)} {info : Table Key InfoValue}

theorem Unreserved.append (hs : Unreserved s) (ht : Unreserved t) : Unreserved (s ++ t) := by
  intro c hc hm
  rcases List.mem_append.mp hm with hm | hm
  · exact hs c hc hm
  · exact ht c hc hm

theorem Unreserved.cons {c : UInt8} (hc : c ∉ reserved) (hs : Unreserved s) :
    Unreserved (c :: s) := by
  intro d hd hm
  rcases List.mem_cons.mp hm with rfl | hm
  · exact hc hd
  · exact hs d hd hm

theorem Unreserved.subset (ht : Unreserved t) (h : s ⊆ t) : Unreserved s :=
  fun c hc hm => ht c hc (h hm)

theorem unreserved_nil : Unreserved [] := fun _ _ h => by cases h

theorem Unreserved.replaceAll {needle : Bytes} (hs : Unreserved s) (ht : Unreserved t) :
    Unreserved (replaceAll needle s t) :=
  fun c hc => not_mem_replaceAll (hs c hc) (ht c hc)

/-- A text without reserved characters is plain wherever it stands. -/
theorem Unreserved.plain (hs : Unreserved s) (ht : Unreserved t) : PlainPair (s, t) where
  key := ⟨hs _ (by decide), hs _ (by decide)⟩
  equals := hs _ (by decide)
  value := ⟨ht _ (by decide), ht _ (by decide)⟩
  decoded := ⟨urlDecode_of_not_mem (hs _ (by decide)) (hs _ (by decide)),
    urlDecode_of_not_mem (ht _ (by decide)) (ht _ (by decide))⟩

/-- A query with its question mark. -/
def queryString (pairs : List (Bytes × Bytes)) : Bytes :=
  if pairs = [] then [] else questionMark :: queryText pairs

/-- The query part behind a path. -/
theorem urlQuery_append (hs : Unreserved s) (pairs : List (Bytes × Bytes)) :
    urlQuery (s ++ queryString pairs) = untilHash (queryText pairs) := by
  have hhash : ∀ c ∈ s, (c != hash) = true := bne_of_not_mem (hs _ (by decide))
  have hmark : ∀ c ∈ s, (c != questionMark) = true := bne_of_not_mem (hs _ (by decide))
  rw [urlQuery, List.takeWhile_append_of_pos hhash, List.dropWhile_append_of_pos hmark, queryString]
  by_cases hnil : pairs = []
  · subst hnil
    rfl
  · rw [if_neg hnil, List.takeWhile_cons_of_pos (by decide), List.dropWhile_cons_of_neg (by decide),
      List.tail_cons, untilHash]

theorem queryText_eq (p : Bytes × Bytes) (pairs : List (Bytes × Bytes)) :
    queryText (p :: pairs) = pairText p ++ pairs.flatMap fun q => ampersand :: pairText q := by
  induction pairs generalizing p with
  | nil => simp [queryText, List.intercalate]
  | cons q pairs ih =>
    rw [queryText, List.map_cons, intercalate_cons_of_ne_nil ampersand (by simp), ← queryText, ih,
      List.flatMap_cons, List.cons_append]

theorem queryPairs_queryOf (pairs : List (Bytes × Bytes)) :
    queryPairs (infoTexts (queryOf pairs)) = pairs.map pairText := by
  induction pairs with
  | nil => rfl
  | cons p pairs ih => exact congrArg (pairText p :: ·) ih

/-- The separator before each pair but the first. -/
theorem queryString_cons (p : Bytes × Bytes) (pairs : List (Bytes × Bytes)) :
    queryString (p :: pairs) =
      63 :: pairText p ++ (pairs.map pairText).flatMap fun text => 38 :: text := by
  rw [queryString, if_neg (List.cons_ne_nil p pairs), queryText_eq, List.flatMap_map]
  rfl

/-- A separator behind each pair, the last one taken off again. -/
theorem rewriteQuery_queryOf (pairs : List (Bytes × Bytes)) :
    rewriteQuery (infoTexts (queryOf pairs)) = queryString pairs := by
  have htail : ∀ pairs : List (Bytes × Bytes), pairs ≠ [] →
      (pairs.map pairText).flatMap (fun text => text ++ [38]) = queryText pairs ++ [38] := by
    intro pairs hne
    induction pairs with
    | nil => exact absurd rfl hne
    | cons p pairs ih =>
      by_cases hnil : pairs = []
      · subst hnil
        simp [queryText, List.intercalate]
      · have hcons : queryText (p :: pairs) = pairText p ++ ampersand :: queryText pairs := by
          rw [queryText, List.map_cons, intercalate_cons_of_ne_nil ampersand (by simpa using hnil),
            ← queryText]
        rw [List.map_cons, List.flatMap_cons, ih hnil, hcons]
        simp [ampersand]
  rw [rewriteQuery, queryPairs_queryOf, queryString]
  by_cases hnil : pairs = []
  · subst hnil
    rfl
  · rw [if_neg hnil, htail pairs hnil, ← List.cons_append, List.dropLast_concat]
    rfl

theorem mem_infoTexts {P : Bytes → Prop} (h : ∀ p ∈ info, P p.2.text) :
    ∀ p ∈ infoTexts info, P p.2 := by
  intro p hp
  obtain ⟨q, hq, rfl⟩ := List.mem_map.mp hp
  exact h q hq

theorem assemblePath_ok {info : Info} {path : Bytes} (hinfo : ∀ p ∈ info, Unreserved p.2)
    (h : assemblePath info = .ok path) : Unreserved path := by
  have hval : ∀ {k v}, Table.find? info k = some v → Unreserved (slash :: v) := fun hv =>
    (hinfo _ (Table.mem_of_find? hv)).cons (by decide)
  unfold assemblePath at h
  dsimp only at h
  split at h
  · cases h
  · rename_i c hc
    split at h
    · cases h
    · rename_i a ha
      cases h
      rw [List.append_assoc]
      refine Unreserved.append ?_ ((hval hc).append (hval ha))
      split
      · rename_i m hm
        exact hval hm
      · exact unreserved_nil

theorem routeStaticAssemble_eq {url : Bytes} (hinfo : ∀ p ∈ info, Unreserved p.2.text)
    (h : routeStaticAssemble (infoTexts info) (some (infoTexts (queryOf pairs))) = .ok url) :
    ∃ path, Unreserved path ∧ url = path ++ queryString pairs := by
  unfold routeStaticAssemble at h
  cases hpath : assemblePath (infoTexts info) with
  | error e => rw [hpath] at h; cases h
  | ok path =>
    rw [hpath, Option.getD_some, queryPairs_queryOf] at h
    refine ⟨path, assemblePath_ok (mem_infoTexts hinfo) hpath, ?_⟩
    cases pairs with
    | nil =>
      cases h
      exact (List.append_nil _).symm
    | cons p pairs =>
      cases h
      rw [queryString_cons, ← List.append_assoc]

theorem routeSupervarAssemble_eq {varname url : Bytes}
    (h : routeSupervarAssemble varname (infoTexts info) (some (infoTexts (queryOf pairs))) =
      .ok url) : ∃ path, assemblePath (infoTexts info) = .ok path ∧
        url = queryString ((varname, path) :: pairs) := by
  unfold routeSupervarAssemble at h
  cases hpath : assemblePath (infoTexts info) with
  | error e => rw [hpath] at h; cases h
  | ok path =>
    rw [hpath, Option.getD_some, queryPairs_queryOf] at h
    cases h
    exact ⟨path, rfl, by rw [queryString_cons]; rfl⟩

theorem routeSimpleAssemble_eq {route : RouteSimple} {url : Bytes}
    (h : routeSimpleAssemble route (infoTexts info) (some (infoTexts (queryOf pairs))) = .ok url) :
    url = queryString ((BuiltinRoute.simple route).ownPairs info ++ pairs) := by
  unfold routeSimpleAssemble at h
  rw [infoTexts, Table.find?_map_values, Table.find?_map_values, Table.find?_map_values] at h
  dsimp only at h
  rw [Option.getD_some, queryPairs_queryOf] at h
  unfold BuiltinRoute.ownPairs
  cases hc : Table.find? info assembleControllerFormat with
  | none => rw [hc] at h; cases h
  | some c =>
    cases ha : Table.find? info assembleActionFormat with
    | none => rw [hc, ha] at h; cases h
    | some a =>
      rw [hc, ha] at h
      cases hm : Table.find? info assembleModuleFormat with
      | none =>
        rw [hm] at h
        cases h
        simp only [Option.map_none, Option.map_some, Option.toList_none, Option.toList_some,
          List.nil_append, List.cons_append]
        rw [queryString_cons]
        simp [pairText, equalsSign]
      | some m =>
        rw [hm] at h
        cases h
        simp only [Option.map_some, Option.toList_some, List.nil_append, List.cons_append]
        rw [queryString_cons]
        simp [pairText, equalsSign]

theorem unreserved_flatMap {segs : List Bytes} (h : ∀ s ∈ segs, Unreserved s) :
    Unreserved (segs.flatMap (slash :: ·)) := by
  intro c hc hm
  obtain ⟨s, hs, hm⟩ := List.mem_flatMap.mp hm
  exact (h s hs).cons (by decide) c hc hm

theorem unreserved_strtok {c : UInt8} (hs : Unreserved s) : ∀ t ∈ strtok c s, Unreserved t := by
  intro t ht
  have hpiece := (List.mem_filter.mp ht).1
  exact hs.subset fun d hd => (List.takeWhile_prefix _).subset (mem_of_mem_splitOn hpiece hd)

theorem routeMapAssemble_eq {route : RouteMap} {url : Bytes} (hd : route.delimiter.getD [] = [])
    (hinfo : ∀ p ∈ info, Unreserved p.2.text)
    (h : routeMapAssemble route (infoZvals info) (some (infoTexts (queryOf pairs))) =
      .ok (some url)) : ∃ path, Unreserved path ∧ url = path ++ queryString pairs := by
  have hquery : mapAssembleQuery route (infoTexts (queryOf pairs)) = queryString pairs := by
    unfold mapAssembleQuery
    split
    · rename_i d ds hsome
      rw [hsome] at hd
      cases hd
    · rw [queryPairs_queryOf]
      cases pairs with
      | nil => rfl
      | cons p pairs => rw [queryString_cons]; rfl
  unfold routeMapAssemble at h
  split at h
  · rename_i pname hpname
    rw [infoZvals, Table.find?_map_values] at hpname
    obtain ⟨v, hv, hzval⟩ := Option.map_eq_some_iff.mp hpname
    have hname : Unreserved pname := by
      unfold InfoValue.zval at hzval
      split at hzval
      · cases hzval
        exact hinfo _ (Table.mem_of_find? hv)
      · cases hzval
    refine ⟨_, unreserved_flatMap (unreserved_strtok (c := underscore) hname), ?_⟩
    dsimp only at h
    rw [Option.map_some, Option.getD_some, hquery, Except.ok.injEq] at h
    split at h
    · cases h
    · exact (Option.some.inj h).symm
  · cases h

/-- The entries a star may take: their values and the names of their keys. -/
def UnreservedInfo (pidents : Table Key InfoValue) : Prop :=
  ∀ p ∈ pidents, Unreserved p.2.text ∧ ∀ key ∈ p.1.name?, Unreserved key

theorem wildcardText_unreserved {pidents : Table Key InfoValue} {w : Bytes}
    (hp : UnreservedInfo pidents) (h : wildcardText pidents = some w) : Unreserved w := by
  induction pidents using wildcardText.induct generalizing w with
  | case1 =>
    cases h
    exact unreserved_nil
  | case2 i v pidents ih =>
    exact ih (fun p hm => hp p (List.mem_cons_of_mem _ hm)) h
  | case3 v pidents hs =>
    rw [wildcardText, if_pos hs] at h
    cases h
  | case4 v pidents hs ih =>
    rw [wildcardText, if_neg hs] at h
    exact ih (fun p hm => hp p (List.mem_cons_of_mem _ hm)) h
  | case5 c key v pidents hs ih =>
    rw [wildcardText, if_pos hs] at h
    obtain ⟨rest, hrest, rfl⟩ := Option.map_eq_some_iff.mp h
    obtain ⟨hvalue, hkey⟩ := hp _ List.mem_cons_self
    have hname : Unreserved key := (hkey (c :: key) rfl).subset (List.subset_cons_self c key)
    have hih := ih (fun p hm => hp p (List.mem_cons_of_mem _ hm)) hrest
    have hslash : slash ∉ reserved := by decide
    exact (hname.append (Unreserved.cons hslash hvalue)).append (Unreserved.cons hslash hih)
  | case6 c key v pidents hs ih =>
    rw [wildcardText, if_neg hs] at h
    exact ih (fun p hm => hp p (List.mem_cons_of_mem _ hm)) h

theorem assembleSegments_unreserved {segs : List Bytes} {uri uri' : Bytes}
    {pidents : Table Key InfoValue} (hinfo : ∀ p ∈ info, Unreserved p.2.text)
    (hp : UnreservedInfo pidents) (huri : Unreserved uri)
    (h : assembleSegments info pidents uri segs = some uri') : Unreserved uri' := by
  induction segs generalizing pidents uri with
  | nil =>
    cases h
    exact huri
  | cons seg segs ih =>
    rw [assembleSegments] at h
    split at h
    · split at h
      · cases h
      · cases h
      · rename_i w _ hw
        cases h
        exact (wildcardText_unreserved hp hw).replaceAll huri
    · split at h
      · split at h
        · rename_i v hv
          refine ih (fun p hm => hp p ?_)
            ((hinfo _ (Table.mem_of_find? hv)).replaceAll huri) h
          exact Table.mem_of_mem_erase hm
        · exact ih hp huri h
      · exact ih hp huri h

theorem routeRewriteAssemble_eq {route : RouteRewrite} {url : Bytes}
    (hinfo : ∀ p ∈ info, Unreserved p.2.text)
    (htexts : ∀ t ∈ (BuiltinRoute.rewrite route).texts info, Unreserved t)
    (h : routeRewriteAssemble route info (some (infoTexts (queryOf pairs))) = some url) :
    ∃ path, Unreserved path ∧ url = path ++ queryString pairs := by
  obtain ⟨path, hpath, rfl⟩ := Option.map_eq_some_iff.mp h
  rw [Option.map_some, Option.getD_some, rewriteQuery_queryOf]
  refine ⟨path, assembleSegments_unreserved hinfo (fun p hp => ⟨hinfo p hp, ?_⟩)
    (htexts _ List.mem_cons_self) hpath, rfl⟩
  intro key hkey
  exact htexts key (List.mem_cons_of_mem _ (List.mem_filterMap.mpr ⟨p, hp, hkey⟩))

theorem reverseName_unreserved (fmt : Bytes) {uri : Bytes} (hinfo : ∀ p ∈ info, Unreserved p.2.text)
    (huri : Unreserved uri) : Unreserved (reverseName info fmt uri) := by
  unfold reverseName
  split
  · rename_i v hv
    exact (hinfo _ (Table.mem_of_find? hv)).replaceAll huri
  · exact huri

theorem routeRegexAssemble_eq {route : RouteRegex} {url : Bytes}
    (hinfo : ∀ p ∈ info, Unreserved p.2.text)
    (htexts : ∀ t ∈ (BuiltinRoute.regex route).texts info, Unreserved t)
    (h : routeRegexAssemble route info (some (queryOf pairs)) = some (.ok url)) :
    ∃ path, Unreserved path ∧ url = path ++ queryString pairs := by
  unfold routeRegexAssemble at h
  split at h
  · cases h
  · rename_i reverse hreverse
    dsimp only at h
    split at h
    · cases h
    · split at h
      · cases h
      · have hclean : Unreserved reverse :=
          htexts reverse (by rw [BuiltinRoute.texts, hreverse]; exact List.mem_singleton_self _)
        refine ⟨_, reverseName_unreserved (lit ":a") hinfo
          (reverseName_unreserved (lit ":c") hinfo
            (reverseName_unreserved (lit ":m") hinfo hclean)), ?_⟩
        rw [← rewriteQuery_queryOf]
        cases h
        rfl

theorem except_map_ok {α β : Type} {e : Except Trigger α} {f : α → β} {b : β}
    (h : e.map f = .ok b) : ∃ a, e = .ok a ∧ f a = b := by
  cases e with
  | error t => cases h
  | ok a => exact ⟨a, rfl, Except.ok.inj h⟩

/-- Every assembler writes a path and the query of its own pairs and the map. -/
theorem assemble_eq {route : BuiltinRoute} {url : Bytes} (hquery : route.WritesQuery)
    (hinfo : ∀ p ∈ info, Unreserved p.2.text) (htexts : ∀ t ∈ route.texts info, Unreserved t)
    (h : route.assemble info (some (queryOf pairs)) = some (.ok (some url))) :
    ∃ path, Unreserved path ∧ (∀ p ∈ route.ownPairs info, PlainPair p) ∧
      url = path ++ queryString (route.ownPairs info ++ pairs) := by
  have hnone : ∀ p ∈ ([] : List (Bytes × Bytes)), PlainPair p := fun _ hp => by cases hp
  cases route with
  | static =>
    obtain ⟨u, hu, hsome⟩ := except_map_ok (Option.some.inj h)
    cases hsome
    obtain ⟨path, hpath, rfl⟩ := routeStaticAssemble_eq hinfo hu
    exact ⟨path, hpath, hnone, rfl⟩
  | map route =>
    obtain ⟨path, hpath, rfl⟩ := routeMapAssemble_eq hquery hinfo (Option.some.inj h)
    exact ⟨path, hpath, hnone, rfl⟩
  | rewrite route =>
    obtain ⟨u, hu, hsome⟩ := Option.map_eq_some_iff.mp h
    cases hsome
    obtain ⟨path, hpath, rfl⟩ := routeRewriteAssemble_eq hinfo htexts hu
    exact ⟨path, hpath, hnone, rfl⟩
  | regex route =>
    obtain ⟨r, hr, hsome⟩ := Option.map_eq_some_iff.mp h
    obtain ⟨u, rfl, hu⟩ := except_map_ok hsome
    cases hu
    obtain ⟨path, hpath, rfl⟩ := routeRegexAssemble_eq hinfo htexts hr
    exact ⟨path, hpath, hnone, rfl⟩
  | simple route =>
    obtain ⟨u, hu, hsome⟩ := except_map_ok (Option.some.inj h)
    cases hsome
    refine ⟨[], unreserved_nil, ?_, routeSimpleAssemble_eq hu⟩
    intro p hp
    have hmodule := htexts route.module (by simp [BuiltinRoute.texts])
    have hcontroller := htexts route.controller (by simp [BuiltinRoute.texts])
    have haction := htexts route.action (by simp [BuiltinRoute.texts])
    simp only [BuiltinRoute.ownPairs, List.mem_append, Option.mem_toList,
      Option.map_eq_some_iff] at hp
    rcases hp with (⟨v, hv, rfl⟩ | ⟨v, hv, rfl⟩) | ⟨v, hv, rfl⟩
    · exact hmodule.plain (hinfo _ (Table.mem_of_find? hv))
    · exact hcontroller.plain (hinfo _ (Table.mem_of_find? hv))
    · exact haction.plain (hinfo _ (Table.mem_of_find? hv))
  | supervar varname =>
    obtain ⟨u, hu, hsome⟩ := except_map_ok (Option.some.inj h)
    cases hsome
    obtain ⟨path, hpath, rfl⟩ := routeSupervarAssemble_eq hu
    have hown : (BuiltinRoute.supervar varname).ownPairs info = [(varname, path)] := by
      simp [BuiltinRoute.ownPairs, hpath]
    rw [hown]
    refine ⟨[], unreserved_nil, fun p hp => ?_, rfl⟩
    rw [List.mem_singleton.mp hp]
    exact (htexts varname (by simp [BuiltinRoute.texts])).plain
      (assemblePath_ok (mem_infoTexts hinfo) hpath)

theorem assemble_empty (route : BuiltinRoute) (hquery : route.WritesQuery)
    (info : Table Key InfoValue) : route.assemble info (some []) = route.assemble info none := by
  cases route with
  | map route =>
    have hempty : mapAssembleQuery route [] = [] := by
      unfold mapAssembleQuery
      split
      · rename_i d ds hsome
        rw [BuiltinRoute.WritesQuery, hsome] at hquery
        cases hquery
      · rfl
    simp [BuiltinRoute.assemble, routeMapAssemble, infoTexts, hempty]
  | regex route =>
    have hempty : rewriteQuery [] = [] := rfl
    cases hreverse : route.reverse <;>
      simp [BuiltinRoute.assemble, routeRegexAssemble, hreverse, hempty]
  | _ => rfl

end

/-- The maps that need no encoding are decoded again, and no others. -/
theorem query_decodes {route : BuiltinRoute} {info : Table Key InfoValue}
    (hquery : route.WritesQuery) (hinfo : ∀ p ∈ info, Unreserved p.2.text)
    (htexts : ∀ t ∈ route.texts info, Unreserved t) : PlainQueryDecodes route info := by
  have hdecode : ∀ pairs url, route.assemble info (some (queryOf pairs)) = some (.ok (some url)) →
      decodeQuery url = route.ownPairs info ++ decodePairs (untilHash (queryText pairs)) := by
    intro pairs url h
    obtain ⟨path, hpath, hown, rfl⟩ := assemble_eq hquery hinfo htexts h
    rw [decodeQuery, urlQuery_append hpath, decodePairs_append hown]
  refine ⟨?_, ?_, assemble_empty route hquery info⟩
  · intro pairs url hkeys h
    rw [hdecode pairs url h, List.append_cancel_left_eq, decodePairs_queryText_iff hkeys]
  · intro pairs pairs' url hpairs hpairs' h h'
    have hsame := (hdecode pairs url h).symm.trans (hdecode pairs' url h')
    rw [List.append_cancel_left_eq,
      (decodePairs_queryText_iff fun p hp => (hpairs p hp).1).mpr fun p hp => (hpairs p hp).2,
      (decodePairs_queryText_iff fun p hp => (hpairs' p hp).1).mpr fun p hp => (hpairs' p hp).2]
      at hsame
    exact hsame

/-- A controller and an action. -/
def staticInfo : Table Key InfoValue := [
  (assembleControllerFormat, ⟨true, [99]⟩),
  (assembleActionFormat, ⟨true, [97]⟩)]

theorem query_decodes_sample : PlainQueryDecodes .static staticInfo := by
  apply query_decodes
  · trivial
  · intro p hp
    simp only [staticInfo, List.mem_cons, List.not_mem_nil, or_false] at hp
    rcases hp with rfl | rfl
    · simp [Unreserved, reserved]
    · simp [Unreserved, reserved]
  · intro t ht
    cases ht

/-- A value with an ampersand is written as it is: `a=b&c=d` is one pair or two. -/
theorem ampersand_not_encoded : ¬QueryDecodes .static staticInfo := by
  intro h
  have hone : BuiltinRoute.static.assemble staticInfo
      (some (queryOf [([97], [98, 38, 99, 61, 100])])) =
      some (.ok (some [47, 99, 47, 97, 63, 97, 61, 98, 38, 99, 61, 100])) := rfl
  have htwo : BuiltinRoute.static.assemble staticInfo
      (some (queryOf [([97], [98]), ([99], [100])])) =
      some (.ok (some [47, 99, 47, 97, 63, 97, 61, 98, 38, 99, 61, 100])) := rfl
  have hsame := h.injective _ _ _ (by decide) (by decide) hone htwo
  cases hsame

end Yaf
