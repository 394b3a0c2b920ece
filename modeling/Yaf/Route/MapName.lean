import Yaf.Php.Strtok
import Yaf.Route.Map

namespace Yaf
open Base

/-- The name as the pieces of a path spell it. -/
def underscored (segs : List Bytes) : Bytes := [underscore].intercalate segs

/-- The component of the info that has the name of what the route writes. -/
def RouteMap.designated (route : RouteMap) : Key :=
  if route.ctlPrefer then assembleControllerFormat else assembleActionFormat

/-- The component of the request the flag designates. -/
def RouteMap.put (route : RouteMap) (request : Request) (x : Bytes) : Request :=
  if route.ctlPrefer then { request with controller := .string x }
  else { request with action := .string x }

/-- What the search for the delimiter finds in a URI. -/
def RouteMap.delimiterOccurs (route : RouteMap) (uri : Bytes) : Prop :=
  ∃ d, route.delimiter = some d ∧ d ≠ [] ∧ cstr d <:+: uri

/-- Assembling from the info and routing what comes out puts the name into the component the
flag designates, and changes nothing else. -/
def NameRoundTrip (route : RouteMap) (info : Table Key Zval) (x : Bytes) : Prop :=
  ∃ uri, routeMapAssemble route info none = .ok (some uri) ∧
    ∀ request : Request, request.uri = uri → request.baseUri = .string [] →
      routeMapRoute route request = some (true, route.put request x)

theorem mapSplit_of_not_occurs {route : RouteMap} {uri : Bytes}
    (h : ¬ route.delimiterOccurs uri) : mapSplit route uri = some (uri, none) := by
  rw [mapSplit]
  split
  · rename_i d ds hd
    have hno : ¬ cstr (d :: ds) <:+: uri := fun hi => h ⟨d :: ds, hd, by simp, hi⟩
    rw [strstr_eq_none.mpr hno]
  · rfl

theorem stripBaseUri_empty (request : Request) (h : request.baseUri = .string []) :
    stripBaseUri request = request.uri := by
  simp [stripBaseUri, h, strncasecmp]

theorem underscored_cons (seg : Bytes) (segs : List Bytes) :
    underscored (seg :: segs) = seg ++ segs.flatMap fun s => underscore :: s := by
  induction segs generalizing seg with
  | nil => simp [underscored]
  | cons s segs ih =>
    rw [underscored, intercalate_cons_of_ne_nil _ (by simp), ← underscored, ih s]
    simp

/-- A URI without the delimiter is one name. -/
theorem routeMapRoute_name {route : RouteMap} {request : Request}
    (hbase : request.baseUri = .string []) (hnul : NUL ∉ request.uri)
    (hd : ¬ route.delimiterOccurs request.uri) :
    routeMapRoute route request = some (true,
      if strtok slash request.uri = [] then request
      else route.put request (underscored ((strtok slash request.uri).map uintPrefix))) := by
  rw [routeMapRoute, stripBaseUri_empty _ hbase, cstr_of_no_nul hnul, mapSplit_of_not_occurs hd]
  cases h : strtok slash request.uri with
  | nil => simp [h]
  | cons seg segs => simp [h, underscored_cons, RouteMap.put, List.flatMap_map]

theorem RouteMap.put_inj {route : RouteMap} {request : Request} {x y : Bytes}
    (h : route.put request x = route.put request y) : x = y := by
  rw [RouteMap.put, RouteMap.put] at h
  split at h
  · simpa using congrArg Request.controller h
  · simpa using congrArg Request.action h

/-- A request without names changes when a name is put into it. -/
theorem RouteMap.put_ne {route : RouteMap} {uri x : Bytes} :
    freshRequest uri ≠ route.put (freshRequest uri) x := by
  intro h
  rw [RouteMap.put] at h
  split at h
  · exact absurd (congrArg Request.controller h) (by simp [freshRequest])
  · exact absurd (congrArg Request.action h) (by simp [freshRequest])

/-- The pieces of a name, which a slash cuts as well as an underscore. -/
def namePieces (y : Bytes) : List Bytes := (strtok underscore y).flatMap (strtok slash)

theorem underscore_not_mem_namePieces {y s : Bytes} (hs : s ∈ namePieces y) : underscore ∉ s := by
  obtain ⟨t, ht, hst⟩ := List.mem_flatMap.mp hs
  intro hu
  have hpre : s ∈ (cstr t).splitOn slash := (List.mem_filter.mp hst).1
  have hmem : underscore ∈ cstr t := mem_of_mem_splitOn hpre hu
  exact (mem_strtok ht).2.2 ((List.takeWhile_prefix _).subset hmem)

/-- The pieces as far as their lengths are kept. -/
def keptPieces (y : Bytes) : List Bytes := (namePieces y).map uintPrefix

theorem underscored_keptPieces {y x : Bytes} :
    namePieces y ≠ [] ∧ underscored (keptPieces y) = x ↔ keptPieces y = x.splitOn underscore := by
  have hnil : keptPieces y = [] ↔ namePieces y = [] := List.map_eq_nil_iff
  have hfree : ∀ s ∈ keptPieces y, underscore ∉ s := by
    intro s hs
    obtain ⟨t, ht, rfl⟩ := List.mem_map.mp hs
    exact fun hu => underscore_not_mem_namePieces ht (uintPrefix_subset t hu)
  constructor
  · rintro ⟨hne, rfl⟩
    exact (List.splitOn_intercalate _ hfree (mt hnil.mp hne)).symm
  · intro h
    refine ⟨?_, ?_⟩
    · rw [ne_eq, ← hnil, h]
      exact List.splitOn_ne_nil _ _
    · rw [h, underscored, List.intercalate_splitOn]

/-- What a name assembles to, and the pieces that are cut from it. -/
theorem strtok_assembled (y : Bytes) :
    NUL ∉ (strtok underscore y).flatMap (slash :: ·) ∧
      strtok slash ((strtok underscore y).flatMap (slash :: ·)) = namePieces y := by
  constructor
  · intro h
    obtain ⟨s, hs, hm⟩ := List.mem_flatMap.mp h
    rcases List.mem_cons.mp hm with he | hm
    · exact absurd he (by decide)
    · exact (mem_strtok hs).2.1 hm
  · exact strtok_flatMap (by decide) fun s hs => (mem_strtok hs).2.1

/-- The name comes back exactly when it is also given for the component the flag does not
designate: that is the one which is read. -/
theorem map_name_round_trip_iff (route : RouteMap) (info : Table Key Zval) (x : Bytes)
    (hdelim : ∀ uri, routeMapAssemble route info none = .ok (some uri) →
      ¬ route.delimiterOccurs uri) :
    NameRoundTrip route info x ↔ ∃ y, Table.find? info route.assembleFormat.1 = some (.string y) ∧
      keptPieces y = x.splitOn underscore := by
  constructor
  · rintro ⟨uri, hasm, hroute⟩
    have hd := hdelim uri hasm
    rw [routeMapAssemble] at hasm
    split at hasm
    · rename_i y hy
      refine ⟨y, hy, ?_⟩
      obtain ⟨hnul, htok⟩ := strtok_assembled y
      have huri : (strtok underscore y).flatMap (slash :: ·) = uri := by
        simp only [Option.map_none, Option.getD_none, List.append_nil, Except.ok.injEq] at hasm
        split at hasm
        · cases hasm
        · simpa using hasm
      rw [huri] at hnul htok
      have hr := hroute (freshRequest uri) rfl rfl
      rw [routeMapRoute_name rfl hnul hd] at hr
      simp only [Option.some.injEq, Prod.mk.injEq, true_and] at hr
      rw [show (freshRequest uri).uri = uri from rfl, htok] at hr
      split at hr
      · exact absurd hr RouteMap.put_ne
      · rename_i hne
        exact underscored_keptPieces.mp ⟨hne, RouteMap.put_inj hr⟩
    · cases hasm
  · rintro ⟨y, hy, hpieces⟩
    obtain ⟨hnul, htok⟩ := strtok_assembled y
    obtain ⟨hne, hx⟩ := underscored_keptPieces.mpr hpieces
    have huri : (strtok underscore y).flatMap (slash :: ·) ≠ [] := by
      intro he
      rw [he, strtok_nil] at htok
      exact hne htok.symm
    have hasm : routeMapAssemble route info none =
        .ok (some ((strtok underscore y).flatMap (slash :: ·))) := by
      rw [routeMapAssemble, hy]
      simp [huri]
    refine ⟨_, hasm, ?_⟩
    intro request hreq hbase
    rw [routeMapRoute_name hbase (hreq ▸ hnul) (hreq ▸ hdelim _ hasm), hreq, htok, if_neg hne,
      ← keptPieces, hx]

/-- One name for both components comes back. -/
theorem map_name_round_trip_iff_sample :
    NameRoundTrip ⟨true, none⟩ [(assembleActionFormat, .string [102, 95, 98]),
      (assembleControllerFormat, .string [102, 95, 98])] [102, 95, 98] := by
  refine (map_name_round_trip_iff ⟨true, none⟩ _ _ ?_).mpr ⟨[102, 95, 98], ?_, by decide⟩
  · rintro uri - ⟨d, hd, -⟩
    cases hd
  · simp [Table.find?, RouteMap.assembleFormat]

/-- A name given for the component the flag designates, `f_b`, is not looked at. -/
theorem map_designated_not_read :
    Table.find? [(assembleControllerFormat, Zval.string [102, 95, 98])]
        (RouteMap.designated ⟨true, none⟩) = some (.string [102, 95, 98]) ∧
      routeMapAssemble ⟨true, none⟩ [(assembleControllerFormat, .string [102, 95, 98])] none =
        .error ⟨.typeError, lit "Undefined the 'action' parameter for the 1st parameter"⟩ ∧
      ¬ NameRoundTrip ⟨true, none⟩ [(assembleControllerFormat, .string [102, 95, 98])]
        [102, 95, 98] := by
  have hne : assembleControllerFormat ≠ assembleActionFormat := by decide
  have hasm : routeMapAssemble ⟨true, none⟩ [(assembleControllerFormat, .string [102, 95, 98])]
      none = .error ⟨.typeError, lit "Undefined the 'action' parameter for the 1st parameter"⟩ := by
    simp [routeMapAssemble, RouteMap.assembleFormat, Table.find?, hne]
  refine ⟨by simp [RouteMap.designated, Table.find?], hasm, ?_⟩
  rintro ⟨uri, h, -⟩
  rw [hasm] at h
  cases h

end Yaf
