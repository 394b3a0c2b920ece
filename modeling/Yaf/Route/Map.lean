import Yaf.Php.Strstr
import Yaf.Route.Static

namespace Yaf
open Base

/-- A map route: which name it fills, and the delimiter before the query part. -/
structure RouteMap where
  ctlPrefer : Bool
  delimiter : Option Bytes
  deriving DecidableEq, Repr

/-- `yaf_route_map_instance`. -/
def routeMapInstance (controllerPrefer : Bool) (delim : Option Bytes) : RouteMap where
  ctlPrefer := controllerPrefer
  delimiter := delim.filter (· ≠ [])

/-- The path and the query part of a URI. A delimiter counts behind a slash only. At the very
start the character before it is read from outside the buffer, and so is what follows a delimiter
whose NUL ends the URI. -/
def mapSplit (route : RouteMap) (uri : Bytes) : Option (Bytes × Option Bytes) :=
  match route.delimiter with
  | some (d :: ds) =>
    match strstr uri (cstr (d :: ds)) with
    | none => some (uri, none)
    | some ([], _) => none
    | some (path, rest) =>
      if path.getLast? = some slash then
        -- the pointer moves by the whole length, also by what stands behind a NUL
        let skip := ds.length + 1 - (cstr (d :: ds)).length
        if rest.length < skip then none
        else if rest.drop skip = [] then some (path, none)
        else if (rest.drop skip).head? = some slash then some (path, some (rest.drop skip))
        else some (uri, none)
      else some (uri, none)
  | _ => some (uri, none)

/-- The delimiter stands at the very start of the URI, or its length reaches over the end. -/
def RouteMap.ReadsOutside (route : RouteMap) (uri : Bytes) : Prop :=
  ∃ d ∈ route.delimiter, d ≠ [] ∧ (cstr d <+: uri ∨ ∃ path rest,
    strstr uri (cstr d) = some (path, rest) ∧ path.getLast? = some slash ∧
      rest.length < d.length - (cstr d).length)

theorem mapSplit_eq_none {route : RouteMap} {uri : Bytes} :
    mapSplit route uri = none ↔ route.ReadsOutside uri := by
  obtain ⟨prefer, delimiter⟩ := route
  simp only [mapSplit, RouteMap.ReadsOutside]
  cases delimiter with
  | none => simp
  | some d =>
    cases d with
    | nil => simp
    | cons d ds =>
      simp only [Option.mem_def, Option.some.injEq, exists_eq_left', ne_eq, reduceCtorEq,
        not_false_eq_true, true_and, ← strstr_nil_iff]
      cases hs : strstr uri (cstr (d :: ds)) with
      | none => simp
      | some p =>
        obtain ⟨path, rest⟩ := p
        cases path with
        | nil => simp
        | cons c path =>
          by_cases hl : (c :: path).getLast? = some slash
          · by_cases hlen : rest.length < ds.length + 1 - (cstr (d :: ds)).length
            · simp [hl, hlen]
            · simp only [hl, hlen, if_true, if_false]
              by_cases hnil : rest.drop (ds.length + 1 - (cstr (d :: ds)).length) = []
              · simp [hnil, hlen]
              · rw [if_neg hnil]
                split <;> simp [hlen]
          · simp [hl]

/-- `yaf_route_map_route`. The path segments, as far as an `uint` has their length, are joined with
underscores. -/
def routeMapRoute (route : RouteMap) (request : Request) : Option (Bool × Request) := do
  let (path, query) ← mapSplit route (cstr (stripBaseUri request))
  let request := match strtok slash path with
    | [] => request
    | seg :: segs =>
      let result := Zval.string
        (uintPrefix seg ++ segs.flatMap fun s => underscore :: uintPrefix s)
      if route.ctlPrefer then { request with controller := result }
      else { request with action := result }
  match query with
  | none => some (true, request)
  | some query => some (true, requestSetParamsMulti request (routerParseParameters query))

/-- What a query adds: pairs behind the delimiter, or a query string when there is none. -/
def mapAssembleQuery (route : RouteMap) (query : Info) : Bytes :=
  match route.delimiter with
  | some (d :: ds) => slash :: d :: ds ++ query.flatMap fun p =>
      match p.1 with
      | .name key => slash :: key ++ slash :: p.2
      | .index _ => []
  | _ =>
    match queryPairs query with
    | [] => []
    | pair :: pairs => 63 :: pair ++ pairs.flatMap fun p => 38 :: p

/-- The key `yaf_route_map_assemble` reads the name under, and the error without it. -/
def RouteMap.assembleFormat (route : RouteMap) : Key × Bytes :=
  if route.ctlPrefer then
    (assembleActionFormat, lit "Undefined the 'action' parameter for the 1st parameter")
  else (assembleControllerFormat, lit "Undefined the 'controller' parameter for the 1st parameter")

/-- `yaf_route_map_assemble`. Nothing is returned when nothing was appended. -/
def routeMapAssemble (route : RouteMap) (info : Table Key Zval) (query : Option Info) :
    Except Trigger (Option Bytes) :=
  match Table.find? info route.assembleFormat.1 with
  | some (.string pname) =>
    let uri := (strtok underscore pname).flatMap (slash :: ·) ++
      (query.map (mapAssembleQuery route)).getD []
    .ok (if uri = [] then none else some uri)
  | _ => .error ⟨.typeError, route.assembleFormat.2⟩

end Yaf
