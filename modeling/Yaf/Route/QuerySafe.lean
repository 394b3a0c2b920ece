import Yaf.Dispatcher.Names
import Yaf.Route.Query

namespace Yaf
open Base

/-- `yaf_route_simple_route` with the read of the module name as a step that needs a string. -/
def routeSimpleRead (modules : List Bytes) (route : RouteSimple) (get : Table Key Zval)
    (request : Request) : Option (Bool × Request) := do
  let module := requestQuery get route.module
  let controller := requestQuery get route.controller
  let action := requestQuery get route.action
  if module.isNone && controller.isNone && action.isNone then return (false, request)
  let request ← match module with
    | none => pure request
    | some m =>
      if m.isString then do
        let name ← m.string?
        pure
          (if applicationIsModuleName modules name then { request with module := m } else request)
      else pure request
  return (true, { request with
    controller := controller.getD request.controller
    action := action.getD request.action })

/-- The module is the only value the route looks into, and it looks at its type first. -/
theorem routeSimpleRead_eq (modules : List Bytes) (route : RouteSimple) (get : Table Key Zval)
    (request : Request) :
    routeSimpleRead modules route get request =
      some (routeSimpleRoute modules route get request) := by
  unfold routeSimpleRead routeSimpleRoute
  cases hm : requestQuery get route.module with
  | none =>
    simp only [Option.isNone_none, Bool.true_and]
    split <;> rfl
  | some m =>
    simp only [Option.isNone_some, Bool.false_and, Bool.false_eq_true, if_false]
    cases m with
    | string s =>
      simp only [Zval.isString, Zval.string?_string, if_true]
      rfl
    | _ => rfl

/-- All three names are strings. -/
structure Names.Strings (names : Names) : Prop where
  module : names.module.isString = true
  controller : names.controller.isString = true
  action : names.action.isString = true

theorem fixName_isString (fix : Bytes → Bytes) (default : Bytes) (slot : Zval) :
    (fixName fix default slot).isString = true := by
  unfold fixName
  split <;> rfl

/-- Whatever a route left in the request, the names the dispatcher goes on with are strings. -/
theorem dispatcherFixDefault_strings (defaults : DefaultNames) (request : Request) :
    (dispatcherFixDefault defaults request).names.Strings where
  module := fixName_isString fixModule defaults.module request.module
  controller := fixName_isString fixController defaults.controller request.controller
  action := fixName_isString fixAction defaults.action request.action

/-- A route that returned, with names the dispatcher makes strings of. -/
def SettlesNames (defaults : DefaultNames) (result : Option (Bool × Request)) : Prop :=
  ∃ matched request, result = some (matched, request) ∧
    (dispatcherFixDefault defaults request).names.Strings

/-- A value that is not a string is a non-match that leaves the request alone. -/
def PassesBy (value : Option Zval) (request : Request) (result : Option (Bool × Request)) : Prop :=
  ∀ v, value = some v → v.isString = false → result = some (false, request)

/-- Both query-driven routes take what the client sent. -/
structure QueryRoutesSafe (modules : List Bytes) (actionPrefer : Bool) (defaults : DefaultNames)
    (route : RouteSimple) (varname : Bytes) (get : Table Key Zval) (request : Request) : Prop where
  simple : SettlesNames defaults (routeSimpleRead modules route get request)
  supervar : SettlesNames defaults (routeSupervarRoute modules actionPrefer varname get request)
  mismatch : PassesBy (requestQuery get varname) request
    (routeSupervarRoute modules actionPrefer varname get request)

theorem settlesNames_some (defaults : DefaultNames) (p : Bool × Request) :
    SettlesNames defaults (some p) :=
  ⟨p.1, p.2, rfl, dispatcherFixDefault_strings defaults p.2⟩

section
variable (modules : List Bytes) (actionPrefer : Bool) {varname : Bytes} {get : Table Key Zval}
  (request : Request)

theorem routeSupervar_string {v : Zval} (hv : requestQuery get varname = some v)
    (hs : v.isString = true) :
    ∃ p, routeSupervarRoute modules actionPrefer varname get request = some p := by
  unfold routeSupervarRoute
  cases v with
  | string uri => exact ⟨_, by rw [hv]⟩
  | _ => cases hs

theorem routeSupervar_not_string {v : Zval} (hv : requestQuery get varname = some v)
    (hs : v.isString = false) :
    routeSupervarRoute modules actionPrefer varname get request = none := by
  unfold routeSupervarRoute
  cases v with
  | string uri => cases hs
  | _ => rw [hv]

theorem routeSupervar_absent (hv : requestQuery get varname = none) :
    routeSupervarRoute modules actionPrefer varname get request = some (false, request) := by
  unfold routeSupervarRoute
  rw [hv]

end

/-- The routes take every query but one with something that is not a string under the name of the
supervar route. -/
theorem query_routes_safe_iff (modules : List Bytes) (actionPrefer : Bool)
    (defaults : DefaultNames) (route : RouteSimple) (varname : Bytes) (get : Table Key Zval)
    (request : Request) :
    QueryRoutesSafe modules actionPrefer defaults route varname get request ↔
      ∀ v, requestQuery get varname = some v → v.isString = true := by
  constructor
  · intro hsafe v hv
    by_contra hs
    have hnone := routeSupervar_not_string modules actionPrefer request hv (by simpa using hs)
    obtain ⟨matched, left, hresult, -⟩ := hsafe.supervar
    rw [hnone] at hresult
    cases hresult
  · intro hstring
    have hsome : ∃ p, routeSupervarRoute modules actionPrefer varname get request = some p := by
      cases hv : requestQuery get varname with
      | none => exact ⟨_, routeSupervar_absent modules actionPrefer request hv⟩
      | some v => exact routeSupervar_string modules actionPrefer request hv (hstring v hv)
    obtain ⟨p, hp⟩ := hsome
    refine ⟨?_, ?_, ?_⟩
    · rw [routeSimpleRead_eq]
      exact settlesNames_some defaults _
    · rw [hp]
      exact settlesNames_some defaults p
    · intro v hv hs
      rw [hstring v hv] at hs
      cases hs

/-- `?r[]=x` on a supervar route for `r`. -/
theorem array_under_the_supervar :
    ¬QueryRoutesSafe [lit "Index"] false ⟨lit "Index", lit "Index", lit "index"⟩
      ⟨lit "m", lit "c", lit "a"⟩ (lit "r")
      [(.name (lit "r"), .array [(.index 0, .string (lit "x"))])] (freshRequest []) := by
  intro hsafe
  have hv : requestQuery [(.name (lit "r"), .array [(.index 0, .string (lit "x"))])] (lit "r") =
      some (.array [(.index 0, .string (lit "x"))]) := by
    unfold requestQuery
    simp [Table.find?]
  have hnone := routeSupervar_not_string [lit "Index"] false (freshRequest []) hv rfl
  obtain ⟨matched, left, hresult, -⟩ := hsafe.supervar
  rw [hnone] at hresult
  cases hresult

end Yaf
