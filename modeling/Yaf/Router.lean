import Yaf.Route.Map
import Yaf.Route.Query
import Yaf.Route.Regex
import Yaf.Route.StaticSpec

namespace Yaf
open Base StaticSpec

/-- What the built-in routes read besides the request. -/
structure RouteEnv where
  modules : List Bytes
  actionPrefer : Bool
  get : Table Key Zval
  pregMatch : PregMatch

/-- A route of a built-in class. -/
inductive BuiltinRoute where
  | static
  | map (route : RouteMap)
  | rewrite (route : RouteRewrite)
  | regex (route : RouteRegex)
  | simple (route : RouteSimple)
  | supervar (varname : Bytes)

/-- The `route` method of the built-in classes. -/
def BuiltinRoute.route (env : RouteEnv) (request : Request) :
    BuiltinRoute → Option (Bool × Request)
  | .static => some (routeStaticRoute env.modules env.actionPrefer request)
  | .map route => routeMapRoute route request
  | .rewrite route => routeRewriteRoute env.pregMatch route request
  | .regex route => some (routeRegexRoute env.pregMatch route request)
  | .simple route => some (routeSimpleRoute env.modules route env.get request)
  | .supervar varname => routeSupervarRoute env.modules env.actionPrefer varname env.get request

/-- The route answers false. -/
def BuiltinRoute.declines (env : RouteEnv) (request : Request) (route : BuiltinRoute) : Bool :=
  match route.route env request with
  | some (false, _) => true
  | _ => false

/-- The route does not come to an answer: it reads outside the URI, or its pattern has a segment
with a negative length. -/
def BuiltinRoute.Breaks (request : Request) : BuiltinRoute → Prop
  | .map route => route.ReadsOutside (cstr (stripBaseUri request))
  | .rewrite route => stripBaseUri request ≠ [] ∧ rewritePattern route.match = none
  | _ => False

/-- A route that answers false has written nothing. -/
theorem BuiltinRoute.route_declined {env : RouteEnv} {request r : Request} {route : BuiltinRoute}
    (h : route.route env request = some (false, r)) : r = request := by
  cases route with
  | static => simp [BuiltinRoute.route, routeStaticRoute] at h
  | map route =>
    simp only [BuiltinRoute.route, routeMapRoute] at h
    cases hs : mapSplit route (cstr (stripBaseUri request)) with
    | none => simp [hs] at h
    | some p =>
      obtain ⟨path, query⟩ := p
      cases query <;> simp [hs] at h
  | rewrite route =>
    obtain ⟨m, -, hr⟩ := Option.map_eq_some_iff.mp h
    cases m with
    | none => exact (Prod.mk.inj hr).2.symm
    | some args => simp at hr
  | regex route =>
    simp only [BuiltinRoute.route, routeRegexRoute, Option.some.injEq] at h
    split at h
    · exact (Prod.mk.inj h).2.symm
    · simp at h
  | simple route =>
    simp only [BuiltinRoute.route, routeSimpleRoute, Option.some.injEq] at h
    split at h
    · exact (Prod.mk.inj h).2.symm
    · simp at h
  | supervar varname =>
    simp only [BuiltinRoute.route, routeSupervarRoute] at h
    split at h
    · exact (Prod.mk.inj (Option.some.inj h)).2.symm
    · simp at h
    · simp at h

theorem BuiltinRoute.route_eq_none {env : RouteEnv} {request : Request} {route : BuiltinRoute}
    (hget : ∀ p ∈ env.get, p.2.isString = true) :
    route.route env request = none ↔ route.Breaks request := by
  cases route with
  | map route =>
    rw [Breaks, ← mapSplit_eq_none]
    simp only [BuiltinRoute.route, routeMapRoute]
    cases hs : mapSplit route (cstr (stripBaseUri request)) with
    | none => simp
    | some p =>
      obtain ⟨path, query⟩ := p
      cases query <;> simp
  | rewrite route =>
    rw [BuiltinRoute.route, routeRewriteRoute, Option.map_eq_none_iff, routeRewriteMatch, Breaks]
    by_cases hu : stripBaseUri request = []
    · simp [hu]
    · rw [if_neg hu, Option.map_eq_none_iff, and_iff_right hu]
  | supervar varname =>
    simp only [BuiltinRoute.route, routeSupervarRoute, Breaks, iff_false]
    cases hq : requestQuery env.get varname with
    | none => simp
    | some v =>
      have hv := hget _ (Table.mem_of_find? hq)
      cases v <;> simp [Zval.isString] at hv ⊢
  | _ => simp [BuiltinRoute.route, Breaks]

/-- The token of a path that names the controller, if one does. -/
def StaticSpec.controllerToken (modules : List Bytes) (actionPrefer : Bool) (u : Bytes) :
    Option Bytes :=
  match nextToken u with
  | none => none
  | some (t₁, r₁) =>
    match nextToken r₁ with
    | none =>
      if actionPrefer ∧ applicationIsModuleName modules t₁ = false then none else some t₁
    | some (t₂, r₂) =>
      if (nextToken r₂).isSome ∧ applicationIsModuleName modules t₁ = true then some t₂
      else some t₁

/-- What a route of each kind picks for the controller: a token of the path, its segments, a
literal or a group, a variable of the query. -/
def BuiltinRoute.pickedController (env : RouteEnv) (request : Request) : BuiltinRoute → Zval
  | .static => setName request.controller
      (controllerToken env.modules env.actionPrefer (cstr (trimUri (stripBaseUri request))))
  | .map route =>
    match (mapSplit route (cstr (stripBaseUri request))).map fun p => strtok slash p.1 with
    | some (seg :: segs) =>
      if route.ctlPrefer then
        .string (uintPrefix seg ++ segs.flatMap fun s => underscore :: uintPrefix s)
      else request.controller
    | _ => request.controller
  | .rewrite route =>
    match routeRewriteMatch env.pregMatch route (stripBaseUri request) with
    | some (some args) => rewriteName route args (lit "controller") request.controller
    | _ => request.controller
  | .regex route =>
    match routeRegexMatch env.pregMatch route (stripBaseUri request) with
    | some args => regexName route args (lit "controller") request.controller
    | none => request.controller
  | .simple route => (requestQuery env.get route.controller).getD request.controller
  | .supervar varname =>
    match requestQuery env.get varname with
    | some (.string uri) => setName request.controller
        (controllerToken env.modules env.actionPrefer (cstr (trimUri uri)))
    | _ => request.controller

theorem StaticSpec.route_controller (modules : List Bytes) (actionPrefer : Bool)
    (request : Request) (u : Bytes) :
    (StaticSpec.route modules actionPrefer request u).controller =
      setName request.controller (controllerToken modules actionPrefer u) := by
  cases h₁ : nextToken u with
  | none => simp [StaticSpec.route, controllerToken, h₁, setName]
  | some p₁ =>
    obtain ⟨t₁, r₁⟩ := p₁
    cases h₂ : nextToken r₁ with
    | none =>
      by_cases hp : actionPrefer ∧ applicationIsModuleName modules t₁ = false
      · simp [StaticSpec.route, controllerToken, h₁, h₂, hp, setName]
      · simp only [StaticSpec.route, controllerToken, h₁, h₂, if_neg hp, setName]
    | some p₂ =>
      obtain ⟨t₂, r₂⟩ := p₂
      cases h₃ : nextToken r₂ with
      | none => simp [StaticSpec.route, controllerToken, h₁, h₂, h₃, setName]
      | some p₃ =>
        by_cases hm : applicationIsModuleName modules t₁ = true <;>
          simp [StaticSpec.route, controllerToken, h₁, h₂, h₃, hm, setName]

theorem routeMapRoute_controller {env : RouteEnv} {route : RouteMap} {request r : Request}
    {ok : Bool} (h : routeMapRoute route request = some (ok, r)) :
    r.controller = (BuiltinRoute.map route).pickedController env request := by
  rw [routeMapRoute] at h
  cases hsplit : mapSplit route (cstr (stripBaseUri request)) with
  | none => simp [hsplit] at h
  | some split =>
    obtain ⟨path, query⟩ := split
    simp only [hsplit, Option.bind_eq_bind, Option.bind_some] at h
    simp only [BuiltinRoute.pickedController, hsplit, Option.map_some]
    cases hseg : strtok slash path with
    | nil => cases query <;> simp [hseg, requestSetParamsMulti] at h <;> simp [← h.2]
    | cons seg segs =>
      cases query <;> simp [hseg, requestSetParamsMulti] at h <;> rw [← h.2] <;> split <;> rfl

/-- Whatever a route does besides, it leaves the controller it picked. -/
theorem BuiltinRoute.route_controller {env : RouteEnv} {request r : Request} {ok : Bool}
    {route : BuiltinRoute} (h : route.route env request = some (ok, r)) :
    r.controller = route.pickedController env request := by
  cases route with
  | static =>
    simp only [BuiltinRoute.route, routeStaticRoute, routePathinfoRoute_tokens, Option.some.injEq,
      Prod.mk.injEq] at h
    obtain ⟨-, rfl⟩ := h
    exact StaticSpec.route_controller _ _ _ _
  | map route => exact routeMapRoute_controller h
  | rewrite route =>
    obtain ⟨m, hm, hr⟩ := Option.map_eq_some_iff.mp h
    simp only [pickedController, hm]
    cases m with
    | none => exact (Prod.mk.inj hr).2 ▸ rfl
    | some args => exact (Prod.mk.inj hr).2 ▸ rfl
  | regex route =>
    simp only [BuiltinRoute.route, routeRegexRoute, Option.some.injEq] at h
    simp only [pickedController]
    cases hm : routeRegexMatch env.pregMatch route (stripBaseUri request) with
    | none =>
      simp only [hm, Prod.mk.injEq] at h
      exact h.2 ▸ rfl
    | some args =>
      simp only [hm, Prod.mk.injEq] at h
      exact h.2 ▸ rfl
  | simple route =>
    simp only [BuiltinRoute.route, routeSimpleRoute, Option.some.injEq] at h
    simp only [pickedController]
    by_cases hn : ((requestQuery env.get route.module).isNone &&
        (requestQuery env.get route.controller).isNone &&
        (requestQuery env.get route.action).isNone) = true
    · rw [if_pos hn] at h
      simp only [Bool.and_eq_true, Option.isNone_iff_eq_none] at hn
      simp only [Prod.mk.injEq] at h
      simp [hn.1.2, h.2]
    · rw [if_neg hn] at h
      simp only [Prod.mk.injEq] at h
      rw [← h.2]
      cases requestQuery env.get route.controller with
      | some c => rfl
      | none =>
        simp only [Option.getD_none]
        split
        · split <;> rfl
        · rfl
  | supervar varname =>
    simp only [BuiltinRoute.route, routeSupervarRoute] at h
    simp only [pickedController]
    cases hq : requestQuery env.get varname with
    | none =>
      simp only [hq, Option.some.injEq, Prod.mk.injEq] at h
      simp [h.2]
    | some v =>
      cases v with
      | string uri =>
        simp only [hq, routePathinfoRoute_tokens, Option.some.injEq, Prod.mk.injEq] at h
        obtain ⟨-, rfl⟩ := h
        exact StaticSpec.route_controller _ _ _ _
      | _ => simp [hq] at h

end Yaf
