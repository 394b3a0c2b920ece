import Yaf.Dispatcher.Dispatch
import Yaf.Route.Instance

namespace Yaf
open Base

/-- `yaf_router_instance`. The static route steps in for a default route that is not valid. -/
def routerInstance (defaultRoute : Option Zval) : Router where
  routes := [(.name (lit "_default"), .builtin ((defaultRoute.bind configRoute).getD .static))]
  currentRoute := none

/-- `Yaf_Router::addRoute`. -/
def routerAddRoute (router : Router) (name : Bytes) (route : RouteObject) : Router :=
  { router with routes := Table.update router.routes (.name name) route }

/-- The loop of `yaf_router_add_config`. -/
def addConfigEntries (routes : Table Key RouteObject) : Table Key Zval → Table Key RouteObject
  | [] => routes
  | (key, entry) :: entries =>
    match configRoute entry with
    | none => addConfigEntries routes entries
    | some route => addConfigEntries (Table.update routes key (.builtin route)) entries

/-- `yaf_router_add_config`. -/
def routerAddConfig (router : Router) : Zval → Bool × Router
  | .array configs => (true, { router with routes := addConfigEntries router.routes configs })
  | _ => (false, router)

/-- A call that registers routes of the built-in classes. -/
inductive Registration where
  | addRoute (name : Bytes) (route : BuiltinRoute)
  | addConfig (configs : Table Key Zval)

def Registration.run (router : Router) : Registration → Router
  | .addRoute name route => routerAddRoute router name (.builtin route)
  | .addConfig configs => (routerAddConfig router (.array configs)).2

/-- What a call registers: an invalid entry of a config is nothing. -/
def Registration.entries : Registration → Table Key BuiltinRoute
  | .addRoute name route => [(.name name, route)]
  | .addConfig configs => configs.filterMap fun p => (configRoute p.2).map fun route => (p.1, route)

/-- Everything registered, in time: the default route of the constructor comes first. -/
def registrations (defaultRoute : Option Zval) (calls : List Registration) :
    Table Key BuiltinRoute :=
  (.name (lit "_default"), (defaultRoute.bind configRoute).getD .static) ::
    calls.flatMap Registration.entries

/-- The routes as objects. -/
def routeObjects (routes : Table Key BuiltinRoute) : Table Key RouteObject :=
  routes.map fun p => (p.1, .builtin p.2)

theorem routeObjects_update (routes : Table Key BuiltinRoute) (key : Key) (route : BuiltinRoute) :
    Table.update (routeObjects routes) key (.builtin route) =
      routeObjects (Table.update routes key route) := by
  induction routes with
  | nil => rfl
  | cons p routes ih =>
    obtain ⟨j, w⟩ := p
    by_cases hj : j = key
    · simp [routeObjects, Table.update, hj]
    · simpa [routeObjects, Table.update, hj] using ih

theorem addConfigEntries_objects (routes : Table Key BuiltinRoute) (configs : Table Key Zval) :
    addConfigEntries (routeObjects routes) configs =
      routeObjects (Table.merge routes (Registration.entries (.addConfig configs))) := by
  induction configs generalizing routes with
  | nil => rfl
  | cons p configs ih =>
    obtain ⟨key, entry⟩ := p
    rw [addConfigEntries]
    cases hc : configRoute entry with
    | none => simpa [Registration.entries, hc] using ih routes
    | some route =>
      simpa [Registration.entries, hc, routeObjects_update, Table.merge_cons] using
        ih (Table.update routes key route)

theorem Registration.run_routes {router : Router} {routes : Table Key BuiltinRoute}
    (h : router.routes = routeObjects routes) (call : Registration) :
    (call.run router).routes = routeObjects (Table.merge routes call.entries) := by
  cases call with
  | addRoute name route =>
    simp only [run, routerAddRoute, h, routeObjects_update]
    rfl
  | addConfig configs =>
    simp only [run, routerAddConfig, h]
    exact addConfigEntries_objects routes configs

/-- The router holds the last route of each key, in the order of the first ones. -/
theorem foldl_run_routes (calls : List Registration) {router : Router}
    {routes : Table Key BuiltinRoute} (h : router.routes = routeObjects routes) :
    (calls.foldl Registration.run router).routes =
      routeObjects (Table.merge routes (calls.flatMap Registration.entries)) := by
  induction calls generalizing router routes with
  | nil => exact h
  | cons call calls ih =>
    rw [List.foldl_cons, ih (Registration.run_routes h call), List.flatMap_cons,
      Table.merge_append]

theorem routes_of_registrations (defaultRoute : Option Zval) (calls : List Registration) :
    (calls.foldl Registration.run (routerInstance defaultRoute)).routes =
      routeObjects (Table.latest (registrations defaultRoute calls)) := by
  rw [← Table.merge_nil_eq_latest]
  exact foldl_run_routes calls rfl

/-- The last of the entries whose route does not decline the request. -/
def lastMatch (env : RouteEnv) (request : Request) (entries : Table Key BuiltinRoute) :
    Option (Key × BuiltinRoute) :=
  entries.reverse.find? fun entry => !entry.2.declines env request

namespace Php
variable {γ : Type}

def withCurrentRoute (php : Php γ) (router : Router) (key : Key) : Php γ :=
  { php with dispatcher := { php.dispatcher with
      router := .builtin { router with currentRoute := some key } } }

/-- The request is the routed one, and the router knows by which route. -/
def routedBy (php : Php γ) (router : Router) (key : Key) (request : Request) : Php γ :=
  (php.setRequest { request with routed := true }).withCurrentRoute router key

@[simp] theorem request_withCurrentRoute (php : Php γ) (router : Router) (key : Key) :
    (php.withCurrentRoute router key).request = php.request := rfl

theorem setRequest_withCurrentRoute (php : Php γ) (router : Router) (key : Key) (r : Request) :
    (php.withCurrentRoute router key).setRequest r =
      (php.setRequest r).withCurrentRoute router key := rfl

end Php

section
variable {γ : Type} (call : Calls γ) {w : World γ} {router : Router} {key : Key}
  {route : BuiltinRoute} {routes : List (Key × RouteObject)}

theorem updateRequest_eq (f : Request → Request) (w : World γ) :
    updateRequest f w = (.ok (), w.update fun php => php.setRequest (f php.request)) := rfl

theorem setCurrentRoute_builtin (hr : w.php.dispatcher.router = .builtin router) :
    setCurrentRoute key w =
      (.ok (), w.update fun php => php.withCurrentRoute router key.stored) := by
  simp only [setCurrentRoute, updatePhp, Run.modify, World.update, hr, Php.withCurrentRoute]

theorem routerRoute_declined (he : w.php.exception = none)
    (h : route.declines w.php.routeEnv w.php.request = true) :
    routerRoute call ((key, .builtin route) :: routes) w = routerRoute call routes w := by
  have hroute : route.route w.php.routeEnv w.php.request = some (false, w.php.request) := by
    unfold BuiltinRoute.declines at h
    split at h
    · rename_i r hr
      rw [hr, BuiltinRoute.route_declined hr]
    · simp at h
  have hcall : callRoute call key (.builtin route) w = (.ok (some (.bool false)), w) := by
    have hw : w.update (fun php => php.setRequest w.php.request) = w := by
      rw [World.update, Php.setRequest_request]
    simp only [callRoute]
    rw [Run.bind_of_ok (rfl : getPhp w = (.ok w.php, w)), he, if_neg (by simp), hroute]
    exact congrArg (Prod.mk _) hw
  rw [routerRoute, Run.bind_of_ok hcall]

theorem routerRoute_matched (he : w.php.exception = none)
    (hr : w.php.dispatcher.router = .builtin router) {request : Request}
    (h : route.route w.php.routeEnv w.php.request = some (true, request)) :
    routerRoute call ((key, .builtin route) :: routes) w =
      (.ok true, w.update fun php => php.routedBy router key.stored request) := by
  have hcall : callRoute call key (.builtin route) w =
      (.ok (some (.bool true)), w.update fun php => php.setRequest request) := by
    simp only [callRoute]
    rw [Run.bind_of_ok (rfl : getPhp w = (.ok w.php, w)), he, if_neg (by simp), h]
    rfl
  have hcurrent : setCurrentRoute key (w.update fun php => php.setRequest request) =
      (.ok (), (w.update fun php => php.setRequest request).update fun php =>
        php.withCurrentRoute router key.stored) :=
    setCurrentRoute_builtin hr
  have hrouted : ((w.php.setRequest request).withCurrentRoute router key.stored).setRequest
      { request with routed := true } = w.php.routedBy router key.stored request := by
    rw [Php.setRequest_withCurrentRoute, Php.setRequest_setRequest, Php.routedBy]
  rw [routerRoute, Run.bind_of_ok hcall]
  dsimp only
  rw [Run.bind_of_ok hcurrent, Run.bind_of_ok (updateRequest_eq _ _)]
  simp only [World.update, Php.request_withCurrentRoute, Php.request_setRequest, hrouted]
  rfl

/-- Routes that decline leave the run where it was. -/
theorem routerRoute_skips {declined : List (Key × BuiltinRoute)} (he : w.php.exception = none)
    (h : ∀ p ∈ declined, p.2.declines w.php.routeEnv w.php.request = true) :
    routerRoute call (routeObjects declined ++ routes) w = routerRoute call routes w := by
  induction declined with
  | nil => rfl
  | cons p declined ih =>
    have hp := h p List.mem_cons_self
    rw [← ih fun q hq => h q (List.mem_cons_of_mem _ hq)]
    exact routerRoute_declined call he hp

/-- What is asked of a routing over these entries: the last one that matches is the only one that
leaves its mark, and without a match nothing changes. -/
def LastMatchWins (w : World γ) (router : Router) (entries : Table Key BuiltinRoute) : Prop :=
  match lastMatch w.php.routeEnv w.php.request entries with
  | none => routerRoute call router.routes.reverse w = (.ok false, w)
  | some (key, route) => ∃ request,
      route.route w.php.routeEnv w.php.request = some (true, request) ∧
      routerRoute call router.routes.reverse w =
        (.ok true, w.update fun php => php.routedBy router key request)

theorem lastMatchWins_of_none {entries : Table Key BuiltinRoute} (he : w.php.exception = none)
    (hroutes : router.routes = routeObjects entries)
    (h : lastMatch w.php.routeEnv w.php.request entries = none) :
    LastMatchWins call w router entries := by
  have hall : ∀ p ∈ entries.reverse, p.2.declines w.php.routeEnv w.php.request = true := by
    simpa [lastMatch] using h
  have hskip : routerRoute call (routeObjects entries.reverse ++ []) w = (.ok false, w) :=
    routerRoute_skips call he hall
  rw [LastMatchWins, h, hroutes]
  simpa [routeObjects] using hskip

/-- Before the last match every route declines. -/
theorem routerRoute_of_lastMatch {entries : Table Key BuiltinRoute}
    (he : w.php.exception = none) (hroutes : router.routes = routeObjects entries)
    (h : lastMatch w.php.routeEnv w.php.request entries = some (key, route)) :
    ∃ rest, routerRoute call router.routes.reverse w =
      routerRoute call ((key, .builtin route) :: rest) w := by
  obtain ⟨-, declined, rest, hsplit, hall⟩ := List.find?_eq_some_iff_append.mp h
  refine ⟨routeObjects rest, ?_⟩
  rw [hroutes, routeObjects, ← List.map_reverse, hsplit,
    List.map_append]
  exact routerRoute_skips call he (by simpa using hall)

end

/-- The key comes back as it is. -/
def Key.NulFree : Key → Prop
  | .name key => NUL ∉ key
  | .index _ => True

theorem Key.stored_eq_self {key : Key} : key.stored = key ↔ key.NulFree := by
  cases key with
  | index idx => simp [stored, NulFree]
  | name key =>
    simp only [stored, NulFree, Key.name.injEq]
    constructor
    · intro h
      rw [← h]
      exact nul_not_mem_cstr key
    · exact cstr_of_no_nul

theorem routedBy_inj {γ : Type} {w : World γ} {router : Router} {key key' : Key}
    {request : Request}
    (h : w.update (fun php => php.routedBy router key request) =
      w.update fun php => php.routedBy router key' request) : key = key' := by
  have hslot := congrArg (fun w : World γ => w.php.dispatcher.router) h
  simpa [World.update, Php.routedBy, Php.withCurrentRoute] using hslot

section
variable {γ : Type} {call : Calls γ} {w : World γ} {router : Router} {key : Key}
  {route : BuiltinRoute} {entries : Table Key BuiltinRoute}

theorem routerRoute_lastMatch (he : w.php.exception = none)
    (hr : w.php.dispatcher.router = .builtin router)
    (hroutes : router.routes = routeObjects entries)
    (h : lastMatch w.php.routeEnv w.php.request entries = some (key, route)) {request : Request}
    (hroute : route.route w.php.routeEnv w.php.request = some (true, request)) :
    routerRoute call router.routes.reverse w =
      (.ok true, w.update fun php => php.routedBy router key.stored request) := by
  obtain ⟨rest, hrun⟩ := routerRoute_of_lastMatch call he hroutes h
  exact hrun.trans (routerRoute_matched call he hr hroute)

theorem dispatcherRoute_matched (he : w.php.exception = none)
    (hr : w.php.dispatcher.router = .builtin router)
    (hroutes : router.routes = routeObjects entries)
    (h : lastMatch w.php.routeEnv w.php.request entries = some (key, route)) {request : Request}
    (hroute : route.route w.php.routeEnv w.php.request = some (true, request)) :
    dispatcherRoute call w =
      (.ok true, w.update fun php => php.routedBy router key.stored request) := by
  have hrouted : routerRoute call _ w = _ := routerRoute_lastMatch he hr hroutes h hroute
  simp only [dispatcherRoute]
  rw [Run.bind_of_ok (rfl : getPhp w = (.ok w.php, w)), hr]
  simp only
  rw [Run.bind_of_ok hrouted]
  rfl

theorem winner_of_lastMatchWins (he : w.php.exception = none)
    (hr : w.php.dispatcher.router = .builtin router)
    (hroutes : router.routes = routeObjects entries)
    (hget : ∀ p ∈ w.php.get, p.2.isString = true)
    (h : lastMatch w.php.routeEnv w.php.request entries = some (key, route))
    (hwins : LastMatchWins call w router entries) :
    key.NulFree ∧ ¬route.Breaks w.php.request := by
  simp only [LastMatchWins, h] at hwins
  obtain ⟨request, hroute, hresult⟩ := hwins
  rw [routerRoute_lastMatch he hr hroutes h hroute] at hresult
  refine ⟨Key.stored_eq_self.mp (routedBy_inj (Prod.mk.inj hresult).2), fun houtside => ?_⟩
  have hnone : route.route w.php.routeEnv w.php.request = none :=
    (BuiltinRoute.route_eq_none hget).mpr houtside
  rw [hnone] at hroute
  exact absurd hroute (by simp)

theorem lastMatchWins_of_winner (he : w.php.exception = none)
    (hr : w.php.dispatcher.router = .builtin router)
    (hroutes : router.routes = routeObjects entries)
    (hget : ∀ p ∈ w.php.get, p.2.isString = true)
    (h : lastMatch w.php.routeEnv w.php.request entries = some (key, route))
    (hnul : key.NulFree) (hinside : ¬route.Breaks w.php.request) :
    LastMatchWins call w router entries := by
  have hmatch : route.declines w.php.routeEnv w.php.request = false := by
    simpa using List.find?_some h
  simp only [LastMatchWins, h]
  cases hroute : route.route w.php.routeEnv w.php.request with
  | none => exact absurd ((BuiltinRoute.route_eq_none hget).mp hroute) hinside
  | some answer =>
    obtain ⟨ok, request⟩ := answer
    cases ok with
    | false => simp [BuiltinRoute.declines, hroute] at hmatch
    | true =>
      refine ⟨request, rfl, ?_⟩
      rw [routerRoute_lastMatch he hr hroutes h hroute, Key.stored_eq_self.mpr hnul]

end

/-- The last match wins, whatever was registered how often in which order, exactly when its key has
no NUL and it does not read outside the URI. -/
theorem last_match_wins_iff {γ : Type} (call : Calls γ) {w : World γ} {router : Router}
    (defaultRoute : Option Zval) (calls : List Registration)
    (hr : w.php.dispatcher.router = .builtin router)
    (hroutes : router.routes = (calls.foldl Registration.run (routerInstance defaultRoute)).routes)
    (he : w.php.exception = none) (hget : ∀ p ∈ w.php.get, p.2.isString = true) :
    LastMatchWins call w router (Table.latest (registrations defaultRoute calls)) ↔
      ∀ key route, lastMatch w.php.routeEnv w.php.request
          (Table.latest (registrations defaultRoute calls)) = some (key, route) →
        key.NulFree ∧ ¬route.Breaks w.php.request := by
  rw [routes_of_registrations] at hroutes
  constructor
  · intro hwins key route h
    exact winner_of_lastMatchWins he hr hroutes hget h hwins
  · intro hcond
    cases h : lastMatch w.php.routeEnv w.php.request
        (Table.latest (registrations defaultRoute calls)) with
    | none => exact lastMatchWins_of_none call he hroutes h
    | some p =>
      obtain ⟨hnul, hinside⟩ := hcond p.1 p.2 h
      exact lastMatchWins_of_winner he hr hroutes hget h hnul hinside

/-- An application about to route a request, with nothing but its router. -/
def routingPhp (router : Router) (request : Request) : Php Unit where
  globals := ⟨none, [], false, false, [], false, false, 5, true, false, none⟩
  application := none
  dispatcher := ⟨⟨[], [], []⟩, 0, true, none, .builtin router, none, true, true, false⟩
  requests := fun _ => request
  objects := fun _ => []
  bodies := fun _ => []
  nextObject := 1
  classTable := []
  files := fun _ => .missing
  strerror := []
  hasErrorHandler := false
  get := [(.name [99], .string [120])]
  pregMatch := fun _ _ => none
  output := []
  exception := none
  user := ()

/-- A route replaced in place, and a config with one valid entry. -/
def sampleRegistrations : List Registration :=
  [.addRoute [97] .static, .addRoute [98] (.simple ⟨[109], [99], [100]⟩),
    .addConfig [(.index 0, .null),
      (.index 1, .array [(.name (lit "type"), .string (lit "Map"))])],
    .addRoute [97] (.supervar [122])]

def sampleRouter : Router := sampleRegistrations.foldl Registration.run (routerInstance none)

theorem sample_get {router : Router} :
    ∀ p ∈ (routingPhp router sampleRequest).get, p.2.isString = true := by
  rintro p hp
  obtain rfl := List.mem_singleton.mp hp
  rfl

theorem last_match_wins_iff_sample :
    let w := World.start (routingPhp sampleRouter sampleRequest)
    LastMatchWins (fun _ => Run.stop .exit) w sampleRouter
        (Table.latest (registrations none sampleRegistrations)) ↔
      ∀ key route, lastMatch w.php.routeEnv w.php.request
          (Table.latest (registrations none sampleRegistrations)) = some (key, route) →
        key.NulFree ∧ ¬route.Breaks w.php.request := by
  intro w
  exact last_match_wins_iff _ none sampleRegistrations rfl rfl rfl sample_get

/-- A route added under `a`, NUL, `b` is the current route as `a`. -/
theorem nul_key_cut :
    let calls := [Registration.addRoute [97, 0, 98] .static]
    let router := calls.foldl Registration.run (routerInstance none)
    ¬LastMatchWins (fun _ => Run.stop .exit) (World.start (routingPhp router sampleRequest)) router
      (Table.latest (registrations none calls)) := by
  intro calls router hwins
  have hentries : Table.latest (registrations none calls) =
      [(.name (lit "_default"), .static), (.name [97, 0, 98], .static)] := by
    have hne : Key.name (lit "_default") ≠ .name [97, 0, 98] := by
      decide
    rw [← Table.merge_nil_eq_latest]
    simp [calls, registrations, Registration.entries, Table.merge, Table.update, hne]
  have hlast : lastMatch (routingPhp router sampleRequest).routeEnv sampleRequest
      (Table.latest (registrations none calls)) = some (.name [97, 0, 98], .static) := by
    rw [hentries]
    rfl
  have hwinner := winner_of_lastMatchWins (w := .start (routingPhp router sampleRequest)) rfl rfl
    (routes_of_registrations none calls) sample_get hlast hwins
  exact hwinner.1 (by decide)

end Yaf
