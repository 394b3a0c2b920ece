import Yaf.Route.Static

namespace Yaf
open Base

/-- `yaf_request_query` on one of the superglobals. The name is not read as a number. -/
def requestQuery (carrier : Table Key Zval) (name : Bytes) : Option Zval :=
  Table.find? carrier (.name name)

/-- The three variable names of a simple route. -/
structure RouteSimple where
  module : Bytes
  controller : Bytes
  action : Bytes
  deriving DecidableEq, Repr

/-- `yaf_route_simple_instance`. -/
def routeSimpleInstance (module controller action : Bytes) : RouteSimple where
  module := module
  controller := controller
  action := action

/-- `yaf_route_supervar_instance`. There is no route without a name. -/
def routeSupervarInstance (name : Bytes) : Option Bytes := if name = [] then none else some name

/-- `yaf_route_simple_route`. The values are stored as they come, an unknown module is dropped. -/
def routeSimpleRoute (modules : List Bytes) (route : RouteSimple) (get : Table Key Zval)
    (request : Request) : Bool × Request :=
  let module := requestQuery get route.module
  let controller := requestQuery get route.controller
  let action := requestQuery get route.action
  if module.isNone && controller.isNone && action.isNone then (false, request)
  else
    let request := match module with
      | some (.string m) =>
        if applicationIsModuleName modules m then { request with module := .string m } else request
      | _ => request
    (true, { request with
      controller := controller.getD request.controller
      action := action.getD request.action })

/-- `yaf_route_supervar_route`. A value that is not a string is read as one all the same. -/
def routeSupervarRoute (modules : List Bytes) (actionPrefer : Bool) (varname : Bytes)
    (get : Table Key Zval) (request : Request) : Option (Bool × Request) :=
  match requestQuery get varname with
  | none => some (false, request)
  | some (.string uri) => some (true, (routePathinfoRoute modules actionPrefer request uri).2)
  | some _ => none

/-- `yaf_route_simple_assemble`. -/
def routeSimpleAssemble (route : RouteSimple) (info : Info) (query : Option Info) :
    Except Trigger Bytes :=
  let uri := match Table.find? info assembleModuleFormat with
    | some val => 63 :: route.module ++ 61 :: val ++ [38]
    | none => [63]
  match Table.find? info assembleControllerFormat with
  | none => .error ⟨.typeError, lit "You need to specify the controller by ':c'"⟩
  | some c =>
    let uri := uri ++ route.controller ++ 61 :: c ++ [38]
    match Table.find? info assembleActionFormat with
    | none => .error ⟨.typeError, lit "You need to specify the action by ':a'"⟩
    | some a =>
      .ok (uri ++ route.action ++ 61 :: a ++ (queryPairs (query.getD [])).flatMap fun p => 38 :: p)

/-- `yaf_route_supervar_assemble`. -/
def routeSupervarAssemble (varname : Bytes) (info : Info) (query : Option Info) :
    Except Trigger Bytes := do
  let uri ← assemblePath info
  .ok (63 :: varname ++ 61 :: uri ++ (queryPairs (query.getD [])).flatMap fun p => 38 :: p)

end Yaf
