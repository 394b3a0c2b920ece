import Yaf.Router

namespace Yaf
open Base

/-- An entry of a route config that must be a string. -/
def configText (config : Table Key Zval) (name : Bytes) : Option Bytes :=
  match Table.find? config (.name name) with
  | some (.string s) => some s
  | _ => none

/-- An entry of a route config that must be an array. -/
def configArray (config : Table Key Zval) (name : Bytes) : Option (Table Key Zval) :=
  match Table.find? config (.name name) with
  | some (.array t) => some t
  | _ => none

/-- `yaf_route_instance`. The type is compared without regard to case. The lookups of `verify` and
`reverse` name the route entry. -/
def routeInstance (config : Table Key Zval) : Option BuiltinRoute := do
  let type ← configText config (lit "type")
  if equalsCi type (lit "rewrite") then
    let m ← configText config (lit "match")
    let defs ← configArray config (lit "route")
    let verify := configArray config (lit "route")
    pure (.rewrite (routeRewriteInstance m defs verify))
  else if equalsCi type (lit "regex") then
    let m ← configText config (lit "match")
    let defs ← configArray config (lit "route")
    let map := configArray config (lit "map")
    let verify := configArray config (lit "route")
    let reverse := configText config (lit "route")
    pure (.regex (routeRegexInstance m defs map verify (reverse.map .string)))
  else if equalsCi type (lit "map") then
    let ctlPrefer := ((Table.find? config (.name (lit "controllerPrefer"))).map Zval.isTrue).getD
      false
    let delimiter := configText config (lit "delimiter")
    pure (.map (routeMapInstance ctlPrefer delimiter))
  else if equalsCi type (lit "simple") then
    let module ← configText config (lit "module")
    let controller ← configText config (lit "controller")
    let action ← configText config (lit "action")
    pure (.simple (routeSimpleInstance module controller action))
  else if equalsCi type (lit "supervar") then
    let varname ← configText config (lit "varname")
    (routeSupervarInstance varname).map .supervar
  else none

/-- The entry of a config as a route. Whatever is not an array is none. -/
def configRoute : Zval → Option BuiltinRoute
  | .array config => routeInstance config
  | _ => none

end Yaf
