import Yaf.Exception
import Yaf.Request

namespace Yaf
open Base

def blankOrSlash (c : UInt8) : Bool := c == blank || c == slash

/-- The macro `strip_slashs`. -/
def stripSlashs (p : Bytes) : Bytes := p.dropWhile blankOrSlash

/-- `strstr(p, "/")`: the text before the slash and the text after it. -/
def strstrSlash (p : Bytes) : Option (Bytes × Bytes) :=
  if slash ∈ p then some (p.takeWhile (· != slash), (p.dropWhile (· != slash)).tail) else none

/-- The trailing blanks and slashes are overwritten with NULs; the first character stays. -/
def trimUri : Bytes → Bytes
  | [] => []
  | c :: s => c :: trimRight blankOrSlash s

/-- The pointers of `yaf_route_pathinfo_route`: the three names and `rest`. -/
structure PathInfo where
  module : Option Bytes := none
  controller : Option Bytes := none
  action : Option Bytes := none
  rest : Option Bytes := none
  deriving DecidableEq, Repr

/-- The first scan: a module and a controller, or a controller. -/
def pathInfoHead (modules : List Bytes) (p : Bytes) : PathInfo × Bytes :=
  match strstrSlash p with
  | none => ({}, p)
  | some (t, q) =>
    if applicationIsModuleName modules t then
      let q := stripSlashs q
      match strstrSlash q with
      | none => ({ module := some t }, q)
      | some (c, r) => ({ module := some t, controller := some c }, r)
    else ({ controller := some t }, q)

/-- The second scan: an action, when a slash follows it. -/
def pathInfoAction (i : PathInfo) (p : Bytes) : PathInfo × Bytes :=
  match strstrSlash p with
  | none => (i, p)
  | some (a, q) => ({ i with action := some a }, q)

/-- What is left goes to the first name that is missing, or is the rest. -/
def pathInfoTail (modules : List Bytes) (i : PathInfo) (p : Bytes) : PathInfo :=
  if p = [] then i
  else if i.module = none ∧ i.controller = none ∧ i.action = none ∧
      applicationIsModuleName modules p then { i with module := some p }
  else if i.controller = none then { i with controller := some p }
  else if i.action = none then { i with action := some p }
  else { i with rest := some p }

/-- The three-way fix-up of the names. -/
def pathInfoFix (actionPrefer : Bool) (i : PathInfo) : PathInfo :=
  if i.module ≠ none ∧ i.controller = none then
    { i with controller := i.module, module := none }
  else if i.module ≠ none ∧ i.action = none then
    { i with action := i.controller, controller := i.module, module := none }
  else if i.controller ≠ none ∧ i.action = none then
    if actionPrefer then { i with action := i.controller, controller := none } else i
  else i

def pathInfo (modules : List Bytes) (actionPrefer : Bool) (reqUri : Bytes) : PathInfo :=
  if reqUri = [] ∨ reqUri = [slash] then {}
  else
    let p := stripSlashs (cstr (trimUri reqUri))
    let (i, p) := pathInfoHead modules p
    let (i, p) := pathInfoAction i (stripSlashs p)
    pathInfoFix actionPrefer (pathInfoTail modules i (stripSlashs p))

/-- The pairs of `yaf_router_parse_parameters`, one after the other over what is there. A last
key without a value holds null; a key whose length is kept as zero is passed over. -/
def parseParametersGo (params : Table Key Zval) : List Bytes → Table Key Zval
  | [] => params
  | [key] =>
    if uintPrefix key = [] then params
    else Table.update params (.name (uintPrefix key)) .null
  | key :: value :: segs =>
    if uintPrefix key = [] then parseParametersGo params (value :: segs)
    else parseParametersGo (Table.update params (.name (uintPrefix key)) (.string value)) segs

/-- `yaf_router_parse_parameters`. The keys are not read as numbers. -/
def routerParseParameters (uri : Bytes) : Table Key Zval := parseParametersGo [] (strtok slash uri)

/-- Write a name when it was found. -/
def setName (slot : Zval) : Option Bytes → Zval
  | none => slot
  | some s => .string s

/-- What is found is written to the request. -/
def applyPathInfo (request : Request) (i : PathInfo) : Request :=
  let request := { request with
    module := setName request.module i.module
    controller := setName request.controller i.controller
    action := setName request.action i.action }
  match i.rest with
  | none => request
  | some rest => requestSetParamsMulti request (routerParseParameters rest)

/-- `yaf_route_pathinfo_route`. -/
def routePathinfoRoute (modules : List Bytes) (actionPrefer : Bool) (request : Request)
    (reqUri : Bytes) : Bool × Request :=
  (true, applyPathInfo request (pathInfo modules actionPrefer reqUri))

/-- The URI behind the base URI, when it starts with it. -/
def stripBaseUri (request : Request) : Bytes :=
  match request.baseUri with
  | .string base =>
    if strncasecmp request.uri base base.length then request.uri.drop base.length
    else request.uri
  | _ => request.uri

/-- `yaf_route_static_route`. -/
def routeStaticRoute (modules : List Bytes) (actionPrefer : Bool) (request : Request) :
    Bool × Request :=
  (true, (routePathinfoRoute modules actionPrefer request (stripBaseUri request)).2)

/-- The names and the query of an assemble call, each value as `zval_get_string` gives it. -/
abbrev Info := Table Key Bytes

def assembleModuleFormat : Key := .name (lit ":m")
def assembleControllerFormat : Key := .name (lit ":c")
def assembleActionFormat : Key := .name (lit ":a")

/-- `/module/controller/action`, the part the static and the supervar route share. -/
def assemblePath (info : Info) : Except Trigger Bytes :=
  let uri := match Table.find? info assembleModuleFormat with
    | some val => slash :: val
    | none => []
  match Table.find? info assembleControllerFormat with
  | none => .error ⟨.typeError, lit "You need to specify the controller by ':c'"⟩
  | some c =>
    match Table.find? info assembleActionFormat with
    | none => .error ⟨.typeError, lit "You need to specify the action by ':a'"⟩
    | some a => .ok (uri ++ slash :: c ++ slash :: a)

/-- `key=value`, for the entries that have a string key. -/
def queryPairs (query : Info) : List Bytes :=
  query.filterMap fun p =>
    match p.1 with
    | .name key => some (key ++ 61 :: p.2)
    | .index _ => none

/-- `yaf_route_static_assemble`. -/
def routeStaticAssemble (info : Info) (query : Option Info) : Except Trigger Bytes := do
  let uri ← assemblePath info
  match queryPairs (query.getD []) with
  | [] => .ok uri
  | pair :: pairs => .ok (uri ++ 63 :: pair ++ pairs.flatMap fun p => 38 :: p)

end Yaf
