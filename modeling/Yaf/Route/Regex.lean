import Yaf.Route.Rewrite

namespace Yaf
open Base

/-- A regex route: its pattern, the names it routes to, the names of the numbered groups, and the
text its URIs are assembled from. -/
structure RouteRegex where
  «match» : Bytes
  route : Table Key Zval
  map : Option (Table Key Zval)
  verify : Option (Table Key Zval)
  reverse : Option Bytes

/-- `yaf_route_regex_instance`. A reverse that is not a string is dropped. -/
def routeRegexInstance (m : Bytes) (defs : Table Key Zval) (map verify : Option (Table Key Zval))
    (reverse : Option Zval) : RouteRegex where
  «match» := m
  route := defs
  map := map
  verify := verify
  reverse := reverse.bind Zval.string?

/-- `Yaf_Route_Regex::__construct`, with the error it triggers. -/
def routeRegexConstruct (m : Zval) (route : Table Key Zval) (map verify : Option (Table Key Zval))
    (reverse : Option Zval) : Except Trigger RouteRegex :=
  match m.text? with
  | none => .error ⟨.typeError, lit "Expects a valid string as the first parameter"⟩
  | some text =>
    if reverse.any (!·.isString) then
      .error ⟨.typeError, lit "Expects a valid string reverse as fourth parameter"⟩
    else .ok (routeRegexInstance text route map verify reverse)

/-- The name a group is stored under: its own, or the one the map has for its number. -/
def RouteRegex.groupName (route : RouteRegex) : Key → Option Bytes
  | .name key => some key
  | .index idx =>
    match Table.find? (route.map.getD []) (.index idx) with
    | some (.string name) => some name
    | _ => none

/-- `yaf_route_regex_match`: the groups that have a name. -/
def routeRegexMatch (pregMatch : PregMatch) (route : RouteRegex) (uri : Bytes) :
    Option (Table Key Zval) :=
  if uri = [] then none
  else
    match pregMatch route.match uri with
    | none | some [] => none
    | some subparts => some (subparts.foldl (fun ret p =>
        match route.groupName p.1 with
        | some name => Table.update ret (.name name) (.string p.2)
        | none => ret) [])

/-- The names are taken from the route table as a rewrite route takes them. -/
def regexName (route : RouteRegex) (args : Table Key Zval) (name : Bytes) (slot : Zval) : Zval :=
  rewriteName ⟨route.match, route.route, route.verify⟩ args name slot

/-- `yaf_route_regex_route`. -/
def routeRegexRoute (pregMatch : PregMatch) (route : RouteRegex) (request : Request) :
    Bool × Request :=
  match routeRegexMatch pregMatch route (stripBaseUri request) with
  | none => (false, request)
  | some args =>
    (true, requestSetParamsMulti { request with
      module := regexName route args (lit "module") request.module
      controller := regexName route args (lit "controller") request.controller
      action := regexName route args (lit "action") request.action } args)

/-- The name of a format is put in for it. -/
def reverseName (info : Table Key InfoValue) (fmt uri : Bytes) : Bytes :=
  match Table.find? info (.name fmt) with
  | some val => replaceAll fmt val.text uri
  | none => uri

/-- `yaf_route_regex_assemble`. The action and the values of the query are read as strings whatever
they are. -/
def routeRegexAssemble (route : RouteRegex) (info : Table Key InfoValue)
    (query : Option (Table Key InfoValue)) : Option (Except Trigger Bytes) :=
  match route.reverse with
  | none => some (.error ⟨.typeError, lit "Reverse property is not a valid string"⟩)
  | some reverse =>
    let uri := reverseName info (lit ":c") (reverseName info (lit ":m") reverse)
    if (Table.find? info (.name (lit ":a"))).any (!·.isString) then none
    else
      let uri := reverseName info (lit ":a") uri
      match query with
      | none => some (.ok uri)
      | some query =>
        if query.any fun p => p.1.isName && !p.2.isString then none
        else some (.ok (uri ++ rewriteQuery (query.map fun p => (p.1, p.2.text))))

end Yaf
