import Yaf.Base.Replace
import Yaf.Php.Pcre
import Yaf.Route.Static

namespace Yaf
open Base

/-- A rewrite route: its match, the names it routes to, and a table that nothing reads. -/
structure RouteRewrite where
  «match» : Bytes
  route : Table Key Zval
  verify : Option (Table Key Zval)

/-- `yaf_route_rewrite_instance`. -/
def routeRewriteInstance (m : Bytes) (route : Table Key Zval) (verify : Option (Table Key Zval)) :
    RouteRewrite where
  «match» := m
  route := route
  verify := verify

/-- The pattern of a rewrite route, segment by segment; a star takes the rest. No text of a
negative length can be appended. -/
def rewriteSegments : List Bytes → Option Bytes
  | [] => some []
  | seg :: segs =>
    -- what `int seg_len` keeps of the length is tested first
    if intLength seg = some 0 then rewriteSegments segs
    else if seg.head? = some 42 then some (slash :: lit "(?P<__yaf_route_rest>.*)")
    else do
      let text ← intPrefix seg
      let pattern ← rewriteSegments segs
      if seg.head? = some colon then
        some (slash :: lit "(?P<" ++ text.tail ++ lit ">[^/]+)" ++ pattern)
      else some (slash :: text ++ pattern)

def rewritePattern (m : Bytes) : Option Bytes :=
  (rewriteSegments (strtok slash m)).map fun pattern => 35 :: 94 :: pattern ++ [35, 105]

/-- The named groups of a match, with the rest cut into pairs. -/
def rewriteGroups (subparts : List (Key × Bytes)) : Table Key Zval :=
  subparts.foldl (fun ret p =>
    match p.1 with
    | .index _ => ret
    | .name key =>
      if key = lit "__yaf_route_rest" then Table.merge ret (routerParseParameters (cstr p.2))
      else Table.update ret (.name key) (.string p.2)) []

/-- `yaf_route_rewrite_match`; the outer `none` stands for a pattern that cannot be built. -/
def routeRewriteMatch (pregMatch : PregMatch) (route : RouteRewrite) (uri : Bytes) :
    Option (Option (Table Key Zval)) :=
  if uri = [] then some none
  else (rewritePattern route.match).map fun pattern =>
    match pregMatch pattern uri with
    | none | some [] => none
    | some subparts => some (rewriteGroups subparts)

/-- A name of the route, taken as it is or, behind a colon, from a group. -/
def rewriteName (route : RouteRewrite) (args : Table Key Zval) (name : Bytes) (slot : Zval) :
    Zval :=
  match Table.find? route.route (.name name) with
  | some (.string (c :: s)) =>
    if c = colon then
      match Table.find? args (.name s) with
      | some (.string v) => .string v
      | _ => slot
    else .string (c :: s)
  | some (.string []) => .string []
  | _ => slot

/-- `yaf_route_rewrite_route`. -/
def routeRewriteRoute (pregMatch : PregMatch) (route : RouteRewrite) (request : Request) :
    Option (Bool × Request) :=
  (routeRewriteMatch pregMatch route (stripBaseUri request)).map fun m =>
    match m with
    | none => (false, request)
    | some args =>
      (true, requestSetParamsMulti { request with
        module := rewriteName route args (lit "module") request.module
        controller := rewriteName route args (lit "controller") request.controller
        action := rewriteName route args (lit "action") request.action } args)

/-- A value of the info: what `zval_get_string` gives, and whether it is a string already. -/
structure InfoValue where
  isString : Bool
  text : Bytes
  deriving DecidableEq, Repr

/-- `key/value/` for the string entries; the first character of a key is skipped, so an empty one
is read past its end. -/
def wildcardText : Table Key InfoValue → Option Bytes
  | [] => some []
  | (.index _, _) :: pidents => wildcardText pidents
  | (.name [], v) :: pidents => if v.isString then none else wildcardText pidents
  | (.name (_ :: key), v) :: pidents =>
    if v.isString then (wildcardText pidents).map fun w => key ++ slash :: v.text ++ slash :: w
    else wildcardText pidents

/-- The loop over the segments of the match: each name is replaced in the whole URI, a star by the
entries no segment has used. A null pointer is read when there is none. -/
def assembleSegments (info : Table Key InfoValue) :
    Table Key InfoValue → Bytes → List Bytes → Option Bytes
  | _, uri, [] => some uri
  | pidents, uri, seg :: segs =>
    if seg.head? = some 42 then
      match wildcardText pidents with
      | none | some [] => none
      | some wildcard => some (replaceAll [42] wildcard uri)
    else if seg.head? = some colon then
      match Table.find? info (.name seg) with
      | some v =>
        assembleSegments info (Table.erase pidents (.name seg)) (replaceAll seg v.text uri) segs
      | none => assembleSegments info pidents uri segs
    else assembleSegments info pidents uri segs

/-- `?key=value&…`, without its last character. -/
def rewriteQuery (query : Info) : Bytes :=
  (63 :: (queryPairs query).flatMap fun pair => pair ++ [38]).dropLast

/-- `yaf_route_rewrite_assemble`. -/
def routeRewriteAssemble (route : RouteRewrite) (info : Table Key InfoValue)
    (query : Option Info) : Option Bytes :=
  (assembleSegments info info route.match (strtok slash route.match)).map fun uri =>
    uri ++ (query.map rewriteQuery).getD []

end Yaf
