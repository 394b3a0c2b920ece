import Yaf.Base.Buffer
import Yaf.Route.Map
import Yaf.Route.Regex
import Yaf.Route.Rewrite

namespace Yaf
open Base

/-- `zend_string_init` over `len` characters from `start` on; `none` when they leave the string. -/
def zendStringInit (s : Bytes) (start : Nat) (len : Option Nat) : Option Bytes :=
  len.bind fun len => if start + len ≤ s.length then some ((s.drop start).take len) else none

/-- A difference of two lengths; `none` when it wraps around. -/
def lengthDiff (n m : Nat) : Option Nat := if m ≤ n then some (n - m) else none

/-- `estrdup` from a position of a string on, up to the next NUL. -/
def estrdup (s : Bytes) (start : Nat) : Option Bytes := Buffer.text? NUL (s ++ [NUL]) start

/-- The URI a route matches against: `cut` when the base compares equal, `whole` otherwise. -/
def requestUri (cut : Bytes → Nat → Option Bytes) (whole : Bytes → Option Bytes)
    (request : Request) : Option Bytes :=
  match request.baseUri with
  | .string base =>
    if strncasecmp request.uri base base.length then cut request.uri base.length
    else whole request.uri
  | _ => whole request.uri

/-- The copy without the base, its length by subtraction. -/
def cutLength (uri : Bytes) (base : Nat) : Option Bytes :=
  zendStringInit uri base (lengthDiff uri.length base)

/-- `request_uri` of `yaf_route_static_route`. -/
def routeStaticRequestUri : Request → Option Bytes :=
  requestUri cutLength fun uri => zendStringInit uri 0 (some uri.length)

/-- `request_uri` of `yaf_route_rewrite_route`. -/
def routeRewriteRequestUri : Request → Option Bytes := requestUri cutLength some

/-- `request_uri` of `yaf_route_regex_route`. -/
def routeRegexRequestUri : Request → Option Bytes := requestUri cutLength some

/-- `req_uri` of `yaf_route_map_route`. -/
def routeMapRequestUri : Request → Option Bytes := requestUri estrdup fun uri => estrdup uri 0

/-- The URI without the base, when it starts with it but for case. -/
def uriBehindBase (uri base : Bytes) : Bytes :=
  if base.map toLower <+: uri.map toLower then uri.drop base.length else uri

section
variable {uri base : Bytes}

/-- The comparison over the length of the base is the test for a beginning. -/
theorem strncasecmp_iff (hu : NUL ∉ uri) (hb : NUL ∉ base) :
    strncasecmp uri base base.length = true ↔ base.map toLower <+: uri.map toLower := by
  rw [strncasecmp, cstr_of_no_nul hu, cstr_of_no_nul hb, List.take_length, beq_iff_eq,
    List.prefix_iff_eq_take, List.map_take, List.length_map]
  exact eq_comm

theorem length_le_of_base (h : base.map toLower <+: uri.map toLower) :
    base.length ≤ uri.length := by
  simpa using h.length_le

theorem cutLength_eq {n : Nat} (h : n ≤ uri.length) : cutLength uri n = some (uri.drop n) := by
  have hin : n + (uri.length - n) ≤ uri.length := by omega
  rw [cutLength, lengthDiff, if_pos h, zendStringInit, Option.bind_some, if_pos hin,
    List.take_of_length_le (by simp)]

theorem estrdup_eq {n : Nat} (h : n ≤ uri.length) :
    estrdup uri n = some (cstr (uri.drop n)) := by
  obtain ⟨post, hpost⟩ : ∃ post, uri.drop n ++ [NUL] = cstr (uri.drop n) ++ NUL :: post := by
    rcases cstr_split (uri.drop n) with hs | ⟨t, hs⟩
    · exact ⟨[], by rw [← hs]⟩
    · exact ⟨t ++ [NUL], by conv_lhs => rw [hs, List.append_assoc, List.cons_append]⟩
  have hmiddle := Buffer.text?_middle (nul_not_mem_cstr (uri.drop n)) (uri.take n) post
  rw [← hpost, ← List.append_assoc, List.take_append_drop, List.length_take, Nat.min_eq_left h]
    at hmiddle
  exact hmiddle

theorem estrdup_of_no_nul {n : Nat} (hu : NUL ∉ uri) (h : n ≤ uri.length) :
    estrdup uri n = some (uri.drop n) := by
  rw [estrdup_eq h, cstr_of_no_nul (fun hm => hu (List.mem_of_mem_drop hm))]

theorem requestUri_eq {cut : Bytes → Nat → Option Bytes} {whole : Bytes → Option Bytes}
    {request : Request} (hu : NUL ∉ request.uri) (hb : NUL ∉ base)
    (hbase : request.baseUri = .string base)
    (hcut : base.length ≤ request.uri.length →
      cut request.uri base.length = some (request.uri.drop base.length))
    (hwhole : whole request.uri = some request.uri) :
    requestUri cut whole request = some (uriBehindBase request.uri base) := by
  rw [requestUri, hbase, uriBehindBase]
  dsimp only
  by_cases h : base.map toLower <+: request.uri.map toLower
  · rw [if_pos ((strncasecmp_iff hu hb).mpr h), if_pos h, hcut (length_le_of_base h)]
  · rw [if_neg (fun hc => h ((strncasecmp_iff hu hb).mp hc)), if_neg h, hwhole]

end

/-- The text `stripBaseUri` gives the four routes. -/
theorem stripBaseUri_eq {request : Request} {base : Bytes} (hu : NUL ∉ request.uri)
    (hb : NUL ∉ base) (hbase : request.baseUri = .string base) :
    stripBaseUri request = uriBehindBase request.uri base := by
  rw [stripBaseUri, hbase, uriBehindBase]
  exact if_congr (strncasecmp_iff hu hb) rfl rfl

/-- All copies of the code make the same text, inside the URI, and the routes match against it. -/
theorem routes_match_behind_base {request : Request} {base : Bytes} (hu : NUL ∉ request.uri)
    (hb : NUL ∉ base) (hbase : request.baseUri = .string base) :
    routeStaticRequestUri request = some (uriBehindBase request.uri base) ∧
      routeRewriteRequestUri request = some (uriBehindBase request.uri base) ∧
      routeRegexRequestUri request = some (uriBehindBase request.uri base) ∧
      routeMapRequestUri request = some (uriBehindBase request.uri base) ∧
      stripBaseUri request = uriBehindBase request.uri base ∧
      (strncasecmp request.uri base base.length = true → base.length ≤ request.uri.length) := by
  have hlength := fun h => length_le_of_base ((strncasecmp_iff hu hb).mp h)
  refine ⟨?_, ?_, ?_, ?_, stripBaseUri_eq hu hb hbase, hlength⟩
  · apply requestUri_eq hu hb hbase cutLength_eq
    simp [zendStringInit]
  · exact requestUri_eq hu hb hbase cutLength_eq rfl
  · exact requestUri_eq hu hb hbase cutLength_eq rfl
  · exact requestUri_eq hu hb hbase (estrdup_of_no_nul hu) (estrdup_of_no_nul hu (Nat.zero_le _))

theorem routes_match_behind_app :
    let request := { freshRequest (lit "/App/index") with baseUri := .string (lit "/app") }
    routeStaticRequestUri request = some (lit "/index") ∧
      routeRewriteRequestUri request = some (lit "/index") ∧
      routeRegexRequestUri request = some (lit "/index") ∧
      routeMapRequestUri request = some (lit "/index") ∧
      stripBaseUri request = lit "/index" ∧
      (strncasecmp request.uri (lit "/app") (lit "/app").length = true →
        (lit "/app").length ≤ request.uri.length) := by
  intro request
  have hcut : uriBehindBase request.uri (lit "/app") = lit "/index" := by decide
  rw [← hcut]
  exact routes_match_behind_base (by decide) (by decide) rfl

end Yaf
