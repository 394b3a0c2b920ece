import Yaf.Base.Checked
import Yaf.BaseUri
import Yaf.Php.Strstr
import Yaf.Php.Url

namespace Yaf
open Base

/-- What `php_url_parse` returns on success. The other components are not looked at. -/
structure PhpUrl where
  path : Option Bytes
  path_no_nul : ∀ p, path = some p → NUL ∉ p

/-- Nothing for a malformed URL. -/
abbrev UrlParse := Bytes → Option PhpUrl

inductive HttpFault where
  /-- `php_url_free` reads the members of what it is given. -/
  | freedNothing
  /-- Detection of the base read outside a string. -/
  | baseUri
  deriving DecidableEq, Repr

/-- The branch for `REQUEST_URI`. The parsed URL is freed whether there is one or not. -/
def requestUriPath (parse : UrlParse) (uri : Bytes) : Except HttpFault (Option Bytes) :=
  if strncasecmp uri (lit "http") 4 then
    match parse (cstr uri) with
    | none => .error .freedNothing
    | some urlInfo => .ok (urlInfo.path.map cstr)
  else
    match strstr (cstr uri) [questionMark] with
    | some (before, _) => .ok (some before)
    | none => .ok (some uri)

/-- The sources in their order, on a system other than Windows. -/
def settledUri (parse : UrlParse) (server : Table Key Zval) (requestUri : Option Bytes) :
    Except HttpFault (Option Bytes) :=
  match requestUri with
  | some uri => .ok (some uri)
  | none =>
    match serverText server (lit "PATH_INFO") with
    | some uri => .ok (some uri)
    | none =>
      match serverText server (lit "REQUEST_URI") with
      | some uri => requestUriPath parse uri
      | none => .ok (serverText server (lit "ORIG_PATH_INFO"))

/-- The first of two slashes is stepped over. -/
def collapseSlashes : Bytes → Bytes
  | c :: d :: s => if c = slash ∧ d = slash then collapseSlashes (d :: s) else c :: d :: s
  | s => s

/-- The URI the request is given, when there is one. -/
def requestHttpUri (parse : UrlParse) (server : Table Key Zval) (requestUri : Option Bytes) :
    Except HttpFault (Option Bytes) := do
  let settled ← settledUri parse server requestUri
  .ok (settled.map collapseSlashes)

/-- The method of the SAPI, or a name for the kind of SAPI. -/
def requestHttpMethod (sapi : Bytes) (method : Option Bytes) : Bytes :=
  match method with
  | some method => method
  | none => if strncasecmp sapi (lit "cli") 3 then lit "Cli" else lit "Unknow"

/-- The settled URI goes into the request, and the base is looked for in it. -/
def requestHttpStore (mblen : Mblen) (ext : Bytes) (server : Table Key Zval) (request : Request)
    (baseUri settled : Option Bytes) : Except HttpFault Request :=
  match settled with
  | none => .ok request
  | some uri =>
    match requestSetBaseUri mblen ext server { request with uri := uri } baseUri uri with
    | some request => .ok request
    | none => .error .baseUri

/-- `yaf_request_http_instance`: the method and the request. -/
def requestHttpInstance (parse : UrlParse) (mblen : Mblen) (ext sapi : Bytes)
    (method : Option Bytes) (server : Table Key Zval) (request : Request)
    (requestUri baseUri : Option Bytes) : Except HttpFault (Bytes × Request) := do
  let settled ← requestHttpUri parse server requestUri
  let request ← requestHttpStore mblen ext server request baseUri settled
  .ok (requestHttpMethod sapi method, { request with params := [] })

/-- Only leading slashes are taken off, down to one. -/
def Canonical (text uri : Bytes) : Prop :=
  ∃ n, text = List.replicate n slash ++ uri ∧ (n = 0 ∨ uri.head? = some slash) ∧
    ¬[slash, slash] <+: uri

theorem collapseSlashes_cons {s : Bytes} (h : s.head? = some slash) :
    collapseSlashes (slash :: s) = collapseSlashes s := by
  obtain ⟨t, rfl⟩ := List.head?_eq_some_iff.mp h
  rw [collapseSlashes, if_pos ⟨rfl, rfl⟩]

theorem collapseSlashes_of_not {s : Bytes} (h : ¬[slash, slash] <+: s) : collapseSlashes s = s := by
  fun_cases collapseSlashes s with
  | case1 c d s hslash =>
    refine absurd ⟨s, ?_⟩ h
    simp [hslash]
  | case2 => rfl
  | case3 => rfl

theorem canonical_collapseSlashes (text : Bytes) : Canonical text (collapseSlashes text) := by
  fun_induction collapseSlashes text with
  | case1 c d s hslash ih =>
    obtain ⟨rfl, rfl⟩ := hslash
    obtain ⟨n, htext, hhead, hno⟩ := ih
    refine ⟨n + 1, ?_, Or.inr ?_, hno⟩
    · rw [List.replicate_succ, List.cons_append, ← htext]
    · rcases hhead with rfl | hhead
      · rw [List.replicate_zero, List.nil_append] at htext
        rw [← htext]
        rfl
      · exact hhead
  | case2 c d s hslash =>
    refine ⟨0, rfl, Or.inl rfl, ?_⟩
    intro hpre
    simp only [List.cons_prefix_cons] at hpre
    exact hslash ⟨hpre.1.symm, hpre.2.1.symm⟩
  | case3 s hs =>
    refine ⟨0, rfl, Or.inl rfl, ?_⟩
    intro hpre
    obtain ⟨t, rfl⟩ := hpre
    exact hs slash slash t rfl

/-- There is one way to do it. -/
theorem canonical_iff {text uri : Bytes} : Canonical text uri ↔ uri = collapseSlashes text := by
  constructor
  · intro hcanonical
    obtain ⟨n, rfl, hhead, hno⟩ := hcanonical
    induction n with
    | zero => exact (collapseSlashes_of_not hno).symm
    | succ n ih =>
      have hslash : uri.head? = some slash := by simpa using hhead
      have hnext : (List.replicate n slash ++ uri).head? = some slash := by
        cases n with
        | zero => exact hslash
        | succ n => rfl
      rw [List.replicate_succ, List.cons_append, collapseSlashes_cons hnext]
      exact ih (Or.inr hslash)
  · intro h
    rw [h]
    exact canonical_collapseSlashes text

/-- An absolute URL, by its scheme. -/
def isHttpUrl (uri : Bytes) : Bool :=
  strncasecmp uri (lit "http://") 7 || strncasecmp uri (lit "https://") 8

/-- Where the URI of a request comes from. -/
inductive HttpSource where
  | plain (text : Bytes)
  | requestUri (text : Bytes)

/-- The first source that is there. -/
def httpSource (server : Table Key Zval) (requestUri : Option Bytes) : Option HttpSource :=
  (requestUri.map .plain).or <| ((serverText server (lit "PATH_INFO")).map .plain).or <|
    ((serverText server (lit "REQUEST_URI")).map .requestUri).or <|
      (serverText server (lit "ORIG_PATH_INFO")).map .plain

/-- The text a source stands for. -/
def HttpSource.text (parse : UrlParse) : HttpSource → Option Bytes
  | plain text => some text
  | requestUri text =>
    if isHttpUrl text then (parse (cstr text)).bind PhpUrl.path
    else some (text.takeWhile (· != questionMark))

/-- No failed parse is used, and the URI is the text of its source without surplus slashes. -/
def HttpUriCanonical (parse : UrlParse) (server : Table Key Zval) (requestUri : Option Bytes) :
    Prop :=
  ∃ settled, requestHttpUri parse server requestUri = .ok settled ∧
    Option.Rel Canonical ((httpSource server requestUri).bind (HttpSource.text parse)) settled

/-- A request line whose URI is parsed where it can be, and is a URL where it is parsed. -/
def RequestUriFits (parse : UrlParse) (uri : Bytes) : Prop :=
  if strncasecmp uri (lit "http") 4 = true then
    ∃ urlInfo, parse (cstr uri) = some urlInfo ∧
      (isHttpUrl uri = false → ∃ path, urlInfo.path = some path ∧
        collapseSlashes path = collapseSlashes (uri.takeWhile (· != questionMark)))
  else questionMark ∈ uri → questionMark ∈ cstr uri

theorem rel_canonical_iff {text uri : Option Bytes} :
    Option.Rel Canonical text uri ↔ uri = text.map collapseSlashes := by
  constructor
  · intro hrel
    cases hrel with
    | none => rfl
    | some h => exact congrArg some (canonical_iff.mp h)
  · intro h
    subst h
    cases text with
    | none => exact .none
    | some text => exact .some (canonical_collapseSlashes text)

theorem strncasecmp_front {s t : Bytes} {m n : Nat} (hmn : m ≤ n) (h : strncasecmp s t n = true) :
    strncasecmp s t m = true := by
  rw [strncasecmp, beq_iff_eq] at h ⊢
  have hfront := congrArg (List.take m) h
  rwa [← List.map_take, ← List.map_take, List.take_take, List.take_take, Nat.min_eq_left hmn]
    at hfront

/-- An absolute URL is parsed. -/
theorem isHttpUrl_parsed {uri : Bytes} (h : isHttpUrl uri = true) :
    strncasecmp uri (lit "http") 4 = true := by
  rcases Bool.or_eq_true_iff.mp h with hplain | hsecure
  · have hfront : strncasecmp uri (lit "http://") 4 = true := strncasecmp_front (by decide) hplain
    exact hfront
  · have hfront : strncasecmp uri (lit "https://") 4 = true := strncasecmp_front (by decide) hsecure
    exact hfront

theorem takeWhile_cstr {c : UInt8} {s : Bytes} (h : c ∈ cstr s) :
    (cstr s).takeWhile (· != c) = s.takeWhile (· != c) := by
  rcases cstr_split s with hs | ⟨t, hs⟩
  · rw [← hs]
  · conv_rhs => rw [hs]
    exact (takeWhile_append_of_mem h _).symm

section
variable {parse : UrlParse} {uri : Bytes}

/-- Text with a question mark and text without one are different URIs, slashes apart. -/
theorem collapseSlashes_query (h : questionMark ∈ uri) :
    collapseSlashes uri ≠ collapseSlashes (uri.takeWhile (· != questionMark)) := by
  intro he
  have hmem : ∀ text, questionMark ∈ collapseSlashes text ↔ questionMark ∈ text := by
    intro text
    obtain ⟨n, htext, -⟩ := canonical_collapseSlashes text
    conv_rhs => rw [htext]
    simp [show questionMark ≠ slash by decide]
  have hin := (hmem _).mpr h
  rw [he, hmem] at hin
  exact not_mem_takeWhile_bne questionMark uri hin

/-- A relative URI is cut at its question mark when the mark can be seen. -/
theorem requestUriPath_relative (h : strncasecmp uri (lit "http") 4 = false) :
    (requestUriPath parse uri).map (Option.map collapseSlashes) =
        .ok (some (collapseSlashes (uri.takeWhile (· != questionMark)))) ↔
      (questionMark ∈ uri → questionMark ∈ cstr uri) := by
  rw [requestUriPath, h]
  simp only [Bool.false_eq_true, if_false]
  by_cases hseen : questionMark ∈ cstr uri
  · rw [strstr_singleton, if_pos hseen, takeWhile_cstr hseen]
    exact iff_of_true rfl fun _ => hseen
  · rw [strstr_singleton, if_neg hseen]
    by_cases hin : questionMark ∈ uri
    · refine iff_of_false ?_ fun himp => hseen (himp hin)
      intro he
      exact collapseSlashes_query hin (Option.some.inj (Except.ok.inj he))
    · rw [takeWhile_bne hin]
      exact iff_of_true rfl fun h => absurd h hin

theorem requestUriPath_parsed {urlInfo : PhpUrl} (h : strncasecmp uri (lit "http") 4 = true)
    (hparse : parse (cstr uri) = some urlInfo) :
    requestUriPath parse uri = .ok urlInfo.path := by
  have hpath : urlInfo.path.map cstr = urlInfo.path := by
    cases hp : urlInfo.path with
    | none => rfl
    | some path => exact congrArg some (cstr_of_no_nul (urlInfo.path_no_nul path hp))
  rw [requestUriPath, if_pos h, hparse]
  exact congrArg Except.ok hpath

theorem requestUriPath_malformed (h : strncasecmp uri (lit "http") 4 = true)
    (hparse : parse (cstr uri) = none) : requestUriPath parse uri = .error .freedNothing := by
  rw [requestUriPath, if_pos h, hparse]

/-- The branch for `REQUEST_URI` gives the text of the source exactly when the URI fits. -/
theorem requestUriPath_iff :
    (requestUriPath parse uri).map (Option.map collapseSlashes) =
        .ok (((HttpSource.requestUri uri).text parse).map collapseSlashes) ↔
      RequestUriFits parse uri := by
  unfold RequestUriFits HttpSource.text
  cases hhttp : strncasecmp uri (lit "http") 4 with
  | false =>
    have hrelative : isHttpUrl uri = false := by
      cases hurl : isHttpUrl uri with
      | false => rfl
      | true =>
        rw [isHttpUrl_parsed hurl] at hhttp
        cases hhttp
    simp only [hrelative, Bool.false_eq_true, if_false]
    exact requestUriPath_relative hhttp
  | true =>
    simp only [if_true]
    cases hparse : parse (cstr uri) with
    | none =>
      rw [requestUriPath_malformed hhttp hparse]
      refine iff_of_false ?_ ?_
      · intro he
        cases he
      · intro hsome
        obtain ⟨urlInfo, hnone, -⟩ := hsome
        cases hnone
    | some urlInfo =>
      rw [requestUriPath_parsed hhttp hparse]
      simp only [Option.some.injEq, exists_eq_left', Option.bind_some]
      cases hurl : isHttpUrl uri with
      | true => exact iff_of_true rfl fun h => nomatch h
      | false =>
        simp only [Bool.false_eq_true, if_false, forall_const, Except.map, Except.ok.injEq,
          Option.map_some, Option.map_eq_some_iff]

end

theorem requestSetBaseUri_uri {mblen : Mblen} {ext : Bytes} {server : Table Key Zval}
    {request left : Request} {baseUri : Option Bytes} {uri : Bytes}
    (h : requestSetBaseUri mblen ext server request baseUri uri = some left) :
    left.uri = request.uri := by
  unfold requestSetBaseUri at h
  split at h
  · cases h
    rfl
  · split at h
    · obtain ⟨base, -, rfl⟩ := Option.map_eq_some_iff.mp h
      rfl
    · cases h
      rfl

/-- The property as an equation. -/
theorem httpUriCanonical_eq {parse : UrlParse} {server : Table Key Zval}
    {requestUri : Option Bytes} :
    HttpUriCanonical parse server requestUri ↔
      (settledUri parse server requestUri).map (Option.map collapseSlashes) =
        .ok (((httpSource server requestUri).bind (HttpSource.text parse)).map
          collapseSlashes) := by
  unfold HttpUriCanonical requestHttpUri
  simp only [rel_canonical_iff, exists_eq_right]
  cases settledUri parse server requestUri <;> exact Iff.rfl

/-- The URI is settled safely and canonically exactly when the request line fits, where it is the
source. -/
theorem http_uri_canonical_iff (parse : UrlParse) (server : Table Key Zval)
    (requestUri : Option Bytes) :
    HttpUriCanonical parse server requestUri ↔
      (requestUri = none → serverText server (lit "PATH_INFO") = none →
        ∀ uri, serverText server (lit "REQUEST_URI") = some uri → RequestUriFits parse uri) := by
  rw [httpUriCanonical_eq]
  unfold settledUri httpSource
  cases requestUri with
  | some text => exact iff_of_true rfl fun h => nomatch h
  | none =>
    cases serverText server (lit "PATH_INFO") with
    | some text => exact iff_of_true rfl fun _ h => nomatch h
    | none =>
      cases serverText server (lit "REQUEST_URI") with
      | none =>
        refine iff_of_true ?_ fun _ _ _ h => nomatch h
        cases serverText server (lit "ORIG_PATH_INFO") <;> rfl
      | some uri =>
        simp only [forall_const, Option.some.injEq, forall_eq']
        exact requestUriPath_iff

/-- What was settled is the URI of the request. -/
theorem requestHttpInstance_uri {parse : UrlParse} {mblen : Mblen} {ext sapi : Bytes}
    {method : Option Bytes} {server : Table Key Zval} {request left : Request}
    {requestUri baseUri : Option Bytes} {uri name : Bytes}
    (hsettled : requestHttpUri parse server requestUri = .ok (some uri))
    (hok : requestHttpInstance parse mblen ext sapi method server request requestUri baseUri =
      .ok (name, left)) : left.uri = uri := by
  rw [requestHttpInstance, hsettled, ok_bind, requestHttpStore] at hok
  cases hbase : requestSetBaseUri mblen ext server { request with uri := uri } baseUri uri with
  | none =>
    rw [hbase] at hok
    cases hok
  | some based =>
    rw [hbase] at hok
    cases hok
    exact requestSetBaseUri_uri hbase

/-- An absolute URL without a host. -/
theorem malformed_request_line :
    ¬HttpUriCanonical (fun _ => none)
      [(.name (lit "REQUEST_URI"), .string (lit "http:///index"))] none := by
  have huri : serverText [(.name (lit "REQUEST_URI"), .string (lit "http:///index"))]
      (lit "REQUEST_URI") = some (lit "http:///index") := by
    simp [serverText, requestQuery, Table.find?]
  have hinfo : serverText [(.name (lit "REQUEST_URI"), .string (lit "http:///index"))]
      (lit "PATH_INFO") = none := by
    have hne : lit "PATH_INFO" ≠ lit "REQUEST_URI" := by decide
    simp [serverText, requestQuery, Table.find?, Ne.symm hne]
  intro hcanonical
  obtain ⟨settled, hsettled, -⟩ := hcanonical
  have hhttp : strncasecmp (lit "http:///index") (lit "http") 4 = true := by decide
  rw [requestHttpUri, settledUri, hinfo, huri] at hsettled
  dsimp only at hsettled
  rw [requestUriPath_malformed hhttp rfl] at hsettled
  cases hsettled

end Yaf
