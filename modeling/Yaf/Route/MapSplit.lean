import Yaf.Route.RequestUri

namespace Yaf
open Base

/-- A URI and what follows the delimiter in it: cut where the delimiter stands first, if it stands
behind a slash and before a slash or the end. -/
def splitAtDelimiter (uri delimiter : Bytes) : Bytes × Option Bytes :=
  match strstr uri delimiter with
  | none => (uri, none)
  | some (path, rest) =>
    if path.getLast? = some slash ∧ (rest = [] ∨ rest.head? = some slash) then
      (path, if rest = [] then none else some rest)
    else (uri, none)

/-- The route copies its URI from inside the one of the request, looks at nothing outside of the
copy, and splits it at the delimiter. -/
def MapSplits (route : RouteMap) (delimiter : Bytes) (request : Request) : Prop :=
  ∃ uri, routeMapRequestUri request = some uri ∧
    mapSplit route uri = some (splitAtDelimiter uri delimiter)

/-- A base that compares equal is not longer than the URI, the URI behind it does not start with the
delimiter, and a delimiter that a NUL cuts does not split it. -/
structure DelimiterFits (delimiter : Bytes) (request : Request) : Prop where
  base : ∀ base, request.baseUri = .string base →
    strncasecmp request.uri base base.length = true → base.length ≤ request.uri.length
  start : ¬cstr delimiter <+: cstr (stripBaseUri request)
  cut : NUL ∈ delimiter → ∀ path rest,
    strstr (cstr (stripBaseUri request)) (cstr delimiter) = some (path, rest) →
      path.getLast? = some slash →
        delimiter.length - (cstr delimiter).length < rest.length ∧
          (rest.drop (delimiter.length - (cstr delimiter).length)).head? ≠ some slash

theorem estrdup_eq_some {s uri : Bytes} {n : Nat} :
    estrdup s n = some uri ↔ n ≤ s.length ∧ uri = cstr (s.drop n) := by
  constructor
  · intro h
    have hle : n ≤ s.length := by
      by_contra hlt
      have hdrop : (s ++ [NUL]).drop n = [] := List.drop_eq_nil_of_le (by simp; omega)
      rw [estrdup, Buffer.text?, hdrop, if_neg (by simp)] at h
      cases h
    rw [estrdup_eq hle] at h
    exact ⟨hle, (Option.some.inj h).symm⟩
  · intro h
    obtain ⟨hle, huri⟩ := h
    rw [estrdup_eq hle, huri]

/-- The copy the map route works on is what `routeMapRoute` splits. -/
theorem routeMapRequestUri_eq_some {request : Request} {uri : Bytes} :
    routeMapRequestUri request = some uri ↔
      (∀ base, request.baseUri = .string base →
        strncasecmp request.uri base base.length = true → base.length ≤ request.uri.length) ∧
      uri = cstr (stripBaseUri request) := by
  by_cases hstring : ∃ base, request.baseUri = .string base
  · obtain ⟨base, hbase⟩ := hstring
    rw [routeMapRequestUri, requestUri, stripBaseUri, hbase]
    dsimp only
    by_cases hcmp : strncasecmp request.uri base base.length = true
    · rw [if_pos hcmp, if_pos hcmp, estrdup_eq_some]
      simp [hcmp]
    · rw [if_neg hcmp, if_neg hcmp, estrdup_eq_some]
      simp [hcmp]
  · have hwhole : stripBaseUri request = request.uri ∧
        routeMapRequestUri request = estrdup request.uri 0 := by
      rw [stripBaseUri, routeMapRequestUri, requestUri]
      cases hbase : request.baseUri with
      | string base => exact absurd ⟨base, hbase⟩ hstring
      | _ => exact ⟨rfl, rfl⟩
    rw [hwhole.1, hwhole.2, estrdup_eq_some, List.drop_zero]
    constructor
    · intro h
      obtain ⟨_, huri⟩ := h
      exact ⟨fun base hbase => absurd ⟨base, hbase⟩ hstring, huri⟩
    · intro h
      obtain ⟨_, huri⟩ := h
      exact ⟨Nat.zero_le _, huri⟩

section
variable {prefer : Bool} {d uri : Bytes}

theorem mapSplit_delimiter (hd : d ≠ []) :
    mapSplit ⟨prefer, some d⟩ uri =
      match strstr uri (cstr d) with
      | none => some (uri, none)
      | some ([], _) => none
      | some (path, rest) =>
        if path.getLast? = some slash then
          let skip := d.length - (cstr d).length
          if rest.length < skip then none
          else if rest.drop skip = [] then some (path, none)
          else if (rest.drop skip).head? = some slash then some (path, some (rest.drop skip))
          else some (uri, none)
        else some (uri, none) := by
  obtain ⟨c, ds, rfl⟩ := List.exists_cons_of_ne_nil hd
  rfl

/-- Without a NUL the code does what the delimiter asks for, except at the very start. -/
theorem mapSplit_plain_iff (hd : d ≠ []) (hn : NUL ∉ d) :
    mapSplit ⟨prefer, some d⟩ uri = some (splitAtDelimiter uri d) ↔ ¬d <+: uri := by
  rw [mapSplit_delimiter hd, splitAtDelimiter, cstr_of_no_nul hn, Nat.sub_self, ← strstr_nil_iff]
  cases hs : strstr uri d with
  | none => simp
  | some p =>
    obtain ⟨path, rest⟩ := p
    cases path with
    | nil => simp
    | cons c path =>
      have hno : ¬∃ rest', some (c :: path, rest) = some (([] : Bytes), rest') := by simp
      rw [iff_true_right hno]
      dsimp only
      by_cases hl : (c :: path).getLast? = some slash
      · by_cases hnil : rest = []
        · simp [hl, hnil]
        · by_cases hslash : rest.head? = some slash
          · simp [hl, hnil, hslash]
          · simp [hl, hnil, hslash]
      · simp [hl]

/-- A delimiter with a NUL does not occur, so the URI must not be split at what is before the NUL.
-/
theorem mapSplit_nul_iff (hn : NUL ∈ d) (hu : NUL ∉ uri) :
    mapSplit ⟨prefer, some d⟩ uri = some (splitAtDelimiter uri d) ↔
      ¬cstr d <+: uri ∧ ∀ path rest, strstr uri (cstr d) = some (path, rest) →
        path.getLast? = some slash → d.length - (cstr d).length < rest.length ∧
          (rest.drop (d.length - (cstr d).length)).head? ≠ some slash := by
  have hnone : strstr uri d = none := strstr_eq_none.mpr fun h => hu (h.subset hn)
  have hsplit : splitAtDelimiter uri d = (uri, none) := by rw [splitAtDelimiter, hnone]
  rw [hsplit, mapSplit_delimiter (List.ne_nil_of_mem hn), ← strstr_nil_iff]
  cases hs : strstr uri (cstr d) with
  | none => simp
  | some p =>
    obtain ⟨path, rest⟩ := p
    cases path with
    | nil => simp
    | cons c path =>
      dsimp only
      generalize d.length - (cstr d).length = skip
      by_cases hl : (c :: path).getLast? = some slash
      · have hshort : (c :: path, (none : Option Bytes)) ≠ (uri, none) := by
          intro h
          obtain ⟨rfl, -⟩ := Prod.mk.inj h
          have hparts := strstr_split hs
          rw [List.append_assoc, List.self_eq_append_right, List.append_eq_nil_iff] at hparts
          have hstart : ∃ rest, strstr (c :: path) (cstr d) = some ([], rest) :=
            strstr_nil_iff.mpr (hparts.1 ▸ List.nil_prefix)
          rw [hs] at hstart
          obtain ⟨_, hstart⟩ := hstart
          cases hstart
        by_cases hlen : rest.length < skip
        · simp [hl, hlen]
          omega
        · by_cases hnil : rest.drop skip = []
          · have hle : rest.length ≤ skip := List.drop_eq_nil_iff.mp hnil
            simp only [hl, hlen, hnil, if_true, if_false, Option.some.injEq]
            rw [iff_false_left hshort]
            intro h
            obtain ⟨_, h⟩ := h
            have := (h (c :: path) rest rfl hl).1
            omega
          · have hlt : skip < rest.length := by
              by_contra hle
              exact hnil (List.drop_eq_nil_iff.mpr (by omega))
            by_cases hslash : (rest.drop skip).head? = some slash
            · simp [hl, hlen, hnil, hslash, List.head?_drop ▸ hslash]
            · simp [hl, hlen, hnil, hlt]
      · simp [hl]

end

theorem map_splits_iff (ctlPrefer : Bool) {delimiter : Bytes} (hd : delimiter ≠ [])
    (request : Request) :
    MapSplits ⟨ctlPrefer, some delimiter⟩ delimiter request ↔ DelimiterFits delimiter request := by
  have hu := nul_not_mem_cstr (stripBaseUri request)
  have hsplits : MapSplits ⟨ctlPrefer, some delimiter⟩ delimiter request ↔
      (∀ base, request.baseUri = .string base →
        strncasecmp request.uri base base.length = true → base.length ≤ request.uri.length) ∧
      mapSplit ⟨ctlPrefer, some delimiter⟩ (cstr (stripBaseUri request)) =
        some (splitAtDelimiter (cstr (stripBaseUri request)) delimiter) := by
    simp only [MapSplits, routeMapRequestUri_eq_some, and_assoc, exists_and_left, exists_eq_left]
  rw [hsplits]
  by_cases hn : NUL ∈ delimiter
  · rw [mapSplit_nul_iff hn hu]
    constructor
    · intro h
      obtain ⟨hbase, hstart, hcut⟩ := h
      exact ⟨hbase, hstart, fun _ => hcut⟩
    · intro h
      exact ⟨h.base, h.start, h.cut hn⟩
  · rw [mapSplit_plain_iff hd hn]
    constructor
    · intro h
      obtain ⟨hbase, hstart⟩ := h
      exact ⟨hbase, by rwa [cstr_of_no_nul hn], fun h => absurd h hn⟩
    · intro h
      have hstart := h.start
      rw [cstr_of_no_nul hn] at hstart
      exact ⟨h.base, hstart⟩

theorem map_splits_product_query :
    MapSplits ⟨true, some (lit "_")⟩ (lit "_") (freshRequest (lit "/product/_/id/5")) := by
  apply (map_splits_iff true (by decide) _).mpr
  refine ⟨fun base hbase _ => ?_, by decide, fun h => absurd h (by decide)⟩
  cases hbase
  exact Nat.zero_le _

/-- Behind the base the URI starts with the delimiter, and the character before it is read. -/
theorem map_delimiter_behind_base :
    ¬MapSplits ⟨true, some (lit "_")⟩ (lit "_")
      { freshRequest (lit "/app/_/id/5") with baseUri := .string (lit "/app/") } := by
  intro h
  obtain ⟨uri, huri, hsplit⟩ := h
  have hcopy : uri = lit "_/id/5" := by
    rw [(routeMapRequestUri_eq_some.mp huri).2]
    decide
  have hout : mapSplit ⟨true, some (lit "_")⟩ (lit "_/id/5") = none := by decide
  rw [hcopy, hout] at hsplit
  cases hsplit

end Yaf
