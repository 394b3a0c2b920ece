import Yaf.Route.Static

namespace Yaf
open Base

namespace StaticSpec

/-- Skip a run of blanks and slashes, then take the characters up to the next slash. -/
def nextToken (s : Bytes) : Option (Bytes × Bytes) :=
  if stripSlashs s = [] then none
  else some ((stripSlashs s).takeWhile (· != slash), (stripSlashs s).dropWhile (· != slash))

/-- The path-info route by the tokens of a text: at most three are read, and what follows the last
name becomes parameters. -/
def route (modules : List Bytes) (actionPrefer : Bool) (request : Request) (u : Bytes) :
    Request :=
  match nextToken u with
  | none => request
  | some (t₁, r₁) =>
    match nextToken r₁ with
    | none =>
      if actionPrefer ∧ applicationIsModuleName modules t₁ = false then
        { request with action := .string t₁ }
      else { request with controller := .string t₁ }
    | some (t₂, r₂) =>
      match nextToken r₂ with
      | none => { request with controller := .string t₁, action := .string t₂ }
      | some (t₃, r₃) =>
        if applicationIsModuleName modules t₁ then
          { request with
            module := .string t₁
            controller := .string t₂
            action := .string t₃
            params := Table.merge request.params (routerParseParameters (stripSlashs r₃)) }
        else
          { request with
            controller := .string t₁
            action := .string t₂
            params := Table.merge request.params (routerParseParameters (stripSlashs r₂)) }

end StaticSpec

open StaticSpec

theorem stripSlashs_idem (s : Bytes) : stripSlashs (stripSlashs s) = stripSlashs s := by
  simp [stripSlashs, List.dropWhile_idempotent]

theorem stripSlashs_nil : stripSlashs [] = [] := rfl

theorem strstrSlash_nil : strstrSlash [] = none := rfl

theorem strstrSlash_none {p : Bytes} (h : strstrSlash p = none) : slash ∉ p := by
  unfold strstrSlash at h
  split at h
  · simp at h
  · assumption

theorem strstrSlash_some {p t q : Bytes} (h : strstrSlash p = some (t, q)) :
    p = t ++ slash :: q ∧ t = p.takeWhile (· != slash) ∧ slash :: q = p.dropWhile (· != slash) := by
  unfold strstrSlash at h
  split at h
  · rename_i hm
    simp only [Option.some.injEq, Prod.mk.injEq] at h
    obtain ⟨rfl, rfl⟩ := h
    have hd : slash :: (p.dropWhile (· != slash)).tail = p.dropWhile (· != slash) := by
      cases hdrop : p.dropWhile (· != slash) with
      | nil =>
        have := List.dropWhile_eq_nil_iff.mp hdrop slash hm
        simp at this
      | cons c r =>
        have hc := List.head_dropWhile_not (p := (· != slash)) (l := p) (by rw [hdrop]; simp)
        simp only [hdrop, List.head_cons, bne_eq_false_iff_eq] at hc
        rw [hc, List.tail_cons]
    refine ⟨?_, rfl, hd⟩
    rw [hd, List.takeWhile_append_dropWhile]
  · simp at h

theorem dropWhile_of_no_slash {p : Bytes} (h : slash ∉ p) : p.dropWhile (· != slash) = [] := by
  rw [List.dropWhile_eq_nil_iff]
  exact bne_of_not_mem h

theorem stripSlashs_slash (q : Bytes) : stripSlashs (slash :: q) = stripSlashs q := by
  simp [stripSlashs, blankOrSlash]

/-- The last token runs to the end. -/
theorem nextToken_last {s : Bytes} (hn : stripSlashs s ≠ [])
    (h : strstrSlash (stripSlashs s) = none) : nextToken s = some (stripSlashs s, []) := by
  have hno := strstrSlash_none h
  simp [nextToken, hn, takeWhile_bne hno, dropWhile_of_no_slash hno]

theorem nextToken_more {s t q : Bytes} (h : strstrSlash (stripSlashs s) = some (t, q)) :
    nextToken s = some (t, slash :: q) := by
  obtain ⟨he, rfl, hd⟩ := strstrSlash_some h
  have hn : stripSlashs s ≠ [] := by
    rw [he]
    simp
  simp [nextToken, hn, hd]

theorem nextToken_slash (q : Bytes) : nextToken (slash :: q) = nextToken q := by
  simp [nextToken, stripSlashs_slash]

@[simp] theorem nextToken_nil : nextToken [] = none := rfl

theorem nextToken_end {s : Bytes} (h : stripSlashs s = []) : nextToken s = none := by
  simp [nextToken, h]

theorem routerParseParameters_nil : routerParseParameters [] = [] := rfl

theorem merge_nothing (t : Table Key Zval) :
    Table.merge t (routerParseParameters (stripSlashs [])) = t := rfl

/-- The scans of a text, token by token. -/
theorem pathInfo_tokens (modules : List Bytes) (actionPrefer : Bool) (request : Request)
    (u : Bytes) :
    applyPathInfo request (
        let (i, p) := pathInfoHead modules (stripSlashs u)
        let (i, p) := pathInfoAction i (stripSlashs p)
        pathInfoFix actionPrefer (pathInfoTail modules i (stripSlashs p))) =
      StaticSpec.route modules actionPrefer request u := by
  by_cases hn : stripSlashs u = []
  · simp [hn, StaticSpec.route, nextToken_end hn, pathInfoHead, pathInfoAction, pathInfoTail,
      pathInfoFix, strstrSlash_nil, stripSlashs_nil, applyPathInfo, setName]
  cases h₁ : strstrSlash (stripSlashs u) with
  | none =>
    have hk := nextToken_last hn h₁
    by_cases hm : applicationIsModuleName modules (stripSlashs u) = true <;>
      cases actionPrefer <;>
      simp [StaticSpec.route, hk, pathInfoHead, pathInfoAction, pathInfoTail, pathInfoFix,
        stripSlashs_idem, h₁, hn, hm, applyPathInfo, setName]
  | some tq₁ =>
    obtain ⟨t₁, q₁⟩ := tq₁
    have hk₁ := nextToken_more h₁
    by_cases hn₁ : stripSlashs q₁ = []
    · -- one token and a slash
      have hk₂ := nextToken_end hn₁
      rw [← nextToken_slash] at hk₂
      by_cases hm : applicationIsModuleName modules t₁ = true <;> cases actionPrefer <;>
        simp [StaticSpec.route, hk₁, hk₂, pathInfoHead, pathInfoAction, pathInfoTail, pathInfoFix,
          stripSlashs_nil, strstrSlash_nil, h₁, hn₁, hm, applyPathInfo, setName]
    cases h₂ : strstrSlash (stripSlashs q₁) with
    | none =>
      have hk₂ := nextToken_last hn₁ h₂
      rw [← nextToken_slash] at hk₂
      by_cases hm : applicationIsModuleName modules t₁ = true <;>
        simp [StaticSpec.route, hk₁, hk₂, pathInfoHead, pathInfoAction, pathInfoTail, pathInfoFix,
          stripSlashs_idem, h₁, h₂, hn₁, hm, applyPathInfo, setName]
    | some tq₂ =>
      obtain ⟨t₂, q₂⟩ := tq₂
      have hk₂ := nextToken_more h₂
      rw [← nextToken_slash] at hk₂
      by_cases hn₂ : stripSlashs q₂ = []
      · -- two tokens and a slash
        have hk₃ := nextToken_end hn₂
        rw [← nextToken_slash] at hk₃
        by_cases hm : applicationIsModuleName modules t₁ = true <;>
          simp [StaticSpec.route, hk₁, hk₂, hk₃, pathInfoHead, pathInfoAction, pathInfoTail,
            pathInfoFix, stripSlashs_nil, strstrSlash_nil, h₁, h₂, hn₂, hm, applyPathInfo, setName]
      by_cases hm : applicationIsModuleName modules t₁ = true
      · cases h₃ : strstrSlash (stripSlashs q₂) with
        | none =>
          have hk₃ := nextToken_last hn₂ h₃
          rw [← nextToken_slash] at hk₃
          simp [StaticSpec.route, hk₁, hk₂, hk₃, pathInfoHead, pathInfoAction, pathInfoTail,
            pathInfoFix, stripSlashs_idem, h₁, h₂, h₃, hn₂, hm, applyPathInfo, setName,
            merge_nothing]
        | some tq₃ =>
          obtain ⟨t₃, q₃⟩ := tq₃
          have hk₃ := nextToken_more h₃
          rw [← nextToken_slash] at hk₃
          by_cases hn₃ : stripSlashs q₃ = [] <;>
            simp [StaticSpec.route, hk₁, hk₂, hk₃, pathInfoHead, pathInfoAction, pathInfoTail,
              pathInfoFix, h₁, h₂, h₃, hn₃, hm, applyPathInfo, setName, requestSetParamsMulti,
              stripSlashs_slash, routerParseParameters_nil]
      · obtain ⟨t₃, r₃, hk₃⟩ : ∃ t₃ r₃, nextToken (slash :: q₂) = some (t₃, r₃) :=
          ⟨_, _, by rw [nextToken_slash, nextToken, if_neg hn₂]⟩
        simp [StaticSpec.route, hk₁, hk₂, hk₃, pathInfoHead, pathInfoAction, pathInfoTail,
          pathInfoFix, h₁, h₂, hn₂, hm, applyPathInfo, setName, requestSetParamsMulti,
          stripSlashs_slash]

/-- The scan sees the trimmed URI up to its first NUL. -/
theorem routePathinfoRoute_tokens (modules : List Bytes) (actionPrefer : Bool) (request : Request)
    (uri : Bytes) :
    routePathinfoRoute modules actionPrefer request uri =
      (true, StaticSpec.route modules actionPrefer request (cstr (trimUri uri))) := by
  rw [routePathinfoRoute, ← pathInfo_tokens, pathInfo]
  by_cases hshort : uri = [] ∨ uri = [slash]
  · rw [if_pos hshort]
    rcases hshort with rfl | rfl <;> rfl
  · rw [if_neg hshort]

theorem cstr_trimUri {uri : Bytes} (hu : NUL ∉ uri) : cstr (trimUri uri) = trimUri uri := by
  apply cstr_of_no_nul
  cases uri with
  | nil => simp [trimUri]
  | cons c s =>
    intro hm
    rcases List.mem_cons.mp hm with rfl | hm
    · exact hu List.mem_cons_self
    · exact hu (List.mem_cons_of_mem _ ((List.rdropWhile_prefix _ _).subset hm))

/-- The one-pointer scan with its fix-up is the route read off the tokens. -/
theorem static_route_tokens (modules : List Bytes) (actionPrefer : Bool) (request : Request)
    (uri : Bytes) (hu : NUL ∉ uri) :
    routePathinfoRoute modules actionPrefer request uri =
      (true, StaticSpec.route modules actionPrefer request (trimUri uri)) := by
  rw [routePathinfoRoute_tokens, cstr_trimUri hu]

/-- A module, a controller, an action and two pairs, with a blank and doubled slashes. -/
theorem static_route_tokens_sample :
    routePathinfoRoute [lit "Index"] true
        ⟨.null, .null, .null, [], [], .null, false, false, none⟩ (lit "/index//foo/bar/a/1/b/ ") =
      (true, StaticSpec.route [lit "Index"] true
        ⟨.null, .null, .null, [], [], .null, false, false, none⟩
        (trimUri (lit "/index//foo/bar/a/1/b/ "))) :=
  static_route_tokens _ _ _ _ (by decide)

end Yaf
