import Yaf.Route.Query
import Yaf.Route.StaticSpec

namespace Yaf
open Base StaticSpec

/-- A name the path can carry. -/
structure PathName (s : Bytes) : Prop where
  nonempty : s ≠ []
  nul : NUL ∉ s
  slash : slash ∉ s
  first : s.head? ≠ some blank

theorem PathName.strip {s : Bytes} (hs : PathName s) (t : Bytes) :
    stripSlashs (s ++ t) = s ++ t := by
  cases s with
  | nil => exact absurd rfl hs.nonempty
  | cons c s =>
    have hb : c ≠ blank := fun he => hs.first (by simp [he])
    have hc : c ≠ Yaf.slash := fun he => hs.slash (by simp [he])
    simp [stripSlashs, blankOrSlash, hb, hc]

/-- A name is the next token, up to the slash after it. -/
theorem PathName.token {s : Bytes} (hs : PathName s) (t : Bytes) :
    nextToken (Yaf.slash :: s ++ Yaf.slash :: t) = some (s, Yaf.slash :: t) := by
  rw [List.cons_append, nextToken_slash, nextToken, hs.strip]
  have hall : ∀ c ∈ s, (c != Yaf.slash) = true := bne_of_not_mem hs.slash
  rw [if_neg (by simp), List.takeWhile_append_of_pos hall, List.dropWhile_append_of_pos hall]
  simp

theorem PathName.token_last {s : Bytes} (hs : PathName s) :
    nextToken (Yaf.slash :: s) = some (s, []) := by
  have hstrip : stripSlashs s = s := by simpa using hs.strip []
  rw [nextToken_slash, nextToken_last (by rw [hstrip]; exact hs.nonempty), hstrip]
  rw [hstrip, strstrSlash, if_neg hs.slash]

/-- Nothing is trimmed from a path whose last name does not end in a blank. -/
theorem trimUri_path {a : Bytes} (p : Bytes) (ha : PathName a) (hl : a.getLast? ≠ some blank) :
    trimUri (Yaf.slash :: p ++ a) = Yaf.slash :: p ++ a := by
  rcases List.eq_nil_or_concat a with rfl | ⟨t, c, rfl⟩
  · exact absurd rfl ha.nonempty
  · rw [List.concat_eq_append] at hl ha ⊢
    have hb : c ≠ blank := fun he => hl (by simp [he])
    have hc : c ≠ Yaf.slash := fun he => ha.slash (by simp [he])
    have htrim := trimRight_skip (p := blankOrSlash) (s := p ++ (t ++ [c])) (t := []) (by simp)
      ⟨p ++ t, c, by simp, by simp [blankOrSlash, hb, hc]⟩
    rw [List.append_nil] at htrim
    rw [List.cons_append, trimUri, htrim]

/-- Three names are read back as module, controller and action. -/
theorem route_module_path {modules : List Bytes} {m c a : Bytes} (actionPrefer : Bool)
    (request : Request) (hm : PathName m) (hc : PathName c) (ha : PathName a)
    (hl : a.getLast? ≠ some blank) (hmod : applicationIsModuleName modules m = true) :
    routePathinfoRoute modules actionPrefer request
      (slash :: m ++ slash :: c ++ slash :: a) =
      (true,
        { request with module := .string m, controller := .string c, action := .string a }) := by
  have hnul : NUL ∉ slash :: m ++ slash :: c ++ slash :: a := by
    have := hm.nul
    have := hc.nul
    have := ha.nul
    have : NUL ≠ slash := slash_ne_nul.symm
    simp_all
  have htrim := trimUri_path (m ++ slash :: c ++ [slash]) ha hl
  simp only [List.cons_append, List.append_assoc, List.nil_append] at htrim
  have h₁ := hm.token (c ++ slash :: a)
  have h₂ := hc.token a
  have h₃ := ha.token_last
  simp only [List.cons_append] at h₁ h₂
  rw [routePathinfoRoute_tokens, cstr_trimUri hnul]
  simp only [List.cons_append, List.append_assoc]
  simp [StaticSpec.route, htrim, h₁, h₂, h₃, hmod, merge_nothing]

/-- Two names are controller and action, even when the first is a module name. -/
theorem route_controller_path {modules : List Bytes} {c a : Bytes} (actionPrefer : Bool)
    (request : Request) (hc : PathName c) (ha : PathName a) (hl : a.getLast? ≠ some blank) :
    routePathinfoRoute modules actionPrefer request (slash :: c ++ slash :: a) =
      (true, { request with controller := .string c, action := .string a }) := by
  have hnul : NUL ∉ slash :: c ++ slash :: a := by
    have := hc.nul
    have := ha.nul
    have : NUL ≠ slash := slash_ne_nul.symm
    simp_all
  have htrim := trimUri_path (c ++ [slash]) ha hl
  simp only [List.cons_append, List.append_assoc, List.nil_append] at htrim
  have h₂ := hc.token a
  have h₃ := ha.token_last
  simp only [List.cons_append] at h₂
  rw [routePathinfoRoute_tokens, cstr_trimUri hnul]
  simp only [List.cons_append]
  simp [StaticSpec.route, htrim, h₂, h₃]

/-- A fresh request has an empty base URI, which strips nothing. -/
theorem stripBaseUri_fresh (uri : Bytes) : stripBaseUri (freshRequest uri) = uri := by
  simp [stripBaseUri, freshRequest, strncasecmp]

/-- Without a query the value of the variable is the path. -/
theorem routeSupervarAssemble_plain {info : Info} {path : Bytes} (varname : Bytes)
    (h : assemblePath info = .ok path) :
    routeSupervarAssemble varname info none = .ok (63 :: varname ++ 61 :: path) := by
  rw [routeSupervarAssemble, h]
  simp [queryPairs, bind, Except.bind]

/-- What both encoders write, both decoders read back. -/
theorem assemble_route_round_trip (modules : List Bytes) (actionPrefer : Bool) (varname : Bytes)
    (get : Table Key Zval) (uri m c a : Bytes) (hm : PathName m) (hc : PathName c)
    (ha : PathName a) (hl : a.getLast? ≠ some blank) :
    (applicationIsModuleName modules m = true → ∃ path,
      routeStaticAssemble [(assembleModuleFormat, m), (assembleControllerFormat, c),
        (assembleActionFormat, a)] none = .ok path ∧
      routeSupervarAssemble varname [(assembleModuleFormat, m), (assembleControllerFormat, c),
        (assembleActionFormat, a)] none = .ok (63 :: varname ++ 61 :: path) ∧
      routeStaticRoute modules actionPrefer (freshRequest path) =
        (true, { freshRequest path with
          module := .string m, controller := .string c, action := .string a }) ∧
      routeSupervarRoute modules actionPrefer varname
          (Table.update get (.name varname) (.string path)) (freshRequest uri) =
        some (true, { freshRequest uri with
          module := .string m, controller := .string c, action := .string a })) ∧
    ∃ path,
      routeStaticAssemble [(assembleControllerFormat, c), (assembleActionFormat, a)] none =
        .ok path ∧
      routeSupervarAssemble varname [(assembleControllerFormat, c), (assembleActionFormat, a)]
        none = .ok (63 :: varname ++ 61 :: path) ∧
      routeStaticRoute modules actionPrefer (freshRequest path) =
        (true, { freshRequest path with controller := .string c, action := .string a }) ∧
      routeSupervarRoute modules actionPrefer varname
          (Table.update get (.name varname) (.string path)) (freshRequest uri) =
        some (true, { freshRequest uri with controller := .string c, action := .string a }) := by
  constructor
  · intro hmod
    refine ⟨slash :: m ++ slash :: c ++ slash :: a, rfl, routeSupervarAssemble_plain _ rfl, ?_, ?_⟩
    · rw [routeStaticRoute, stripBaseUri_fresh, route_module_path _ _ hm hc ha hl hmod]
    · rw [routeSupervarRoute, requestQuery, Table.find?_update_self]
      simp only [route_module_path _ _ hm hc ha hl hmod]
  · refine ⟨slash :: c ++ slash :: a, rfl, routeSupervarAssemble_plain _ rfl, ?_, ?_⟩
    · rw [routeStaticRoute, stripBaseUri_fresh, route_controller_path _ _ hc ha hl]
    · rw [routeSupervarRoute, requestQuery, Table.find?_update_self]
      simp only [route_controller_path _ _ hc ha hl]

theorem PathName.sample (c : UInt8) (hc : c ≠ NUL ∧ c ≠ Yaf.slash ∧ c ≠ blank) : PathName [c] where
  nonempty := by simp
  nul := by simpa using hc.1.symm
  slash := by simpa using hc.2.1.symm
  first := by simpa using hc.2.2

/-- The names `m`, `c` and `a`, with `M` declared. -/
theorem assemble_route_round_trip_sample :
    ∃ path,
      routeStaticAssemble [(assembleModuleFormat, [109]), (assembleControllerFormat, [99]),
        (assembleActionFormat, [97])] none = .ok path ∧
      routeStaticRoute [[77]] false (freshRequest path) =
        (true, { freshRequest path with
          module := .string [109], controller := .string [99], action := .string [97] }) := by
  obtain ⟨path, hpath, -, hroute, -⟩ :=
    (assemble_route_round_trip [[77]] false [112] [] [] [109] [99] [97]
      (PathName.sample 109 (by decide)) (PathName.sample 99 (by decide))
      (PathName.sample 97 (by decide)) (by decide)).1 (by decide)
  exact ⟨path, hpath, hroute⟩

end Yaf
