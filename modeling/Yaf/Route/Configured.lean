import Yaf.Route.Instance

namespace Yaf
open Base

/-- The type of a configured route, without regard to case. -/
def ConfigType (config : Table Key Zval) (name : Bytes) : Prop :=
  ∃ type, configText config (lit "type") = some type ∧ equalsCi type name = true

/-- The route its instance function builds from the entries that have the names of its parameters.
An optional entry of another type counts as absent. -/
inductive NamedRoute (config : Table Key Zval) : BuiltinRoute → Prop where
  | rewrite {m : Bytes} {defs : Table Key Zval} (type : ConfigType config (lit "rewrite"))
      (hm : configText config (lit "match") = some m)
      (hroute : configArray config (lit "route") = some defs) :
      NamedRoute config (.rewrite (routeRewriteInstance m defs (configArray config (lit "verify"))))
  | regex {m : Bytes} {defs : Table Key Zval} (type : ConfigType config (lit "regex"))
      (hm : configText config (lit "match") = some m)
      (hroute : configArray config (lit "route") = some defs) :
      NamedRoute config (.regex (routeRegexInstance m defs (configArray config (lit "map"))
        (configArray config (lit "verify")) (Table.find? config (.name (lit "reverse")))))
  | map (type : ConfigType config (lit "map")) :
      NamedRoute config (.map (routeMapInstance
        (((Table.find? config (.name (lit "controllerPrefer"))).map Zval.isTrue).getD false)
        (configText config (lit "delimiter"))))
  | simple {module controller action : Bytes} (type : ConfigType config (lit "simple"))
      (hmodule : configText config (lit "module") = some module)
      (hcontroller : configText config (lit "controller") = some controller)
      (haction : configText config (lit "action") = some action) :
      NamedRoute config (.simple (routeSimpleInstance module controller action))
  | supervar {name varname : Bytes} (type : ConfigType config (lit "supervar"))
      (hname : configText config (lit "varname") = some name)
      (hvarname : routeSupervarInstance name = some varname) :
      NamedRoute config (.supervar varname)

/-- A configured route is the one its instance function builds, and a regex route with a reverse
assembles as a constructed one. -/
structure AsConstructed (config : Table Key Zval) (route : BuiltinRoute) : Prop where
  fields : NamedRoute config route
  assembles : ∀ regex, route = .regex regex → ∀ m defs reverse,
    Table.find? config (.name (lit "match")) = some m →
    configArray config (lit "route") = some defs →
    configText config (lit "reverse") = some reverse → ∀ constructed,
    routeRegexConstruct m defs (configArray config (lit "map"))
      (configArray config (lit "verify")) (some (.string reverse)) = .ok constructed →
    ∀ info query, routeRegexAssemble regex info query = routeRegexAssemble constructed info query

/-- What the wrong lookups find is what the right ones would: the verify of a rewrite or a regex
route is its route table again, and a regex route has no reverse. -/
structure LookupsAgree (config : Table Key Zval) : Prop where
  rewrite : ConfigType config (lit "rewrite") →
    configArray config (lit "verify") = configArray config (lit "route")
  regex : ConfigType config (lit "regex") →
    configArray config (lit "verify") = configArray config (lit "route") ∧
      configText config (lit "reverse") = none

section
variable {config : Table Key Zval} {route : BuiltinRoute} {regex : RouteRegex}

theorem configText_eq (name : Bytes) :
    configText config name = (Table.find? config (.name name)).bind Zval.string? := by
  unfold configText
  split
  · rename_i t ht
    rw [ht]
    rfl
  · rename_i hnot
    cases hv : Table.find? config (.name name) with
    | none => rfl
    | some v =>
      cases v with
      | string s => exact absurd hv (hnot s)
      | _ => rfl

/-- An entry is an array or a string, not both. -/
theorem configText_of_array {name : Bytes} {t : Table Key Zval}
    (h : configArray config name = some t) : configText config name = none := by
  unfold configArray at h
  split at h
  · rename_i ht
    rw [configText_eq, ht]
    rfl
  · cases h

/-- A config has one type. -/
theorem ConfigType.unique {x y : Bytes} (hx : ConfigType config x) (hy : ConfigType config y) :
    x.map toLower = y.map toLower := by
  obtain ⟨type, htype, hx⟩ := hx
  obtain ⟨type', htype', hy⟩ := hy
  obtain rfl := Option.some.inj (htype.symm.trans htype')
  rw [equalsCi, beq_iff_eq] at hx hy
  exact hx.symm.trans hy

theorem ConfigType.not_of_ne {x y : Bytes} (hx : ConfigType config x)
    (hne : x.map toLower ≠ y.map toLower) : ¬ConfigType config y :=
  fun hy => hne (hx.unique hy)

/-- The route of a config, by its type. -/
theorem routeInstance_cases (h : routeInstance config = some route) :
    (∃ m defs, ConfigType config (lit "rewrite") ∧ configText config (lit "match") = some m ∧
      configArray config (lit "route") = some defs ∧
      route = .rewrite (routeRewriteInstance m defs (some defs))) ∨
    (∃ m defs, ConfigType config (lit "regex") ∧ configText config (lit "match") = some m ∧
      configArray config (lit "route") = some defs ∧
      route = .regex (routeRegexInstance m defs (configArray config (lit "map")) (some defs)
        none)) ∨
    (NamedRoute config route ∧ ¬ConfigType config (lit "rewrite") ∧
      ¬ConfigType config (lit "regex")) := by
  obtain ⟨type, htype, h⟩ := Option.bind_eq_some_iff.mp h
  split at h
  · rename_i hrewrite
    obtain ⟨m, hm, h⟩ := Option.bind_eq_some_iff.mp h
    obtain ⟨defs, hdefs, h⟩ := Option.bind_eq_some_iff.mp h
    cases h
    exact Or.inl ⟨m, defs, ⟨type, htype, hrewrite⟩, hm, hdefs, by rw [hdefs]⟩
  split at h
  · rename_i hregex
    obtain ⟨m, hm, h⟩ := Option.bind_eq_some_iff.mp h
    obtain ⟨defs, hdefs, h⟩ := Option.bind_eq_some_iff.mp h
    cases h
    refine Or.inr (Or.inl ⟨m, defs, ⟨type, htype, hregex⟩, hm, hdefs, ?_⟩)
    rw [configText_of_array hdefs, hdefs]
    rfl
  rename_i hrewrite hregex
  have hother : ∀ name, ¬equalsCi type name = true → ¬ConfigType config name := by
    rintro name hne ⟨type', htype', hname⟩
    obtain rfl := Option.some.inj (htype.symm.trans htype')
    exact hne hname
  refine Or.inr (Or.inr ⟨?_, hother _ hrewrite, hother _ hregex⟩)
  split at h
  · rename_i hmap
    cases h
    exact .map ⟨type, htype, hmap⟩
  split at h
  · rename_i hsimple
    obtain ⟨module, hmodule, h⟩ := Option.bind_eq_some_iff.mp h
    obtain ⟨controller, hcontroller, h⟩ := Option.bind_eq_some_iff.mp h
    obtain ⟨action, haction, h⟩ := Option.bind_eq_some_iff.mp h
    cases h
    exact .simple ⟨type, htype, hsimple⟩ hmodule hcontroller haction
  split at h
  · rename_i hsupervar
    obtain ⟨name, hname, h⟩ := Option.bind_eq_some_iff.mp h
    obtain ⟨varname, hvarname, h⟩ := Option.map_eq_some_iff.mp h
    cases h
    exact .supervar ⟨type, htype, hsupervar⟩ hname hvarname
  · cases h

/-- The types of the two lookups that go wrong. -/
theorem rewrite_not_regex (h : ConfigType config (lit "rewrite")) :
    ¬ConfigType config (lit "regex") :=
  h.not_of_ne (by decide)

end

/-- A configured route is as constructed when the wrong lookups find what the right ones would. -/
theorem configured_route_iff {config : Table Key Zval} {route : BuiltinRoute}
    (h : routeInstance config = some route) :
    AsConstructed config route ↔ LookupsAgree config := by
  rcases routeInstance_cases h with ⟨m, defs, htype, hm, hdefs, rfl⟩ |
    ⟨m, defs, htype, hm, hdefs, rfl⟩ | ⟨hnamed, hrewrite, hregex⟩
  · constructor
    · rintro ⟨hfields, -⟩
      refine ⟨fun _ => ?_, fun hr => absurd hr (rewrite_not_regex htype)⟩
      generalize hv : routeRewriteInstance m defs (some defs) = r at hfields
      cases hfields with
      | rewrite _ hm' hdefs' =>
        rw [hdefs]
        exact (congrArg RouteRewrite.verify hv).symm
    · intro hagree
      have hverify := hagree.rewrite htype
      rw [hdefs] at hverify
      refine ⟨?_, fun regex hr => by cases hr⟩
      rw [← hverify]
      exact .rewrite htype hm hdefs
  · constructor
    · rintro ⟨hfields, -⟩
      refine ⟨fun hr => absurd htype (rewrite_not_regex hr), fun _ => ?_⟩
      generalize hv :
        routeRegexInstance m defs (configArray config (lit "map")) (some defs) none = r
        at hfields
      cases hfields with
      | regex _ hm' hdefs' =>
        rw [hdefs, configText_eq]
        exact ⟨(congrArg RouteRegex.verify hv).symm, (congrArg RouteRegex.reverse hv).symm⟩
    · intro hagree
      obtain ⟨hverify, hreverse⟩ := hagree.regex htype
      refine ⟨?_, fun regex _ m defs reverse _ _ hsome => ?_⟩
      · have hnamed := NamedRoute.regex htype hm hdefs
        rw [configText_eq] at hreverse
        rw [hverify, hdefs] at hnamed
        simpa only [routeRegexInstance, hreverse, Option.bind_none] using hnamed
      · rw [hreverse] at hsome
        cases hsome
  · refine ⟨fun _ => ⟨fun hr => absurd hr hrewrite, fun hr => absurd hr hregex⟩, fun _ => ?_⟩
    refine ⟨hnamed, fun regex hr => ?_⟩
    subst hr
    cases hnamed with
    | regex htype _ _ => exact absurd htype hregex

/-- A rewrite route whose verify is its route table again. -/
def rewriteConfig : Table Key Zval := [
  (.name (lit "type"), .string (lit "Rewrite")),
  (.name (lit "match"), .string (lit "/ap/:name")),
  (.name (lit "route"), .array [(.name (lit "controller"), .string (lit "ap"))]),
  (.name (lit "verify"), .array [(.name (lit "controller"), .string (lit "ap"))])]

def rewriteConfigRoute : BuiltinRoute :=
  .rewrite (routeRewriteInstance (lit "/ap/:name") [(.name (lit "controller"), .string (lit "ap"))]
    (some [(.name (lit "controller"), .string (lit "ap"))]))

theorem rewriteConfig_type : ConfigType rewriteConfig (lit "rewrite") :=
  ⟨lit "Rewrite", rfl, rfl⟩

theorem rewriteConfig_agrees : LookupsAgree rewriteConfig where
  rewrite := by
    intro _
    rfl
  regex := by
    intro hregex
    exact absurd hregex (rewrite_not_regex rewriteConfig_type)

theorem configured_route_iff_sample :
    AsConstructed rewriteConfig rewriteConfigRoute ∧ LookupsAgree rewriteConfig :=
  ⟨(configured_route_iff (by rfl)).mpr rewriteConfig_agrees, rewriteConfig_agrees⟩

/-- A regex route with a reverse. -/
def reverseConfig : Table Key Zval := [
  (.name (lit "type"), .string (lit "regex")),
  (.name (lit "match"), .string (lit "#^/ap#")),
  (.name (lit "route"), .array []),
  (.name (lit "reverse"), .string (lit "/ap"))]

/-- The reverse of a configured route is lost, so it cannot be assembled. -/
theorem configured_reverse_lost :
    ¬∀ route, routeInstance reverseConfig = some route → AsConstructed reverseConfig route := by
  intro h
  obtain ⟨-, hassembles⟩ :=
    h (.regex (routeRegexInstance (lit "#^/ap#") [] none (some []) none)) rfl
  have hsame := hassembles _ rfl (.string (lit "#^/ap#")) [] (lit "/ap") rfl rfl rfl
    (routeRegexInstance (lit "#^/ap#") [] none none (some (.string (lit "/ap")))) rfl [] none
  cases hsame

end Yaf
