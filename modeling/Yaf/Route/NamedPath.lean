import Yaf.Route.ParseParameters
import Yaf.Route.RoundTrip

namespace Yaf
open Base StaticSpec

theorem PathName.carried {s : Bytes} (h : PathName s) : Carried s := ⟨h.nul, h.slash⟩

/-- A path that names its controller and action, with or without a module, and parameters in
pairs. -/
structure NamedPath where
  module : Option Bytes
  controller : Bytes
  action : Bytes
  pairs : Table Bytes Bytes

namespace NamedPath

/-- The names in the order of the path. -/
def names (path : NamedPath) : List Bytes :=
  path.module.toList ++ [path.controller, path.action]

def uri (path : NamedPath) : Bytes :=
  (path.names.flatMap fun name => slash :: name) ++ pairsText path.pairs

def params (path : NamedPath) : Table Key Zval :=
  path.pairs.map fun p => (.name p.1, .string p.2)

/-- What the request is when the path is routed. -/
def routed (path : NamedPath) (request : Request) : Request :=
  { request with
    module := setName request.module path.module
    controller := .string path.controller
    action := .string path.action
    params := Table.merge request.params path.params }

/-- The path can be read back: its texts are names, its keys apart and not too long for their
lengths, and a controller that stands first before parameters is no module. -/
structure Readable (modules : List Bytes) (path : NamedPath) : Prop where
  named : ∀ s ∈ path.names, PathName s
  apart : (Table.keys path.pairs).Nodup
  paired : ∀ p ∈ path.pairs, PathName p.1 ∧ PathName p.2
  short : ∀ p ∈ path.pairs, p.1.length < 2 ^ 32
  last : path.uri.getLast? ≠ some blank
  module : ∀ m ∈ path.module, applicationIsModuleName modules m = true
  controller : path.module = none → path.pairs ≠ [] →
    applicationIsModuleName modules path.controller = false

section
variable {modules : List Bytes} {path : NamedPath} {pairs : Table Bytes Bytes}

/-- A path without parameters only has to carry its names. -/
theorem readable_of_names {module : Option Bytes} {c a : Bytes}
    (hm : ∀ m ∈ module, PathName m ∧ applicationIsModuleName modules m = true) (hc : PathName c)
    (ha : PathName a) (hl : a.getLast? ≠ some blank) :
    Readable modules ⟨module, c, a, []⟩ where
  named s hs := by
    simp only [names, List.mem_append, Option.mem_toList, List.mem_cons, List.not_mem_nil,
      or_false] at hs
    rcases hs with hs | rfl | rfl
    · exact (hm s hs).1
    · exact hc
    · exact ha
  apart := List.nodup_nil
  paired := by simp
  short := by simp
  last := by
    have huri : uri ⟨module, c, a, []⟩ =
        (module.toList ++ [c]).flatMap (fun name => slash :: name) ++ [slash] ++ a := by
      simp [uri, names, pairsText]
    rwa [huri, List.getLast?_append_of_ne_nil _ ha.nonempty]
  module m hmem := (hm m hmem).2
  controller _ hpairs := absurd rfl hpairs

/-- A name before pairs is the next token. -/
theorem token_pairs {s : Bytes} (h : PathName s) (pairs : Table Bytes Bytes) :
    nextToken (slash :: s ++ pairsText pairs) = some (s, pairsText pairs) := by
  cases pairs with
  | nil =>
    rw [pairsText, List.flatMap_nil, List.append_nil]
    exact h.token_last
  | cons p pairs => exact h.token _

theorem Readable.pathPairs (h : path.Readable modules) : PathPairs path.pairs where
  apart := h.apart
  filled p hp := ⟨(h.paired p hp).1.nonempty, (h.paired p hp).2.nonempty⟩
  carried p hp := ⟨(h.paired p hp).1.carried, (h.paired p hp).2.carried⟩

theorem Readable.params_nodup (h : path.Readable modules) : (Table.keys path.params).Nodup := by
  have hkeys : Table.keys path.params = (Table.keys path.pairs).map Key.name := by
    simp [Table.keys, params]
  rw [hkeys]
  exact h.apart.map fun _ _ hk => Key.name.inj hk

/-- Behind the action the pairs become the parameters. -/
theorem Readable.parsed (h : path.Readable modules) :
    routerParseParameters (stripSlashs (pairsText path.pairs)) = path.params := by
  have hpairs := h.pathPairs
  have hstrip : strtok slash (stripSlashs (pairsText path.pairs)) =
      strtok slash (pairsText path.pairs) := by
    cases hcase : path.pairs with
    | nil => rfl
    | cons p pairs =>
      have hp := (h.paired p (by simp [hcase])).1
      have htext : pairsText (p :: pairs) =
          slash :: (p.1 ++ (slash :: p.2 ++ pairsText pairs)) := by
        simp [pairsText]
      rw [htext, stripSlashs_slash, hp.strip, strtok_cons (by decide)]
  have hpieces := strtok_eq_uriPieces (nul_not_mem_pairsText hpairs.carried)
  have htokens : keptPairs (strtok slash (pairsText path.pairs)) = path.params := by
    have hne : ∀ s ∈ uriPieces (pairsText path.pairs), s ≠ [] :=
      fun s hs => by simpa using (List.mem_filter.mp hs).2
    have hfit : KeysFit (uriPieces (pairsText path.pairs)) := by
      intro key hkey
      rw [tokenPairs_pairsText hpairs] at hkey
      obtain ⟨q, hq, he⟩ := List.mem_map.mp hkey
      obtain ⟨p, hp, rfl⟩ := List.mem_map.mp hq
      obtain rfl := Key.name.inj he
      exact h.short p hp
    rw [hpieces, keptPairs_of_fit hne hfit]
    exact tokenPairs_pairsText hpairs
  rw [routerParseParameters, hstrip, parseParametersGo_eq, htokens,
    Table.merge_nil_left h.params_nodup]

/-- The path ends in a name. -/
theorem Readable.ends (h : path.Readable modules) :
    ∃ front s, path.uri = slash :: front ++ s ∧ PathName s := by
  obtain ⟨module, c, a, pairs⟩ := path
  have ha : PathName a := h.named a (by simp [names])
  rcases List.eq_nil_or_concat pairs with rfl | ⟨init, p, rfl⟩
  · cases module with
    | some m => exact ⟨m ++ slash :: c ++ [slash], a, by simp [uri, names, pairsText], ha⟩
    | none => exact ⟨c ++ [slash], a, by simp [uri, names, pairsText], ha⟩
  · have hp := (h.paired p (by simp)).2
    cases module with
    | some m =>
      refine ⟨m ++ slash :: c ++ slash :: a ++ pairsText init ++ slash :: p.1 ++ [slash], p.2,
        ?_, hp⟩
      simp [uri, names, pairsText]
    | none =>
      refine ⟨c ++ slash :: a ++ pairsText init ++ slash :: p.1 ++ [slash], p.2, ?_, hp⟩
      simp [uri, names, pairsText]

theorem Readable.nul (h : path.Readable modules) : NUL ∉ path.uri := by
  intro hmem
  rcases List.mem_append.mp hmem with hmem | hmem
  · obtain ⟨s, hs, hmem⟩ := List.mem_flatMap.mp hmem
    have hns : NUL ≠ slash := slash_ne_nul.symm
    rcases List.mem_cons.mp hmem with hmem | hmem
    · exact hns hmem
    · exact (h.named s hs).nul hmem
  · exact nul_not_mem_pairsText h.pathPairs.carried hmem

theorem Readable.trimmed (h : path.Readable modules) : trimUri path.uri = path.uri := by
  obtain ⟨front, s, huri, hs⟩ := h.ends
  have hlast := h.last
  rw [huri, List.getLast?_append_of_ne_nil _ hs.nonempty] at hlast
  rw [huri]
  exact trimUri_path front hs hlast

/-- The path-info route reads everything a path names. -/
theorem Readable.route (h : path.Readable modules) (actionPrefer : Bool) (request : Request) :
    routePathinfoRoute modules actionPrefer request path.uri = (true, path.routed request) := by
  rw [routePathinfoRoute_tokens, cstr_trimUri h.nul, h.trimmed]
  obtain ⟨module, c, a, pairs⟩ := path
  have hc : PathName c := h.named c (by simp [names])
  have ha : PathName a := h.named a (by simp [names])
  have hparsed : routerParseParameters (stripSlashs (pairsText pairs)) = _ := h.parsed
  have h₂ := hc.token (a ++ pairsText pairs)
  have h₃ := token_pairs ha pairs
  simp only [List.cons_append] at h₂ h₃
  cases module with
  | some m =>
    have hm : PathName m := h.named m (by simp [names])
    have hmod := h.module m rfl
    have h₁ := hm.token (c ++ slash :: (a ++ pairsText pairs))
    simp only [List.cons_append] at h₁
    have huri : uri ⟨some m, c, a, pairs⟩ = slash :: (m ++ slash :: (c ++ slash :: (a ++
        pairsText pairs))) := by
      simp [uri, names]
    rw [huri]
    simp only [StaticSpec.route, h₁, h₂, h₃, hmod, if_true, hparsed]
    rfl
  | none =>
    have huri : uri ⟨none, c, a, pairs⟩ = slash :: (c ++ slash :: (a ++ pairsText pairs)) := by
      simp [uri, names]
    rw [huri]
    cases pairs with
    | nil =>
      have h₄ : nextToken (pairsText []) = none := rfl
      simp only [StaticSpec.route, h₂, h₃, h₄]
      rfl
    | cons p pairs =>
      have hmod := h.controller rfl (by simp)
      have hp := (h.paired p (by simp)).1
      have h₄ : nextToken (pairsText (p :: pairs)) =
          some (p.1, slash :: p.2 ++ pairsText pairs) := by
        have htext : pairsText (p :: pairs) =
            slash :: p.1 ++ slash :: (p.2 ++ pairsText pairs) := by
          simp [pairsText]
        rw [htext]
        exact hp.token _
      simp only [StaticSpec.route, h₂, h₃, h₄, hmod, Bool.false_eq_true, if_false, hparsed]
      rfl

end
end NamedPath
end Yaf
