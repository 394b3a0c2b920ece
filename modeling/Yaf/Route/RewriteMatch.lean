import Yaf.Route.Parameters
import Yaf.Route.Rewrite

namespace Yaf
open Base Pcre

/-- A segment of a rewrite pattern: a literal, or a colon and a name. -/
inductive RewriteSeg where
  | literal (s : Bytes)
  | name (n : Bytes)
  deriving DecidableEq, Repr

namespace RewriteSeg

def text : RewriteSeg → Bytes
  | literal s => s
  | name n => colon :: n

/-- A literal is made of letters and digits, a name is an identifier. -/
def WellFormed : RewriteSeg → Prop
  | literal s => s ≠ [] ∧ ∀ c ∈ s, isAlnum c = true
  | name n => isIdentifier n = true

/-- The segment of a URI that corresponds to a segment of the pattern. -/
def Corresponds : RewriteSeg → Bytes → Prop
  | literal s, t => equalsCi s t = true
  | name _, t => t ≠ [] ∧ slash ∉ t

def items : RewriteSeg → Regex CharSet Bytes
  | literal s => .one (.letter slash) :: s.map fun c => .one (.letter c)
  | name n => [.one (.letter slash), .group n 1 (.except slash)]

end RewriteSeg

/-- The names among the segments. -/
def segNames (segs : List RewriteSeg) : List Bytes :=
  segs.filterMap fun seg =>
    match seg with
    | .literal _ => none
    | .name n => some n

/-- What each name stands for. -/
def segValues : List RewriteSeg → List Bytes → Table Bytes Bytes
  | .literal _ :: segs, _ :: ts => segValues segs ts
  | .name n :: segs, t :: ts => (n, t) :: segValues segs ts
  | _, _ => []

/-- A pattern: segments with distinct names, none longer than an `int` counts, and possibly a star
behind them. -/
structure RewriteShape where
  segs : List RewriteSeg
  star : Bool
  wellFormed : ∀ seg ∈ segs, seg.WellFormed
  short : ∀ seg ∈ segs, seg.text.length < 2 ^ 31
  distinct : (segNames segs).Nodup

def routeRest : Bytes := lit "__yaf_route_rest"

namespace RewriteShape

def texts (p : RewriteShape) : List Bytes :=
  p.segs.map RewriteSeg.text ++ if p.star then [[42]] else []

def regex (p : RewriteShape) : Regex CharSet Bytes :=
  p.segs.flatMap RewriteSeg.items ++
    if p.star then [.one (.letter slash), .group routeRest 0 .dot] else []

end RewriteShape

/-- The front of a URI that the segments describe, each name taking all it can. -/
def takeSegs : List RewriteSeg → Bytes → Option (List Bytes × Bytes)
  | [], u => some ([], u)
  | _ :: _, [] => none
  | seg :: segs, c :: u =>
    if c ≠ slash then none
    else match seg with
      | .literal s =>
        if equalsCi s (u.take s.length) then
          (takeSegs segs (u.drop s.length)).map fun p => (u.take s.length :: p.1, p.2)
        else none
      | .name _ =>
        if u.takeWhile (· != slash) = [] then none
        else (takeSegs segs (u.dropWhile (· != slash))).map fun p =>
          (u.takeWhile (· != slash) :: p.1, p.2)

theorem takeSegs_literal (s : Bytes) (segs : List RewriteSeg) (u : Bytes) :
    takeSegs (.literal s :: segs) (slash :: u) =
      if equalsCi s (u.take s.length) then
        (takeSegs segs (u.drop s.length)).map fun p => (u.take s.length :: p.1, p.2)
      else none := by
  rw [takeSegs, if_neg (not_not_intro rfl)]

theorem takeSegs_name (n : Bytes) (segs : List RewriteSeg) (u : Bytes) :
    takeSegs (.name n :: segs) (slash :: u) =
      if u.takeWhile (· != slash) = [] then none
      else (takeSegs segs (u.dropWhile (· != slash))).map fun p =>
        (u.takeWhile (· != slash) :: p.1, p.2) := by
  rw [takeSegs, if_neg (not_not_intro rfl)]

theorem takeSegs_other {c : UInt8} (hc : c ≠ slash) (seg : RewriteSeg) (segs : List RewriteSeg)
    (u : Bytes) : takeSegs (seg :: segs) (c :: u) = none := by
  cases seg <;> rw [takeSegs, if_pos hc]

theorem rewriteSegments_literal {s : Bytes} (hs : s ≠ [] ∧ ∀ c ∈ s, isAlnum c = true)
    (hshort : s.length < 2 ^ 31) (segs : List Bytes) :
    rewriteSegments (s :: segs) = (rewriteSegments segs).map (slash :: s ++ ·) := by
  obtain ⟨hne, hall⟩ := hs
  cases s with
  | nil => exact absurd rfl hne
  | cons c s =>
    have hc := hall c List.mem_cons_self
    have hstar : c ≠ 42 := by
      rintro rfl
      exact absurd hc (by decide)
    have hcolon : c ≠ colon := by
      rintro rfl
      exact absurd hc (by decide)
    rw [rewriteSegments, intLength_of_short hshort, intPrefix_of_short hshort]
    cases rewriteSegments segs <;> simp [hstar, hcolon]

theorem rewriteSegments_name {n : Bytes} (hshort : (colon :: n).length < 2 ^ 31)
    (segs : List Bytes) :
    rewriteSegments ((colon :: n) :: segs) =
      (rewriteSegments segs).map (slash :: lit "(?P<" ++ n ++ lit ">[^/]+)" ++ ·) := by
  have hcolon : colon ≠ 42 := by decide
  rw [rewriteSegments, intLength_of_short hshort, intPrefix_of_short hshort]
  cases rewriteSegments segs <;> simp [hcolon]

/-- Each segment adds the text of its items. -/
theorem rewriteSegments_map {segs : List RewriteSeg} (hwf : ∀ seg ∈ segs, seg.WellFormed)
    (hshort : ∀ seg ∈ segs, seg.text.length < 2 ^ 31) (rest : List Bytes) :
    rewriteSegments (segs.map RewriteSeg.text ++ rest) =
      (rewriteSegments rest).map (regexText (segs.flatMap RewriteSeg.items) ++ ·) := by
  induction segs with
  | nil => exact Option.map_id'.symm
  | cons seg segs ih =>
    have hih := ih (fun s hs => hwf s (List.mem_cons_of_mem _ hs))
      fun s hs => hshort s (List.mem_cons_of_mem _ hs)
    have hseg := hwf seg List.mem_cons_self
    have hlen := hshort seg List.mem_cons_self
    rw [List.map_cons, List.cons_append, List.flatMap_cons, regexText, List.flatMap_append,
      ← regexText, ← regexText]
    cases seg with
    | literal s =>
      rw [RewriteSeg.text, rewriteSegments_literal hseg hlen, hih, Option.map_map]
      simp [RewriteSeg.items, regexText, itemText, setText, List.flatMap_map, Function.comp_def]
    | name n =>
      have hopen : setText (.except slash) ++ lit "+" ++ lit ")" = lit "[^/]+)" := by
        decide
      have hclose : lit ">[^/]+)" = lit ">" ++ lit "[^/]+)" := by decide
      rw [RewriteSeg.text, rewriteSegments_name hlen, hih, Option.map_map]
      simp only [RewriteSeg.items, regexText, List.flatMap_cons, List.flatMap_nil, itemText, hclose,
        ← hopen]
      simp [setText, Function.comp_def]

/-- The pattern the route builds is the text of the expression. -/
theorem rewriteSegments_texts (p : RewriteShape) :
    rewriteSegments p.texts = some (regexText p.regex) := by
  have hstar : rewriteSegments (if p.star then [[42]] else []) = some (regexText
      (if p.star then [.one (.letter slash), .group routeRest 0 .dot] else [])) := by
    cases p.star <;> decide
  rw [RewriteShape.texts, rewriteSegments_map p.wellFormed p.short, hstar, RewriteShape.regex,
    Option.map_some, regexText, regexText, regexText, List.flatMap_append]

theorem rewritePattern_eq {m : Bytes} {p : RewriteShape} (hm : strtok slash m = p.texts) :
    rewritePattern m = some (lit "#^" ++ regexText p.regex ++ lit "#i") := by
  have h₁ : lit "#^" = [35, 94] := by decide
  have h₂ : lit "#i" = [35, 105] := by decide
  rw [rewritePattern, hm, rewriteSegments_texts, h₁, h₂]
  simp

theorem plain_regex (p : RewriteShape) : ∀ i ∈ p.regex, Plain i := by
  intro i hi
  rcases List.mem_append.mp hi with hi | hi
  · obtain ⟨seg, hseg, hi⟩ := List.mem_flatMap.mp hi
    have hwf := p.wellFormed seg hseg
    cases seg with
    | literal s =>
      rcases List.mem_cons.mp hi with rfl | hi
      · exact Or.inr rfl
      · obtain ⟨c, hc, rfl⟩ := List.mem_map.mp hi
        exact Or.inl (hwf.2 c hc)
    | name n =>
      simp only [RewriteSeg.items, List.mem_cons, List.not_mem_nil, or_false] at hi
      rcases hi with rfl | rfl
      · exact Or.inr rfl
      · exact ⟨hwf, Or.inl ⟨rfl, rfl⟩⟩
  · split at hi
    · simp only [List.mem_cons, List.not_mem_nil, or_false] at hi
      rcases hi with rfl | rfl
      · exact Or.inr rfl
      · exact ⟨by decide, Or.inr ⟨rfl, rfl⟩⟩
    · simp at hi

theorem names_append (r s : Regex CharSet Bytes) :
    Regex.names (r ++ s) = Regex.names r ++ Regex.names s := by
  induction r with
  | nil => rfl
  | cons i r ih => cases i <;> simp [Regex.names, ih]

theorem names_regex (p : RewriteShape) :
    Regex.names p.regex = segNames p.segs ++ if p.star then [routeRest] else [] := by
  have hsegs : ∀ segs : List RewriteSeg,
      Regex.names (segs.flatMap RewriteSeg.items) = segNames segs := by
    intro segs
    induction segs with
    | nil => rfl
    | cons seg segs ih =>
      rw [List.flatMap_cons, names_append, ih]
      cases seg with
      | literal s =>
        have hnil :
          Regex.names (s.map fun c => RegexItem.one (ν := Bytes) (CharSet.letter c)) = [] := by
          induction s with
          | nil => rfl
          | cons c s ih => simpa [Regex.names] using ih
        simp [RewriteSeg.items, Regex.names, hnil, segNames]
      | name n => simp [RewriteSeg.items, Regex.names, segNames]
  rw [RewriteShape.regex, names_append, hsegs]
  cases p.star <;> rfl

theorem map_groups_after (t : Bytes) (names : List Bytes) (o : Option (Way UInt8 Bytes)) :
    (o.map (Way.after t names)).map Way.groups =
      (o.map Way.groups).map fun g => (names.map fun n => (n, t)) ++ g := by
  cases o <;> rfl

theorem run_letters (s : Bytes) (r : Regex CharSet Bytes) (u : Bytes) :
    (Regex.run accepts (s.map (fun c => .one (.letter c)) ++ r) u).map Way.groups =
      if equalsCi s (u.take s.length) then
        (Regex.run accepts r (u.drop s.length)).map Way.groups
      else none := by
  induction s generalizing u with
  | nil => simp [equalsCi]
  | cons c s ih =>
    cases u with
    | nil => simp [equalsCi]
    | cons d u =>
      rw [List.map_cons, List.cons_append, Regex.run_one_cons]
      by_cases hc : toLower c = toLower d
      · have hacc : accepts (.letter c) d = true := by simp [accepts, hc]
        rw [if_pos hacc, map_groups_after, ih]
        simp [equalsCi, hc]
      · have hacc : ¬ accepts (.letter c) d = true := by simp [accepts, hc]
        rw [if_neg hacc]
        simp [equalsCi, hc]

theorem accepts_slash (c : UInt8) : accepts (.letter slash) c = (c == slash) := by
  have hs : toLower slash = slash := rfl
  rw [accepts, hs, Bool.eq_iff_iff, beq_iff_eq, beq_iff_eq]
  constructor
  · intro h
    exact (toLower_slash c).mp h.symm
  · rintro rfl
    rfl

/-- A name is followed by a slash or by the end. -/
theorem stops_items (segs : List RewriteSeg) {r : Regex CharSet Bytes}
    (hr : r = [] ∨ ∃ r', r = .one (.letter slash) :: r') :
    Regex.Stops accepts (.except slash) (segs.flatMap RewriteSeg.items ++ r) := by
  have hstop : ∀ c, accepts (.except slash) c = true → accepts (.letter slash) c = false := by
    intro c hc
    rw [accepts_slash]
    simpa [accepts] using hc
  cases segs with
  | nil =>
    rcases hr with rfl | ⟨r', rfl⟩
    · exact Or.inl rfl
    · exact Or.inr ⟨_, _, rfl, hstop⟩
  | cons seg segs =>
    right
    cases seg with
    | literal s => exact ⟨_, _, rfl, hstop⟩
    | name n => exact ⟨_, _, rfl, hstop⟩

/-- Running the items of the segments takes the front they describe. -/
theorem run_items (segs : List RewriteSeg) {r : Regex CharSet Bytes}
    (hr : r = [] ∨ ∃ r', r = .one (.letter slash) :: r') (u : Bytes) :
    (Regex.run accepts (segs.flatMap RewriteSeg.items ++ r) u).map Way.groups =
      (takeSegs segs u).bind fun p => (Regex.run accepts r p.2).map fun w =>
        segValues segs p.1 ++ w.groups := by
  induction segs generalizing u with
  | nil =>
    simp only [List.flatMap_nil, List.nil_append, takeSegs, Option.bind_some]
    rfl
  | cons seg segs ih =>
    cases u with
    | nil => cases seg <;> rfl
    | cons c u =>
      by_cases hc : c = slash
      · subst hc
        have hacc : accepts (.letter slash) slash = true := by decide
        cases seg with
        | literal s =>
          simp only [List.flatMap_cons, RewriteSeg.items, List.cons_append, List.append_assoc]
          rw [Regex.run_one_cons, if_pos hacc, map_groups_after, run_letters, takeSegs_literal]
          by_cases he : equalsCi s (u.take s.length) = true
          · rw [if_pos he, if_pos he, ih]
            cases takeSegs segs (u.drop s.length) with
            | none => rfl
            | some p => cases h : Regex.run accepts r p.2 <;> simp [h, segValues]
          · simp [he]
        | name n =>
          simp only [List.flatMap_cons, RewriteSeg.items, List.cons_append, List.nil_append]
          rw [Regex.run_one_cons, if_pos hacc, map_groups_after,
            Regex.run_group (stops_items segs hr), takeSegs_name]
          simp only [show accepts (.except slash) = fun d => d != slash from rfl]
          by_cases ht : u.takeWhile (fun d => d != slash) = []
          · simp [ht]
          · have hlen : 1 ≤ (u.takeWhile (fun d => d != slash)).length := by
              rw [Nat.one_le_iff_ne_zero]
              simpa using ht
            rw [if_pos hlen, if_neg ht, map_groups_after, ih]
            cases takeSegs segs (u.dropWhile fun d => d != slash) with
            | none => rfl
            | some p => cases h : Regex.run accepts r p.2 <;> simp [h, segValues]
      · have hacc : accepts (.letter slash) c = false := by simp [accepts_slash, hc]
        rw [takeSegs_other hc]
        cases seg <;> simp [RewriteSeg.items, Regex.run_one_cons, hacc]

/-- What the groups leave in the result: the rest is cut into pairs. -/
def collect (groups : List (Bytes × Bytes)) : Table Key Zval :=
  groups.foldl (fun ret g =>
    if g.1 = routeRest then Table.merge ret (routerParseParameters g.2)
    else Table.update ret (.name g.1) (.string g.2)) []

theorem routerParseParameters_cstr (s : Bytes) :
    routerParseParameters (cstr s) = routerParseParameters s := by
  rw [routerParseParameters, routerParseParameters, strtok, strtok,
    cstr_of_no_nul (nul_not_mem_cstr _)]

/-- The numbered entries of the sub-patterns leave nothing. -/
theorem collect_subparts {f : Table Key Zval → Key × Bytes → Table Key Zval}
    (hindex : ∀ ret i v, f ret (.index i, v) = ret)
    (hname : ∀ ret n v, f ret (.name n, v) =
      if n = routeRest then Table.merge ret (routerParseParameters v)
      else Table.update ret (.name n) (.string v)) (w : Way UInt8 Bytes) :
    (subparts (some w)).foldl f [] = collect w.groups := by
  have hgo : ∀ (groups : List (Bytes × Bytes)) (n : Nat) (ret : Table Key Zval),
      ((groups.zipIdx n).flatMap fun p =>
        [(Key.name p.1.1, p.1.2), (Key.index (p.2 + 1), p.1.2)]).foldl f ret =
      groups.foldl (fun ret g =>
        if g.1 = routeRest then Table.merge ret (routerParseParameters g.2)
        else Table.update ret (.name g.1) (.string g.2)) ret := by
    intro groups
    induction groups with
    | nil => intro n ret; rfl
    | cons g groups ih =>
      intro n ret
      rw [List.zipIdx_cons, List.flatMap_cons, List.foldl_append, ih, List.foldl_cons,
        List.foldl_cons, List.foldl_cons, List.foldl_nil, hname, hindex]
  rw [subparts, List.foldl_cons, hindex, hgo, collect]

/-- The rest a star takes: one line. -/
def firstLine (s : Bytes) : Bytes := s.takeWhile (· != newline)

/-- What the segments and the star leave in the result. -/
def RewriteShape.result (p : RewriteShape) (ts : List Bytes) (rest : Bytes) : Table Key Zval :=
  collect (segValues p.segs ts ++ if p.star then [(routeRest, firstLine rest)] else [])

/-- Behind the segments a star wants a slash and takes a line. -/
def RewriteShape.behind (p : RewriteShape) (u : Bytes) : Option Bytes :=
  if p.star then
    if u.head? = some slash then some u.tail else none
  else some []

theorem run_star (u : Bytes) :
    (Regex.run accepts [.one (.letter slash), .group routeRest 0 .dot] u).map Way.groups =
      if u.head? = some slash then some [(routeRest, firstLine u.tail)] else none := by
  cases u with
  | nil => rfl
  | cons c u =>
    rw [Regex.run_one_cons, accepts_slash, Regex.run_group (Or.inl rfl)]
    by_cases hc : c = slash
    · simp only [hc, beq_self_eq_true, ↓reduceIte, Nat.zero_le]
      rfl
    · simp [hc]

theorem run_regex (p : RewriteShape) (uri : Bytes) :
    (Regex.run accepts p.regex uri).map Way.groups =
      (takeSegs p.segs uri).bind fun s => (p.behind s.2).map fun rest =>
        segValues p.segs s.1 ++ if p.star then [(routeRest, firstLine rest)] else [] := by
  rw [RewriteShape.regex, run_items]
  · cases takeSegs p.segs uri with
    | none => rfl
    | some s =>
      rw [Option.bind_some, Option.bind_some, RewriteShape.behind]
      cases p.star with
      | false => simp [Regex.run_nil]
      | true =>
        have hstar := run_star s.2
        simp only [↓reduceIte]
        by_cases hc : s.2.head? = some slash
        · rw [if_pos hc] at hstar ⊢
          obtain ⟨w, hw, hg⟩ := Option.map_eq_some_iff.mp hstar
          simp [hw, hg]
        · rw [if_neg hc, Option.map_eq_none_iff] at hstar
          simp [hc, hstar]
  · cases p.star with
    | false => exact Or.inl rfl
    | true => exact Or.inr ⟨_, rfl⟩

/-- A route matches when the segments describe the front of the URI, and the star what is left. -/
theorem routeRewriteMatch_eq {pregMatch : PregMatch} (hp : Implements pregMatch)
    {route : RouteRewrite} {p : RewriteShape} (hm : strtok slash route.match = p.texts)
    (uri : Bytes) :
    routeRewriteMatch pregMatch route uri = some
      (if uri = [] ∨ (p.star = true ∧ routeRest ∈ segNames p.segs) then none
      else (takeSegs p.segs uri).bind fun s =>
        (p.behind s.2).map fun rest => p.result s.1 rest) := by
  have hnames : (Regex.names p.regex).Nodup ↔ ¬ (p.star = true ∧ routeRest ∈ segNames p.segs) := by
    rw [names_regex]
    cases p.star with
    | false => simpa using p.distinct
    | true =>
      simp only [List.nodup_append, p.distinct, ↓reduceIte, true_and]
      simp only [List.mem_singleton, forall_eq]
      constructor
      · intro h hm
        exact h.2 _ hm rfl
      · intro h
        refine ⟨by simp, ?_⟩
        rintro a ha rfl
        exact h ha
  rw [routeRewriteMatch, rewritePattern_eq hm]
  by_cases hu : uri = []
  · simp [hu]
  · rw [if_neg hu]
    by_cases hdup : p.star = true ∧ routeRest ∈ segNames p.segs
    · have hnone := hp.duplicate p.regex (plain_regex p) (by simpa [hnames] using hdup) uri
      simp only [Option.map_some, hnone, if_pos (Or.inr hdup)]
    · have hrun := hp.run p.regex (plain_regex p) (hnames.mpr hdup) uri
      have hright : ((takeSegs p.segs uri).bind fun s =>
          (p.behind s.2).map fun rest => p.result s.1 rest) =
          ((Regex.run accepts p.regex uri).map Way.groups).map collect := by
        rw [run_regex, Option.map_bind]
        simp [RewriteShape.result, Function.comp_def]
      rw [Option.map_some, hrun, if_neg (by simp [hu, hdup]), hright]
      cases Regex.run accepts p.regex uri with
      | none => rfl
      | some w =>
        have hgroups : rewriteGroups (subparts (some w)) = collect w.groups := ?_
        · exact congrArg (fun t => some (some t)) hgroups
        refine collect_subparts ?_ ?_ w
        · intro ret i v
          rfl
        · intro ret n v
          simp only [routerParseParameters_cstr]
          rfl

end Yaf
