import Yaf.Php.Strtok
import Yaf.Route.Rewrite

namespace Yaf
open Base

/-- The texts stand in this order in another one, with anything between them. -/
def InOrder : List Bytes → Bytes → Prop
  | [], _ => True
  | b :: bs, s => ∃ front rest, s = front ++ b ++ rest ∧ InOrder bs rest

/-- A segment that takes the entries no placeholder has used. -/
def isWildcard (seg : Bytes) : Bool := seg.head? == some 42

/-- The segments in which a placeholder is replaced: those before the wildcard. -/
def beforeWildcard (pattern : Bytes) : List Bytes :=
  (pattern.splitOn slash).takeWhile fun seg => !isWildcard seg

/-- The entries that are left when these segments have been replaced. -/
def leftOver (info : Table Key InfoValue) (segs : List Bytes) : Table Key InfoValue :=
  segs.foldl (fun pidents seg =>
    if seg.head? = some colon then Table.erase pidents (.name seg) else pidents) info

/-- `k/v/` for an entry `:k` with a string, unless a placeholder of the pattern names it. -/
def wildcardBlock (segs : List Bytes) (p : Key × InfoValue) : Option Bytes :=
  p.1.name?.bind fun key =>
    if key.head? = some colon ∧ p.2.isString = true ∧ segs.contains key = false then
      some (key.tail ++ slash :: p.2.text ++ [slash])
    else none

def wildcardBlocks (info : Table Key InfoValue) (segs : List Bytes) : List Bytes :=
  info.filterMap (wildcardBlock segs)

/-- A string comes back, and for a pattern with a star at its end the entries no placeholder uses
stand in it. -/
def RewriteAssembles (route : RouteRewrite) (info : Table Key InfoValue) (query : Option Info) :
    Prop :=
  ∃ url, routeRewriteAssemble route info query = some url ∧
    (route.match.getLast? = some 42 →
      InOrder (wildcardBlocks info (beforeWildcard route.match)) url)

/-- Where a wildcard is reached, a string under a string key is left for it and none under the empty
key. -/
def WildcardFilled (route : RouteRewrite) (info : Table Key InfoValue) : Prop :=
  ∀ before star after, strtok slash route.match = before ++ star :: after →
    isWildcard star = true → (∀ seg ∈ before, isWildcard seg = false) →
      (∃ p ∈ leftOver info before, p.1.isName = true ∧ p.2.isString = true) ∧
        ∀ p ∈ leftOver info before, p.1 = .name [] → p.2.isString = false

/-- A pattern with a star at its end has a wildcard before any NUL, or no entry is left for it. -/
def WildcardReached (route : RouteRewrite) (info : Table Key InfoValue) : Prop :=
  route.match.getLast? = some 42 → (∃ seg ∈ strtok slash route.match, isWildcard seg = true) ∨
    wildcardBlocks info (beforeWildcard route.match) = []

section
variable {pidents : Table Key InfoValue}

/-- The wildcard text is cut short by a string under the empty key. -/
theorem wildcardText_eq_none_iff :
    wildcardText pidents = none ↔ ∃ p ∈ pidents, p.1 = .name [] ∧ p.2.isString = true := by
  induction pidents using wildcardText.induct with
  | case1 => simp [wildcardText]
  | case2 i v pidents ih => simp [wildcardText, ih]
  | case3 v pidents hs => simp [wildcardText, hs]
  | case4 v pidents hs ih => simp [wildcardText, hs, ih]
  | case5 c key v pidents hs ih => simp [wildcardText, hs, ih]
  | case6 c key v pidents hs ih => simp [wildcardText, hs, ih]

theorem wildcardText_eq_nil_iff :
    wildcardText pidents = some [] ↔ ∀ p ∈ pidents, p.1.isName = true → p.2.isString = false := by
  induction pidents using wildcardText.induct with
  | case1 => simp [wildcardText]
  | case2 i v pidents ih => simp [wildcardText, ih, Key.isName]
  | case3 v pidents hs => simp [wildcardText, hs, Key.isName]
  | case4 v pidents hs ih => simp [wildcardText, hs, ih]
  | case5 c key v pidents hs ih => simp [wildcardText, hs, Key.isName]
  | case6 c key v pidents hs ih => simp [wildcardText, hs, ih]

/-- Exactly then there is a text to put in. -/
theorem wildcardText_some_iff :
    (∃ w, wildcardText pidents = some w ∧ w ≠ []) ↔
      (∃ p ∈ pidents, p.1.isName = true ∧ p.2.isString = true) ∧
        ∀ p ∈ pidents, p.1 = .name [] → p.2.isString = false := by
  have hnone := @wildcardText_eq_none_iff pidents
  have hnil := @wildcardText_eq_nil_iff pidents
  constructor
  · intro h
    obtain ⟨w, hw, hne⟩ := h
    constructor
    · by_contra hno
      have hempty : wildcardText pidents = some [] := by
        apply hnil.mpr
        intro p hp hname
        by_contra hstring
        exact hno ⟨p, hp, hname, by simpa using hstring⟩
      rw [hw] at hempty
      exact hne (Option.some.inj hempty)
    · intro p hp hkey
      by_contra hstring
      have hcut := hnone.mpr ⟨p, hp, hkey, by simpa using hstring⟩
      rw [hw] at hcut
      cases hcut
  · intro h
    obtain ⟨⟨p, hp, hname, hstring⟩, hempty⟩ := h
    cases hw : wildcardText pidents with
    | none =>
      obtain ⟨q, hq, hkey, hq'⟩ := hnone.mp hw
      rw [hempty q hq hkey] at hq'
      cases hq'
    | some w =>
      refine ⟨w, rfl, ?_⟩
      intro hwnil
      have := hnil.mp (hwnil ▸ hw) p hp hname
      rw [hstring] at this
      cases this

end

theorem InOrder.front {bs : List Bytes} {s : Bytes} (t : Bytes) (h : InOrder bs s) :
    InOrder bs (t ++ s) := by
  cases bs with
  | nil => trivial
  | cons b bs =>
    obtain ⟨front, rest, rfl, hrest⟩ := h
    exact ⟨t ++ front, rest, by simp, hrest⟩

theorem InOrder.behind {bs : List Bytes} {s : Bytes} (t : Bytes) (h : InOrder bs s) :
    InOrder bs (s ++ t) := by
  induction bs generalizing s with
  | nil => trivial
  | cons b bs ih =>
    obtain ⟨front, rest, rfl, hrest⟩ := h
    exact ⟨front, rest ++ t, by simp, ih hrest⟩

/-- The blocks of the entries stand in the wildcard text. -/
theorem wildcardText_inOrder {pidents : Table Key InfoValue} {w : Bytes} (segs : List Bytes)
    (h : wildcardText pidents = some w) : InOrder (wildcardBlocks pidents segs) w := by
  induction pidents using wildcardText.induct generalizing w with
  | case1 => trivial
  | case2 i v pidents ih => exact ih h
  | case3 v pidents hs =>
    rw [wildcardText, if_pos hs] at h
    cases h
  | case4 v pidents hs ih =>
    rw [wildcardText, if_neg hs] at h
    exact ih h
  | case5 c key v pidents hs ih =>
    rw [wildcardText, if_pos hs] at h
    obtain ⟨rest, hrest, rfl⟩ := Option.map_eq_some_iff.mp h
    have hblock : key ++ slash :: v.text ++ slash :: rest =
        (key ++ slash :: v.text ++ [slash]) ++ rest := by simp
    rw [hblock, wildcardBlocks, List.filterMap_cons, ← wildcardBlocks]
    by_cases hlisted : (c :: key).head? = some colon ∧ v.isString = true ∧
        segs.contains (c :: key) = false
    · simp only [wildcardBlock, Key.name?, Option.bind_some, if_pos hlisted]
      exact ⟨[], rest, rfl, ih hrest⟩
    · simp only [wildcardBlock, Key.name?, Option.bind_some, if_neg hlisted]
      exact (ih hrest).front _
  | case6 c key v pidents hs ih =>
    rw [wildcardText, if_neg hs] at h
    have hnot : ¬((c :: key).head? = some colon ∧ v.isString = true ∧
        segs.contains (c :: key) = false) := fun hc => hs hc.2.1
    rw [wildcardBlocks, List.filterMap_cons, ← wildcardBlocks]
    simp only [wildcardBlock, Key.name?, Option.bind_some, if_neg hnot]
    exact ih h

/-- An entry a segment names has no block. -/
theorem wildcardBlock_of_mem {segs : List Bytes} {seg : Bytes} (h : seg ∈ segs) (v : InfoValue) :
    wildcardBlock segs (.name seg, v) = none := by
  have hlisted : segs.contains seg = true := List.contains_iff_mem.mpr h
  apply if_neg
  intro hc
  rw [hlisted] at hc
  cases hc.2.2

theorem wildcardBlocks_erase {segs : List Bytes} {seg : Bytes} (h : seg ∈ segs)
    (info : Table Key InfoValue) :
    wildcardBlocks (Table.erase info (.name seg)) segs = wildcardBlocks info segs := by
  induction info with
  | nil => rfl
  | cons p info ih =>
    obtain ⟨key, v⟩ := p
    rw [Table.erase]
    split
    · rename_i hkey
      rw [wildcardBlocks, wildcardBlocks, List.filterMap_cons, hkey, wildcardBlock_of_mem h]
    · rw [wildcardBlocks, wildcardBlocks, List.filterMap_cons, List.filterMap_cons,
        ← wildcardBlocks, ← wildcardBlocks, ih]

/-- What a placeholder of the pattern uses has no block anyway. -/
theorem wildcardBlocks_leftOver {segs : List Bytes} (before : List Bytes) :
    ∀ info : Table Key InfoValue, (∀ seg ∈ before, seg ∈ segs) →
      wildcardBlocks (leftOver info before) segs = wildcardBlocks info segs := by
  induction before with
  | nil => exact fun _ _ => rfl
  | cons seg before ih =>
    intro info hbefore
    rw [leftOver, List.foldl_cons, ← leftOver,
      ih _ (fun s hs => hbefore s (List.mem_cons_of_mem _ hs))]
    split
    · exact wildcardBlocks_erase (hbefore seg List.mem_cons_self) info
    · rfl

/-- A star that starts the URI or stands behind a slash. -/
def HasStar (uri : Bytes) : Prop :=
  ∃ front rest, uri = front ++ 42 :: rest ∧ (front = [] ∨ ∃ q, front = q ++ [slash])

/-- The name of a placeholder has no slash and does not start with a star, so it stays. -/
theorem HasStar.placeholder {uri seg : Bytes} (h : HasStar uri) (hs : slash ∉ seg)
    (hc : seg.head? = some colon) (value : Bytes) : HasStar (replaceAll seg value uri) := by
  obtain ⟨name, rfl⟩ := List.head?_eq_some_iff.mp hc
  obtain ⟨front, rest, rfl, hfront⟩ := h
  have hstar : replaceAll (colon :: name) value (42 :: rest) =
      42 :: replaceAll (colon :: name) value rest := by
    apply replaceAll_cons_of_not_front
    intro h
    exact absurd (List.cons_prefix_cons.mp h).1 (by decide)
  rcases hfront with rfl | ⟨q, rfl⟩
  · exact ⟨[], replaceAll (colon :: name) value rest, hstar, Or.inl rfl⟩
  · refine ⟨replaceAll (colon :: name) value q ++ [slash],
      replaceAll (colon :: name) value rest, ?_, Or.inr ⟨_, rfl⟩⟩
    rw [List.append_assoc, List.singleton_append, replaceAll_append_sep (by simp) hs, hstar]
    simp

theorem hasStar_of_token {pattern star : Bytes} (h : star ∈ strtok slash pattern)
    (hs : isWildcard star = true) : HasStar pattern := by
  obtain ⟨rest, rfl⟩ := List.head?_eq_some_iff.mp (beq_iff_eq.mp hs)
  obtain ⟨front, behind, hcut, hfront⟩ := exists_of_mem_splitOn (List.mem_filter.mp h).1
  obtain ⟨more, hmore⟩ : cstr pattern <+: pattern := List.takeWhile_prefix _
  refine ⟨front, rest ++ behind ++ more, ?_, hfront⟩
  rw [← hmore, hcut]
  simp

/-- The segments before a wildcard: their entries are used up, and a star stays a star. -/
theorem assembleSegments_before {info : Table Key InfoValue} (before segs : List Bytes) :
    ∀ {pidents : Table Key InfoValue} {uri : Bytes}, (∀ p ∈ pidents, p ∈ info) →
      (∀ seg ∈ before, isWildcard seg = false ∧ slash ∉ seg) →
        ∃ uri', assembleSegments info pidents uri (before ++ segs) =
            assembleSegments info (leftOver pidents before) uri' segs ∧
          (HasStar uri → HasStar uri') := by
  induction before with
  | nil => exact fun _ _ => ⟨_, rfl, id⟩
  | cons seg before ih =>
    intro pidents uri hsub hbefore
    obtain ⟨hplain, hslash⟩ := hbefore seg List.mem_cons_self
    have hrest := fun s hs => hbefore s (List.mem_cons_of_mem seg hs)
    have hstar : ¬seg.head? = some 42 := by simpa [isWildcard] using hplain
    rw [List.cons_append, assembleSegments, if_neg hstar, leftOver, List.foldl_cons, ← leftOver]
    by_cases hc : seg.head? = some colon
    · rw [if_pos hc, if_pos hc]
      cases hf : Table.find? info (.name seg) with
      | none =>
        have hnone : Table.find? pidents (.name seg) = none := by
          cases hp : Table.find? pidents (.name seg) with
          | none => rfl
          | some v =>
            have hkey := List.mem_map_of_mem (f := Prod.fst) (hsub _ (Table.mem_of_find? hp))
            exact absurd hkey (Table.find?_eq_none.mp hf)
        rw [Table.erase_of_find?_none hnone]
        exact ih hsub hrest
      | some v =>
        obtain ⟨uri', hrun, hkeep⟩ := @ih (Table.erase pidents (.name seg))
          (replaceAll seg v.text uri) (fun p hp => hsub p (Table.mem_of_mem_erase hp)) hrest
        exact ⟨uri', hrun, fun h => hkeep (h.placeholder hslash hc v.text)⟩
    · rw [if_neg hc, if_neg hc]
      exact ih hsub hrest

/-- Segments a filter keeps, before the first that fails a test. -/
theorem mem_takeWhile_of_filter {α : Type*} {p q : α → Bool} {segs before : List α}
    (h : before <+: segs.filter p) (hb : ∀ seg ∈ before, q seg = true)
    (hq : ∀ seg, p seg = false → q seg = true) : ∀ seg ∈ before, seg ∈ segs.takeWhile q := by
  induction segs generalizing before with
  | nil =>
    rw [List.filter_nil, List.prefix_nil] at h
    subst h
    exact fun _ hseg => by cases hseg
  | cons s segs ih =>
    cases hp : p s with
    | false =>
      rw [List.filter_cons_of_neg (by simp [hp])] at h
      intro seg hseg
      rw [List.takeWhile_cons_of_pos (hq s hp)]
      exact List.mem_cons_of_mem _ (ih h hb seg hseg)
    | true =>
      rw [List.filter_cons_of_pos hp] at h
      cases before with
      | nil => exact fun _ hseg => by cases hseg
      | cons t before =>
        obtain ⟨rfl, hrest⟩ := List.cons_prefix_cons.mp h
        obtain ⟨ht, hbefore⟩ := List.forall_mem_cons.mp hb
        rw [List.takeWhile_cons_of_pos ht]
        exact List.forall_mem_cons.mpr ⟨List.mem_cons_self,
          fun seg hseg => List.mem_cons_of_mem _ (ih hrest hbefore seg hseg)⟩

/-- A NUL cuts the last token only, so those before a wildcard are segments of the pattern. -/
theorem mem_beforeWildcard {pattern star : Bytes} {before after : List Bytes}
    (h : strtok slash pattern = before ++ star :: after)
    (hb : ∀ seg ∈ before, isWildcard seg = false) :
    ∀ seg ∈ before, seg ∈ beforeWildcard pattern := by
  obtain ⟨rest, hrest⟩ : cstr pattern <+: pattern := List.takeWhile_prefix _
  obtain ⟨init, last, head, tail, hcut, -, hwhole⟩ := splitOn_append slash (cstr pattern) rest
  rw [hrest] at hwhole
  rw [strtok, hcut, List.filter_append] at h
  have hlast := List.length_filter_le (fun seg : Bytes => decide (seg ≠ [])) [last]
  have hlen := congrArg List.length h
  simp only [List.length_append, List.length_cons] at hlen
  have hshort : before.length ≤ (init.filter fun seg : Bytes => decide (seg ≠ [])).length := by
    rw [List.length_singleton] at hlast
    omega
  have hfront := List.prefix_of_prefix_length_le ⟨star :: after, h.symm⟩ ⟨_, rfl⟩ hshort
  have hplain : ∀ seg : Bytes, decide (seg ≠ []) = false → (!isWildcard seg) = true := by
    intro seg hseg
    rw [of_not_not (of_decide_eq_false hseg)]
    rfl
  intro seg hseg
  have hmem := mem_takeWhile_of_filter hfront (fun s hs => by rw [hb s hs]; rfl) hplain seg hseg
  rw [beforeWildcard, hwhole, List.takeWhile_append]
  split
  · exact List.mem_append_left _ ((List.takeWhile_prefix _).subset hmem)
  · exact hmem

/-- The first wildcard among the segments, when there is one. -/
theorem first_wildcard (segs : List Bytes) :
    (∀ seg ∈ segs, isWildcard seg = false) ∨
      ∃ before star after, segs = before ++ star :: after ∧ isWildcard star = true ∧
        ∀ seg ∈ before, isWildcard seg = false := by
  induction segs with
  | nil => exact Or.inl (fun _ h => by cases h)
  | cons seg segs ih =>
    cases hs : isWildcard seg with
    | true => exact Or.inr ⟨[], seg, segs, rfl, hs, fun _ h => by cases h⟩
    | false =>
      rcases ih with hall | ⟨before, star, after, rfl, hstar, hbefore⟩
      · exact Or.inl (List.forall_mem_cons.mpr ⟨hs, hall⟩)
      · exact Or.inr ⟨seg :: before, star, after, rfl, hstar,
          List.forall_mem_cons.mpr ⟨hs, hbefore⟩⟩

section
variable {route : RouteRewrite} {info : Table Key InfoValue} {before after : List Bytes}
  {star : Bytes}

/-- What comes out at a wildcard: its text for every star, when there is a text. -/
def putWildcard (pidents : Table Key InfoValue) (uri : Bytes) : Option Bytes :=
  (wildcardText pidents).bind fun w => if w = [] then none else some (replaceAll [42] w uri)

theorem assembleSegments_wildcard {pidents : Table Key InfoValue} {uri : Bytes}
    (hs : isWildcard star = true) :
    assembleSegments info pidents uri (star :: after) = putWildcard pidents uri := by
  have hhead : star.head? = some 42 := beq_iff_eq.mp hs
  rw [assembleSegments, if_pos hhead, putWildcard]
  cases wildcardText pidents with
  | none => rfl
  | some w =>
    cases w with
    | nil => rfl
    | cons c w => rfl

/-- Assembling with a wildcard puts its text into a URI that holds a star. -/
theorem assemble_wildcard (h : strtok slash route.match = before ++ star :: after)
    (hs : isWildcard star = true) (hb : ∀ seg ∈ before, isWildcard seg = false) :
    ∃ uri, HasStar uri ∧ assembleSegments info info route.match (strtok slash route.match) =
      putWildcard (leftOver info before) uri := by
  have hfree : ∀ seg ∈ before, isWildcard seg = false ∧ slash ∉ seg := by
    intro seg hseg
    have htoken : seg ∈ strtok slash route.match := h ▸ List.mem_append_left _ hseg
    exact ⟨hb seg hseg, (mem_strtok htoken).2.2⟩
  obtain ⟨uri, hrun, hkeep⟩ :=
    @assembleSegments_before info before (star :: after) info route.match (fun _ hp => hp) hfree
  refine ⟨uri, hkeep (hasStar_of_token (h ▸ by simp) hs), ?_⟩
  rw [h, hrun, assembleSegments_wildcard hs]

/-- Without one the URI comes back. -/
theorem assemble_plain (h : ∀ seg ∈ strtok slash route.match, isWildcard seg = false) :
    ∃ uri, assembleSegments info info route.match (strtok slash route.match) = some uri := by
  obtain ⟨uri, hrun, -⟩ := @assembleSegments_before info (strtok slash route.match) [] info
    route.match (fun _ hp => hp) (fun seg hseg => ⟨h seg hseg, (mem_strtok hseg).2.2⟩)
  rw [List.append_nil] at hrun
  exact ⟨uri, hrun⟩

/-- The wildcard text stands where the star stood. -/
theorem HasStar.wildcard {uri : Bytes} (h : HasStar uri) (wildcard : Bytes) :
    ∃ x y, replaceAll [42] wildcard uri = x ++ wildcard ++ y := by
  obtain ⟨front, rest, rfl, -⟩ := h
  refine ⟨Base.replaceAll [42] wildcard front, Base.replaceAll [42] wildcard rest, ?_⟩
  simp [replaceAll_single]

end

/-- Assembling succeeds with the blocks exactly when the wildcard has something to take. -/
theorem rewrite_assembles (route : RouteRewrite) (info : Table Key InfoValue)
    (query : Option Info) :
    (RewriteAssembles route info query → WildcardFilled route info) ∧
      (WildcardFilled route info → WildcardReached route info → RewriteAssembles route info query) ∧
      (NUL ∉ route.match → (∃ seg ∈ route.match.splitOn slash, isWildcard seg = true) →
        WildcardReached route info) := by
  refine ⟨?_, ?_, ?_⟩
  · intro ⟨url, hurl, _⟩ before star after htokens hstar hbefore
    obtain ⟨uri, -, hrun⟩ := @assemble_wildcard route info _ _ _ htokens hstar hbefore
    apply wildcardText_some_iff.mp
    obtain ⟨path, hpath, -⟩ := Option.map_eq_some_iff.mp hurl
    rw [hrun] at hpath
    obtain ⟨w, hw, hput⟩ := Option.bind_eq_some_iff.mp hpath
    refine ⟨w, hw, ?_⟩
    intro hnil
    rw [if_pos hnil] at hput
    cases hput
  · intro hfilled hreached
    rcases first_wildcard (strtok slash route.match) with
      hall | ⟨before, star, after, htokens, hs, hb⟩
    · obtain ⟨uri, hrun⟩ := @assemble_plain route info hall
      refine ⟨_, by rw [routeRewriteAssemble, hrun, Option.map_some], ?_⟩
      intro hend
      rcases hreached hend with ⟨seg, hseg, hs⟩ | hnothing
      · rw [hall seg hseg] at hs
        cases hs
      · rw [hnothing]
        trivial
    · obtain ⟨w, hw, hne⟩ := wildcardText_some_iff.mpr (hfilled before star after htokens hs hb)
      obtain ⟨uri, huri, hrun⟩ := @assemble_wildcard route info _ _ _ htokens hs hb
      obtain ⟨x, y, hreplaced⟩ := huri.wildcard w
      have hpath : assembleSegments info info route.match (strtok slash route.match) =
          some (x ++ w ++ y) := by
        rw [hrun, putWildcard, hw, Option.bind_some, if_neg hne, hreplaced]
      refine ⟨_, by rw [routeRewriteAssemble, hpath, Option.map_some], fun _ => ?_⟩
      have hblocks := wildcardText_inOrder (beforeWildcard route.match) hw
      rw [wildcardBlocks_leftOver before info (mem_beforeWildcard htokens hb)] at hblocks
      rw [List.append_assoc, List.append_assoc]
      exact (hblocks.behind _).front x
  · intro hn ⟨seg, hseg, hs⟩ _
    left
    refine ⟨seg, ?_, hs⟩
    rw [strtok, cstr_of_no_nul hn, List.mem_filter]
    refine ⟨hseg, ?_⟩
    obtain ⟨rest, rfl⟩ := List.head?_eq_some_iff.mp (beq_iff_eq.mp hs)
    simp

/-- A wildcard with nothing left for it, and one with a string under the empty key. -/
theorem wildcard_not_filled :
    ¬RewriteAssembles (routeRewriteInstance (lit "/*") [] none) [] none ∧
      ¬RewriteAssembles (routeRewriteInstance (lit "/*") [] none) [(.name [], ⟨true, lit "v"⟩)]
        none := by
  have hempty : routeRewriteAssemble (routeRewriteInstance (lit "/*") [] none) [] none = none := by
    decide
  have hslice : routeRewriteAssemble (routeRewriteInstance (lit "/*") [] none)
      [(.name [], ⟨true, lit "v"⟩)] none = none := by
    decide
  constructor
  · intro h
    obtain ⟨url, hurl, _⟩ := h
    rw [hempty] at hurl
    cases hurl
  · intro h
    obtain ⟨url, hurl, _⟩ := h
    rw [hslice] at hurl
    cases hurl

end Yaf
