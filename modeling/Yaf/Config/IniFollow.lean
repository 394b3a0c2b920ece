import Yaf.Config.IniGet

namespace Yaf
open Base Heap

section
variable {σ : Type}

/-- The loop of `Yaf_Config_Ini::get` over stored values: `properties` is what it looks in, `pzval`
what it found last, if anything. `none` stands for a scalar used as a table, for a `pzval` that was
never set and for a negative length; `some none` is NULL. -/
def getSegLoop (properties : Nest Key σ) (pzval : Option (Nest Key σ)) :
    List Bytes → Option (Option (Nest Key σ))
  | [] => pzval.map some
  | seg :: segs =>
    match properties with
    | .leaf _ => none
    | .node es => do
      let key ← segmentKey seg
      match Table.find? es key with
      | none => some none
      | some found => getSegLoop found (some found) segs

/-- `Yaf_Config_Ini::get`, whatever the scalars are. -/
def getStored (properties : Nest Key σ) (name : Bytes) : Option (Option (Nest Key σ)) :=
  match properties with
  | .leaf _ => some none
  | .node es =>
    if dot ∈ cstr name then getSegLoop (.node es) none (strtok dot name)
    else some (Table.find? es (numericKey name))

/-- The loop over keys. -/
def getLoop (properties : Nest Key σ) (pzval : Option (Nest Key σ)) :
    List Key → Option (Option (Nest Key σ))
  | [] => pzval.map some
  | key :: keys =>
    match properties with
    | .leaf _ => none
    | .node es =>
      match Table.find? es key with
      | none => some none
      | some found => getLoop found (some found) keys

/-- The path a name stands for: its segments that are not empty. -/
def namePath (name : Bytes) : List Key := ((name.splitOn dot).filter (· ≠ [])).map numericKey

/-- What is at the end of the path, NULL when a segment is missing or looked up in a scalar. -/
def GetFollows (tree : Nest Key σ) (name : Bytes) : Prop :=
  getStored tree name = some (Nest.at? (namePath name) tree)

/-- No segment is looked up in a scalar. -/
def Guarded (path : List Key) (tree : Nest Key σ) : Prop :=
  ∀ front k rest, path = front ++ k :: rest → front ≠ [] →
    ∀ s, Nest.at? front tree ≠ some (.leaf s)

/-- A segment is there, none is looked up in a scalar, and a NUL does not lead elsewhere. -/
structure NameFits (tree : Nest Key σ) (name : Bytes) : Prop where
  segment : ∃ seg ∈ name.splitOn dot, seg ≠ []
  guarded : Guarded (getSegments name) tree
  cut : NUL ∈ name → ∀ es, tree = .node es → getSegments name ≠ [] ∧
    Nest.at? (getSegments name) tree = Nest.at? (namePath name) tree

section
variable {k : Key} {path : List Key} {es : List (Key × Nest Key σ)} {t : Nest Key σ}

theorem guarded_single (tree : Nest Key σ) : Guarded [k] tree := by
  intro front j rest h hne
  obtain ⟨i, front, rfl⟩ := List.exists_cons_of_ne_nil hne
  simp at h

theorem guarded_missing (h : Table.find? es k = none) : Guarded (k :: path) (.node es) := by
  intro front j rest hpath hne s
  obtain ⟨i, front, rfl⟩ := List.exists_cons_of_ne_nil hne
  obtain ⟨rfl, -⟩ := List.cons.inj hpath
  simp [h]

theorem guarded_found (h : Table.find? es k = some t) (hne : path ≠ []) :
    Guarded (k :: path) (.node es) ↔ (∀ s, t ≠ .leaf s) ∧ Guarded path t := by
  have hat : ∀ front, Nest.at? (k :: front) (.node es) = Nest.at? front t := by
    intro front
    rw [Nest.at?_node, h, Option.bind_some]
  constructor
  · intro hg
    constructor
    · intro s
      obtain ⟨j, rest, rfl⟩ := List.exists_cons_of_ne_nil hne
      simpa [hat] using hg [k] j rest rfl (by simp) s
    · intro front j rest hpath _ s
      rw [← hat]
      exact hg (k :: front) j rest (by simp [hpath]) (by simp) s
  · intro ⟨ht, hg⟩ front j rest hpath hfront s
    obtain ⟨i, front, rfl⟩ := List.exists_cons_of_ne_nil hfront
    rw [List.cons_append, List.cons.injEq] at hpath
    obtain ⟨rfl, hpath⟩ := hpath
    rw [hat]
    cases front with
    | nil => simpa using ht s
    | cons i front => exact hg (i :: front) j rest hpath (by simp) s

/-- The loop ends with what is at the end of the path, and is defined if that is guarded. -/
theorem getLoop_eq {pzval : Option (Nest Key σ)} (hne : path ≠ []) :
    (Guarded path (.node es) → getLoop (.node es) pzval path = some (Nest.at? path (.node es))) ∧
      (¬Guarded path (.node es) → getLoop (.node es) pzval path = none) := by
  induction path generalizing es pzval with
  | nil => exact absurd rfl hne
  | cons k path ih =>
    rw [getLoop, Nest.at?_node]
    cases hf : Table.find? es k with
    | none => exact ⟨fun _ => rfl, fun hg => absurd (guarded_missing hf) hg⟩
    | some t =>
      cases path with
      | nil =>
        refine ⟨fun _ => ?_, fun hg => absurd (guarded_single _) hg⟩
        simp [getLoop]
      | cons j path =>
        rw [guarded_found hf (by simp)]
        cases t with
        | leaf s => exact ⟨fun h => absurd rfl (h.1 s), fun _ => rfl⟩
        | node e =>
          simpa using @ih e (some (.node e)) (by simp)

theorem getSegLoop_of_short {segs : List Bytes} (hfit : ∀ seg ∈ segs, seg.length < 2 ^ 31)
    (tree : Nest Key σ) (pzval : Option (Nest Key σ)) :
    getSegLoop tree pzval segs = getLoop tree pzval (segs.map numericKey) := by
  induction segs generalizing tree pzval with
  | nil => rfl
  | cons seg segs ih =>
    have hkey := segmentKey_of_short (hfit seg List.mem_cons_self)
    cases tree with
    | leaf s => rfl
    | node es =>
      rw [getSegLoop, hkey, Option.bind_eq_bind, Option.bind_some, List.map_cons, getLoop]
      cases Table.find? es (numericKey seg) with
      | none => rfl
      | some t => exact ih (fun s hs => hfit s (List.mem_cons_of_mem _ hs)) t (some t)

theorem getStored_node (es : List (Key × Nest Key σ)) {name : Bytes} (hfit : SegmentsFit name) :
    getStored (.node es) name = getLoop (.node es) none (getSegments name) := by
  rw [getStored, getSegments]
  split
  · rename_i hd
    exact getSegLoop_of_short (hfit hd) _ _
  · cases hf : Table.find? es (numericKey name) with
    | none => simp [getLoop, hf]
    | some t => simp [getLoop, hf]

/-- Undefined when no segment is looked up at all, and when one is looked up in a scalar. -/
theorem getStored_ne_none_iff (es : List (Key × Nest Key σ)) {name : Bytes}
    (hfit : SegmentsFit name) :
    getStored (.node es) name ≠ none ↔
      getSegments name ≠ [] ∧ Guarded (getSegments name) (.node es) := by
  rw [getStored_node es hfit]
  by_cases hne : getSegments name = []
  · simp [hne, getLoop]
  · have hloop := @getLoop_eq σ _ es none hne
    by_cases hg : Guarded (getSegments name) (.node es)
    · simp [hloop.1 hg, hne, hg]
    · simp [hloop.2 hg, hg]

end

theorem namePath_ne_nil {name : Bytes} :
    namePath name ≠ [] ↔ ∃ seg ∈ name.splitOn dot, seg ≠ [] := by
  simp [namePath, List.filter_eq_nil_iff]

/-- Without a NUL the code looks up the segments of the name. -/
theorem getSegments_eq_namePath {name : Bytes} (hn : NUL ∉ name)
    (hseg : ∃ seg ∈ name.splitOn dot, seg ≠ []) : getSegments name = namePath name := by
  rw [getSegments, namePath, strtok, cstr_of_no_nul hn]
  split
  · rfl
  · rename_i hd
    rw [List.splitOn_eq_singleton hd] at hseg ⊢
    obtain ⟨seg, hmem, hne⟩ := hseg
    rw [List.mem_singleton] at hmem
    simp [hmem ▸ hne]

/-- With segments that fit, `get` follows the name exactly if the tree and the name do. -/
theorem get_follows_iff (tree : Nest Key σ) (name : Bytes) (hfit : SegmentsFit name) :
    GetFollows tree name ↔ NameFits tree name := by
  cases tree with
  | leaf s =>
    have hempty : ∀ path : List Key, Nest.at? path (.leaf s) = none ↔ path ≠ [] := by
      intro path
      cases path <;> simp
    rw [GetFollows, getStored, Option.some.injEq, eq_comm, hempty, namePath_ne_nil]
    constructor
    · intro hseg
      refine ⟨hseg, fun front k rest _ hne r h => ?_, fun _ es h => by cases h⟩
      rw [(hempty front).mpr hne] at h
      cases h
    · exact NameFits.segment
  | node es =>
    have hloop := @getLoop_eq σ (getSegments name) es none
    rw [GetFollows]
    constructor
    · intro h
      have hdefined : getStored (.node es) name ≠ none := by
        rw [h]
        exact Option.some_ne_none _
      obtain ⟨hne, hg⟩ := (getStored_ne_none_iff es hfit).mp hdefined
      rw [getStored_node es hfit, (hloop hne).1 hg, Option.some.injEq] at h
      refine ⟨?_, hg, fun _ _ _ => ⟨hne, h⟩⟩
      by_cases hn : NUL ∈ name
      · obtain ⟨seg, hseg, hnul⟩ := exists_mem_splitOn (show NUL ≠ dot by decide) hn
        exact ⟨seg, hseg, List.ne_nil_of_mem hnul⟩
      · rw [← namePath_ne_nil]
        intro hnil
        -- no table holds itself, so an empty name finds something else
        by_cases hd : dot ∈ name
        · exact hne (by rw [getSegments, cstr_of_no_nul hn, if_pos hd, strtok, cstr_of_no_nul hn,
            ← hnil, namePath])
        · rw [getSegments, cstr_of_no_nul hn, if_neg hd, hnil, Nest.at?_single, Nest.at?_nil] at h
          exact absurd (Nest.sizeOf_lt_node (Table.mem_of_find? h)) (Nat.lt_irrefl _)
    · intro h
      by_cases hn : NUL ∈ name
      · obtain ⟨hne, hsame⟩ := h.cut hn es rfl
        rw [getStored_node es hfit, (hloop hne).1 h.guarded, hsame]
      · have hsame := getSegments_eq_namePath hn h.segment
        have hne : getSegments name ≠ [] := by
          rw [hsame]
          exact namePath_ne_nil.mpr h.segment
        rw [getStored_node es hfit, (hloop hne).1 h.guarded, hsame]

end

/-- An answer over the tables and one over what they read as. -/
def ReadsAnswer (h : IniHeap) :
    Option (Option (Nest Key Bytes)) → Option (Option (Val Bytes)) → Prop
  | some (some u), some (some v) => h.reads u v = true
  | some none, some none => True
  | none, none => True
  | _, _ => False

theorem getFind_reads {h : IniHeap} {path : List Key} (hne : path ≠ []) :
    ∀ {a : Addr} {es : List (Key × Nest Key Bytes)} (pzval : Option (Nest Key Bytes)),
      h.reads (.node es) (.ref a) = true →
        ReadsAnswer h (getLoop (.node es) pzval path) (getFind h a path) := by
  induction path with
  | nil => exact absurd rfl hne
  | cons k path ih =>
    intro a es pzval hr
    obtain ⟨_, t, ha, ht, hrt⟩ := reads_node.mp hr
    obtain rfl := Val.ref.inj ha
    rw [getLoop]
    rcases readsTable_find? hrt k with ⟨he, hw⟩ | ⟨u, w, he, hw, hu⟩
    · cases path <;> simp [getFind, slot?_eq ht, he, hw, ReadsAnswer]
    · rw [he]
      cases path with
      | nil => simpa [getFind, getLoop, slot?_eq ht, hw, ReadsAnswer] using hu
      | cons j path =>
        cases u with
        | leaf s =>
          rw [reads_leaf.mp hu] at hw
          simp [getFind, getLoop, slot?_eq ht, hw, ReadsAnswer]
        | node e =>
          obtain ⟨b, _, rfl, _, _⟩ := reads_node.mp hu
          simpa [getFind, slot?_eq ht, hw] using ih (by simp) (some (.node e)) hu

/-- Over the tables `get` does what it does over the stored tree. -/
theorem configIniGet_reads {h : IniHeap} {a : Addr} {es : List (Key × Nest Key Bytes)}
    (hr : h.reads (.node es) (.ref a) = true) {name : Bytes} (hfit : SegmentsFit name) :
    ReadsAnswer h (getStored (.node es) name) (configIniGet h a name) := by
  rw [getStored_node es hfit, hfit.configIniGet]
  by_cases hne : getSegments name = []
  · rw [hne]
    exact trivial
  · exact getFind_reads hne none hr

/-- A name that leads through a table to a string. -/
theorem get_follows_iff_sample :
    GetFollows (.node [(.name [97], .node [(.name [98], .leaf (lit "1"))])]) (lit "a.b") := by
  refine (get_follows_iff _ _ (by decide)).mpr ⟨⟨[97], by decide, by decide⟩, ?_, ?_⟩
  · intro front k rest hpath hne s hleaf
    have hab : getSegments (lit "a.b") = [.name [97], .name [98]] := by decide
    rw [hab] at hpath
    rcases front with _ | ⟨i, _ | ⟨j, front⟩⟩
    · exact hne rfl
    · obtain ⟨rfl, -⟩ := List.cons.inj hpath
      cases hleaf
    · simp at hpath
  · intro hn
    exact absurd hn (by decide)

/-- A lone dot reads an unset pointer, and a segment below a string reads that as a table. -/
theorem get_beyond_string :
    ¬GetFollows (.node [(.name [97], .leaf (lit "1"))]) (lit ".") ∧
      ¬GetFollows (.node [(.name [97], .leaf (lit "1"))]) (lit "a.b") := by
  have hdot : getSegments (lit ".") = [] := by decide
  have hab : getSegments (lit "a.b") = [.name [97], .name [98]] := by decide
  rw [GetFollows, GetFollows, getStored_node _ (by decide), getStored_node _ (by decide), hdot, hab]
  constructor
  · intro h
    cases h
  · intro h
    cases h

end Yaf
