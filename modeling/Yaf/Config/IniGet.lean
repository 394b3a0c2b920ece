import Yaf.Config.IniInstance
import Yaf.Config.IniPath
import Yaf.Php.Numeric
import Yaf.Php.Strtok

namespace Yaf
open Base Heap IniSpec

/-- The key a segment is looked up by, as far as `int seg_len` reaches. -/
def segmentKey (seg : Bytes) : Option Key := (intPrefix seg).map numericKey

/-- The walk of `Yaf_Config_Ini::get` down the segments of a name; `some none` stands for NULL. A
string on the way is used as a table, without a segment a pointer that was never set is read, and a
negative length leads out of the segment. -/
def getSegs (h : IniHeap) (properties : Addr) : List Bytes → Option (Option (Val Bytes))
  | [] => none
  | [seg] => (segmentKey seg).map (h.slot? properties)
  | seg :: next :: segs => do
    let key ← segmentKey seg
    match h.slot? properties key with
    | none => some none
    | some (.ref pzval) => getSegs h pzval (next :: segs)
    | some (.scalar _) => none

/-- `Yaf_Config_Ini::get`. Only a name with a dot is cut, and only a cut name ends at a NUL. A table
comes back as a new `Yaf_Config_Ini` over it. -/
def configIniGet (h : IniHeap) (properties : Addr) (name : Bytes) : Option (Option (Val Bytes)) :=
  if dot ∈ cstr name then getSegs h properties (strtok dot name)
  else some (h.slot? properties (numericKey name))

/-- The segments a name is cut into have lengths an `int` keeps. -/
def SegmentsFit (name : Bytes) : Prop :=
  dot ∈ cstr name → ∀ seg ∈ strtok dot name, seg.length < 2 ^ 31

instance (name : Bytes) : Decidable (SegmentsFit name) :=
  inferInstanceAs (Decidable (_ → ∀ seg ∈ strtok dot name, seg.length < 2 ^ 31))

/-- The keys a name with such segments is looked up by. -/
def getSegments (name : Bytes) : List Key :=
  if dot ∈ cstr name then (strtok dot name).map numericKey else [numericKey name]

/-- The walk down keys. -/
def getFind (h : IniHeap) (properties : Addr) : List Key → Option (Option (Val Bytes))
  | [] => none
  | [key] => some (h.slot? properties key)
  | key :: next :: keys =>
    match h.slot? properties key with
    | none => some none
    | some (.ref pzval) => getFind h pzval (next :: keys)
    | some (.scalar _) => none

/-- `Yaf_Config_Ini::__isset`. -/
def configIniIsset (h : IniHeap) (properties : Addr) (name : Bytes) : Bool :=
  (h.slot? properties (.name name)).isSome

/-- A dotted key made of segments that are not empty. -/
def Dotted (key : Bytes) : Prop := ∀ seg ∈ key.splitOn dot, seg ≠ []

instance : DecidablePred Dotted := fun key =>
  inferInstanceAs (Decidable (∀ seg ∈ key.splitOn dot, seg ≠ []))

/-- The segments of the key are the first ones of another, longer key. -/
def Above (key other : Bytes) : Prop :=
  key.splitOn dot <+: other.splitOn dot ∧ key.splitOn dot ≠ other.splitOn dot

/-- A key and its value, as the parser hands them over. -/
def entryCallback (e : Bytes × Option Bytes) : Callback := .entry e.1 e.2

/-- Whatever was written before it, a value is what `get` finds under its key. -/
def ReadsBack (key : Bytes) : Prop :=
  ∀ (file value : Bytes) (entries : List (Bytes × Option Bytes)),
    (∀ e ∈ entries, Dotted e.1 ∧ ¬Above key e.1) →
      ∃ h properties, iniInstance file [] (entries.map entryCallback ++ [.entry key (some value)]) =
          some (.ok (h, properties)) ∧
        configIniGet h properties key = some (some (.scalar value))

/-- `__isset` answers whether `get` finds something. -/
def IssetAgrees (key : Bytes) : Prop :=
  ∀ (file : Bytes) (entries : List (Bytes × Option Bytes)), (∀ e ∈ entries, Dotted e.1) →
    ∃ h properties found, iniInstance file [] (entries.map entryCallback) =
        some (.ok (h, properties)) ∧
      configIniGet h properties key = some found ∧
        configIniIsset h properties key = found.isSome

/-- What is written under the key is read back through it. -/
structure KeyReadable (key : Bytes) : Prop where
  readsBack : ReadsBack key
  isset : dot ∉ key → IssetAgrees key
  keys : ∀ seg ∈ key.splitOn dot, numericKey seg = symtableKey seg

/-- No segment is an integer spelled otherwise than it prints or longer than an `int` counts, there
is no NUL, and a key without a dot is not an integer. -/
structure PlainKey (key : Bytes) : Prop where
  noNul : NUL ∉ key
  fits : SegmentsFit key
  canonical :
    ∀ seg ∈ key.splitOn dot, isNumericLong seg = true → (handleNumericStr seg).isSome = true
  single : dot ∉ key → isNumericLong key = false

theorem segmentKey_of_short {seg : Bytes} (h : seg.length < 2 ^ 31) :
    segmentKey seg = some (numericKey seg) := by
  rw [segmentKey, intPrefix_of_short h, Option.map_some]

/-- A segment that is looked up where it is written is not too long. -/
theorem short_of_segmentKey {seg : Bytes} (h : segmentKey seg = some (symtableKey seg)) :
    seg.length < 2 ^ 31 := by
  by_contra hlong
  have hname : symtableKey seg = .name seg := by
    rw [symtableKey, handleNumericStr_of_long (by omega)]
  obtain ⟨t, ht, hkey⟩ := Option.map_eq_some_iff.mp h
  obtain ⟨n, hn, rfl⟩ := Option.map_eq_some_iff.mp ht
  have hlt := intLength_lt hn
  have heq : seg.take n = seg := numericKey_eq_name (hname ▸ hkey)
  have hlen := congrArg List.length heq
  rw [List.length_take] at hlen
  omega

/-- Segments that fit are looked up by their keys. -/
theorem getSegs_of_short {h : IniHeap} {segs : List Bytes}
    (hfit : ∀ seg ∈ segs, seg.length < 2 ^ 31) (a : Addr) :
    getSegs h a segs = getFind h a (segs.map numericKey) := by
  induction segs generalizing a with
  | nil => rfl
  | cons seg segs ih =>
    have hkey := segmentKey_of_short (hfit seg List.mem_cons_self)
    cases segs with
    | nil => rw [getSegs, hkey]; rfl
    | cons next segs =>
      rw [getSegs, hkey, Option.bind_eq_bind, Option.bind_some, List.map_cons, List.map_cons,
        getFind]
      cases h.slot? a (numericKey seg) with
      | none => rfl
      | some v =>
        cases v with
        | scalar s => rfl
        | ref b => exact ih (fun s hs => hfit s (List.mem_cons_of_mem _ hs)) b

theorem SegmentsFit.configIniGet {name : Bytes} (hfit : SegmentsFit name) (h : IniHeap) (a : Addr) :
    configIniGet h a name = getFind h a (getSegments name) := by
  rw [Yaf.configIniGet, getSegments]
  split
  · rename_i hd
    exact getSegs_of_short (hfit hd) a
  · rfl

/-- What is found is found by the keys of all segments. -/
theorem getSegs_some {h : IniHeap} {s : Bytes} {segs : List Bytes} {a : Addr}
    (hget : getSegs h a segs = some (some (.scalar s))) :
    ∃ keys, List.Forall₂ (fun seg key => segmentKey seg = some key) segs keys ∧
      getFind h a keys = some (some (.scalar s)) := by
  induction segs generalizing a with
  | nil => cases hget
  | cons seg segs ih =>
    cases segs with
    | nil =>
      obtain ⟨key, hkey, hslot⟩ := Option.map_eq_some_iff.mp hget
      exact ⟨[key], .cons hkey .nil, congrArg some hslot⟩
    | cons next segs =>
      rw [getSegs] at hget
      obtain ⟨key, hkey, hget⟩ := Option.bind_eq_some_iff.mp hget
      cases hslot : h.slot? a key with
      | none => simp [hslot] at hget
      | some v =>
        cases v with
        | scalar r => simp [hslot] at hget
        | ref b =>
          simp only [hslot] at hget
          obtain ⟨keys, hkeys, hfind⟩ := ih hget
          obtain ⟨k, keys, rfl⟩ : ∃ k rest, keys = k :: rest := by
            cases hkeys
            exact ⟨_, _, rfl⟩
          exact ⟨key :: k :: keys, .cons hkey hkeys, by rw [getFind, hslot]; exact hfind⟩

/-- `get` walks what the tables read as. -/
theorem getFind_eq {h : IniHeap} {s : Bytes} (path : List Key) :
    ∀ {a : Addr} {es : Content}, path ≠ [] → h.reads (.node es) (.ref a) = true →
      (getFind h a path = some (some (.scalar s)) ↔
        Nest.at? path (.node es) = some (.leaf s)) := by
  induction path with
  | nil => exact fun hne => absurd rfl hne
  | cons seg path ih =>
    intro a es _ hr
    obtain ⟨_, t, hra, ht, hrt⟩ := reads_node.mp hr
    obtain rfl := Val.ref.inj hra
    rw [Nest.at?_node]
    rcases readsTable_find? hrt seg with ⟨he, hw⟩ | ⟨u, w, he, hw, hu⟩
    · cases path <;> simp [getFind, slot?_eq ht, he, hw]
    · cases path with
      | nil =>
        simp only [getFind, slot?_eq ht, he, hw, Option.some.injEq, Option.bind_some, Nest.at?_nil]
        constructor
        · rintro rfl
          exact reads_unique u (.leaf s) _ hu (reads_leaf.mpr rfl)
        · rintro rfl
          exact reads_leaf.mp hu
      | cons next path =>
        cases u with
        | leaf r =>
          rw [reads_leaf.mp hu] at hw
          simp [getFind, slot?_eq ht, he, hw]
        | node e =>
          obtain ⟨b, _, rfl, _, _⟩ := reads_node.mp hu
          simp only [getFind, slot?_eq ht, he, hw, Option.bind_some]
          exact ih (by simp) hu

/-- A file of entries alone: each one is assigned in the table of the configuration. -/
theorem entries_load (entries : List (Bytes × Option Bytes)) :
    ∀ {st : IniState} {configs : Content}, Loads st configs none →
      ∃ st', (entries.map entryCallback).foldlM (iniParserCb none) st = some st' ∧
        Loads st' ((entries.map entryCallback).foldl apply configs) none := by
  induction entries with
  | nil => exact fun l => ⟨_, rfl, l⟩
  | cons e entries ih =>
    intro st configs l
    obtain ⟨st₁, hstep, l₁⟩ := Loads.entry l
      (show ∀ key, entryCallback e ≠ .section key by simp [entryCallback]) rfl
    obtain ⟨st', hrun, l'⟩ := ih l₁
    refine ⟨st', ?_, l'⟩
    rw [List.map_cons, List.foldlM_cons, hstep]
    exact hrun

theorem entries_instance (file : Bytes) (entries : List (Bytes × Option Bytes)) :
    ∃ st, iniInstance file [] (entries.map entryCallback) = some (.ok (st.heap, st.arr)) ∧
      Loads st ((entries.map entryCallback).foldl apply []) none := by
  obtain ⟨st, hrun, l⟩ := entries_load entries loads_start
  refine ⟨st, ?_, l⟩
  rw [iniInstance, if_pos rfl, iniLoad, hrun, Option.map_some]

/-- Without a NUL the segments of a dotted key are its tokens. -/
theorem Dotted.strtok {key : Bytes} (hk : Dotted key) (hn : NUL ∉ key) :
    strtok dot key = key.splitOn dot := by
  rw [Yaf.strtok, cstr_of_no_nul hn, List.filter_eq_self]
  exact fun seg hseg => by simpa using hk seg hseg

theorem Dotted.segments_ne_nil {key : Bytes} (hk : Dotted key) (hn : NUL ∉ key) :
    segments key ≠ [] := by
  rw [segments, hk.strtok hn, ne_eq, List.map_eq_nil_iff]
  exact List.splitOn_ne_nil dot key

/-- A key that is written above another, longer one stands above it. -/
theorem above_of_strtok {key other : Bytes} (hk : Dotted key) (hn : NUL ∉ key)
    (hpre : strtok dot key <+: strtok dot other) (hne : strtok dot key ≠ strtok dot other)
    (ho : Dotted other) : Above key other := by
  obtain ⟨rest, hrest⟩ : cstr other <+: other := List.takeWhile_prefix _
  obtain ⟨init, last, head, tail, hcut, -, hother⟩ := splitOn_append dot (cstr other) rest
  rw [hrest] at hother
  have hinit : init.filter (· ≠ []) = init := by
    rw [List.filter_eq_self]
    intro seg hseg
    simpa using ho seg (by rw [hother]; simp [hseg])
  have htokens : strtok dot other = init ++ [last].filter (· ≠ []) := by
    rw [Yaf.strtok, hcut, List.filter_append, hinit]
  rw [hk.strtok hn, htokens] at hpre hne
  have hfront : key.splitOn dot <+: init := by
    by_cases hl : last = []
    · simpa [hl] using hpre
    · rw [List.filter_cons_of_pos (by simpa using hl), List.filter_nil] at hpre hne
      rcases List.prefix_concat_iff.mp hpre with he | hpre
      · exact absurd he hne
      · exact hpre
  refine ⟨hother ▸ hfront.trans (List.prefix_append _ _), fun he => ?_⟩
  have hlen := hfront.length_le
  rw [he, hother, List.length_append, List.length_cons] at hlen
  omega

/-- No entry that is not below the key makes a table under it. -/
theorem no_table_at {key : Bytes} (hk : Dotted key) (hn : NUL ∉ key)
    (entries : List (Bytes × Option Bytes)) (he : ∀ e ∈ entries, Dotted e.1 ∧ ¬Above key e.1) :
    ∀ e, Nest.at? (segments key) (.node ((entries.map entryCallback).foldl apply [])) ≠
      some (.node e) := by
  induction entries using List.reverseRecOn with
  | nil =>
    obtain ⟨k, path, hpath⟩ := List.exists_cons_of_ne_nil (hk.segments_ne_nil hn)
    simp [hpath]
  | append_singleton entries last ih =>
    have hprev := ih fun e h => he e (List.mem_append_left _ h)
    obtain ⟨hdotted, hnot⟩ := he last (by simp)
    obtain ⟨other, written⟩ := last
    intro e hat
    rw [List.map_append, List.foldl_append] at hat
    cases written with
    | none => exact hprev e hat
    | some value =>
      rcases node_of_at?_assign (hk.segments_ne_nil hn) hat with ⟨e', he'⟩ | ⟨hpre, hneq⟩
      · exact hprev e' he'
      · rw [segments, segments,
          List.prefix_map_iff_of_injective fun _ _ => symtableKey_inj] at hpre
        refine hnot (above_of_strtok hk hn hpre (fun h => ?_) hdotted)
        exact hneq (congrArg (·.map symtableKey) h)

theorem PlainKey.getSegments_eq {key : Bytes} (hk : Dotted key) (hp : PlainKey key) :
    getSegments key = segments key := by
  have hsame : ∀ seg ∈ key.splitOn dot, numericKey seg = symtableKey seg := fun seg hseg =>
    numericKey_eq_iff.mpr (hp.canonical seg hseg)
  rw [getSegments, cstr_of_no_nul hp.noNul, segments, hk.strtok hp.noNul]
  split
  · exact List.map_congr_left hsame
  · rename_i hd
    rw [List.splitOn_eq_singleton hd] at hsame ⊢
    simpa using hsame

theorem PlainKey.readsBack {key : Bytes} (hk : Dotted key) (hp : PlainKey key) :
    ReadsBack key := by
  intro file value entries he
  obtain ⟨st, hload, l⟩ := entries_instance file (entries ++ [(key, some value)])
  have hne := hk.segments_ne_nil hp.noNul
  refine ⟨st.heap, st.arr, by simpa [entryCallback] using hload, ?_⟩
  rw [hp.fits.configIniGet, hp.getSegments_eq hk, getFind_eq _ hne l.focus.reads, List.map_append,
    List.foldl_append]
  exact at?_assign_self value hne (no_table_at hk hp.noNul entries he)

theorem PlainKey.issetAgrees {key : Bytes} (hp : PlainKey key) (hd : dot ∉ key) :
    IssetAgrees key := by
  intro file entries _
  obtain ⟨st, hload, -⟩ := entries_instance file entries
  refine ⟨st.heap, st.arr, _, hload, ?_, rfl⟩
  rw [configIniGet, cstr_of_no_nul hp.noNul, if_neg hd, numericKey_eq_name_iff.mpr (hp.single hd)]

/-- A file that holds one entry. -/
theorem single_instance (file key value : Bytes) :
    ∃ st, iniInstance file [] [.entry key (some value)] = some (.ok (st.heap, st.arr)) ∧
      Loads st (assign (segments key) value []) none :=
  entries_instance file [(key, some value)]

/-- In a file that holds one entry, `get` must look where it was written. -/
theorem ReadsBack.getSegments_eq {key : Bytes} (h : ReadsBack key) :
    SegmentsFit key ∧ getSegments key = segments key ∧ segments key ≠ [] := by
  obtain ⟨hp, properties, hload, hget⟩ := h [] [] [] (by simp)
  obtain ⟨st, hload', l⟩ := single_instance [] key []
  obtain ⟨rfl, rfl⟩ : st.heap = hp ∧ st.arr = properties := by
    simpa using hload'.symm.trans hload
  have hwhere : ∀ {keys : List Key}, getFind st.heap st.arr keys = some (some (.scalar [])) →
      keys = segments key ∧ keys ≠ [] := by
    intro keys hfind
    have hne : keys ≠ [] := by
      rintro rfl
      cases hfind
    exact ⟨at?_assign_nil ((getFind_eq _ hne l.focus.reads).mp hfind), hne⟩
  have hfit : SegmentsFit key := by
    intro hd
    rw [configIniGet, if_pos hd] at hget
    obtain ⟨keys, hkeys, hfind⟩ := getSegs_some hget
    rw [(hwhere hfind).1, segments, List.forall₂_map_right_iff, List.forall₂_same] at hkeys
    exact fun seg hseg => short_of_segmentKey (hkeys seg hseg)
  rw [hfit.configIniGet] at hget
  obtain ⟨hsame, hne⟩ := hwhere hget
  exact ⟨hfit, hsame, hsame ▸ hne⟩

/-- A NUL cuts what is written, so another key can have put a table there. -/
theorem ReadsBack.noNul {key : Bytes} (h : ReadsBack key) : NUL ∉ key := by
  intro hn
  obtain ⟨hfit, hsame, hne⟩ := h.getSegments_eq
  have hfree : ∀ t ∈ strtok dot key ++ [lit "x"], t ≠ [] ∧ NUL ∉ t ∧ dot ∉ t := by
    intro t ht
    rcases List.mem_append.mp ht with ht | ht
    · exact mem_strtok ht
    · rw [List.mem_singleton.mp ht]
      decide
  -- The tokens of the key and one more: written below the key, but not a longer key.
  obtain ⟨below, hbelow⟩ : ∃ below : Bytes, below.splitOn dot = strtok dot key ++ [lit "x"] :=
    ⟨_, List.splitOn_intercalate dot (fun t ht => (hfree t ht).2.2) (by simp)⟩
  have hdotted : Dotted below := fun t ht => (hfree t (hbelow ▸ ht)).1
  have hnul : NUL ∉ below := by
    intro hb
    obtain ⟨t, ht, htn⟩ := exists_mem_splitOn (show NUL ≠ dot by decide) hb
    exact (hfree t (hbelow ▸ ht)).2.1 htn
  have hnot : ¬Above key below := by
    rintro ⟨hpre, -⟩
    obtain ⟨t, ht, htn⟩ := exists_mem_splitOn (show NUL ≠ dot by decide) hn
    exact (hfree t (hbelow ▸ hpre.subset ht)).2.1 htn
  have hsegments : segments below = segments key ++ [symtableKey (lit "x")] := by
    rw [segments, hdotted.strtok hnul, hbelow, List.map_append, segments]
    rfl
  obtain ⟨hp, properties, hload, hget⟩ := h [] [] [(below, some [])] (by simp [hdotted, hnot])
  obtain ⟨st, hload', l⟩ := entries_instance [] [(below, some []), (key, some [])]
  obtain ⟨rfl, rfl⟩ : st.heap = hp ∧ st.arr = properties := by
    simpa using hload'.symm.trans hload
  rw [hfit.configIniGet, hsame, getFind_eq _ hne l.focus.reads] at hget
  have hcontent :
    [(below, some []), (key, some [])].foldl (fun d e => apply d (entryCallback e)) [] =
      assign (segments key) [] (assign (segments key ++ [symtableKey (lit "x")]) [] []) := by
    simp [entryCallback, apply, hsegments]
  rw [List.foldl_map, hcontent] at hget
  obtain ⟨e, he⟩ : ∃ e, Nest.at? (segments key)
      (.node (assign (segments key ++ [symtableKey (lit "x")]) [] [])) = some (.node e) :=
    node_at?_assign_below
  obtain ⟨e', he'⟩ : ∃ e', Nest.at? (segments key) (.node (assign (segments key) []
      (assign (segments key ++ [symtableKey (lit "x")]) [] []))) = some (.node e') :=
    node_at?_assign he
  rw [he'] at hget
  cases hget

theorem IssetAgrees.single {key : Bytes} (hk : Dotted key) (hn : NUL ∉ key) (hd : dot ∉ key)
    (hkey : numericKey key = symtableKey key) (h : IssetAgrees key) :
    isNumericLong key = false := by
  obtain ⟨hp, properties, found, hload, hget, hisset⟩ := h [] [(key, some [])] (by simpa using hk)
  obtain ⟨st, hload', l⟩ := single_instance [] key []
  obtain ⟨rfl, rfl⟩ : st.heap = hp ∧ st.arr = properties := by
    simpa using hload'.symm.trans hload
  have hsegments : segments key = [symtableKey key] := by
    rw [segments, hk.strtok hn, List.splitOn_eq_singleton hd]
    rfl
  have hslot : ∀ k, (st.heap.slot? st.arr k).isSome = decide (symtableKey key = k) := by
    intro k
    rw [l.focus.slot?_isSome, hsegments]
    by_cases hkey : symtableKey key = k <;> simp [assign, Table.find?, Table.update, hkey]
  have hfound : found = st.heap.slot? st.arr (symtableKey key) := by
    rw [configIniGet, cstr_of_no_nul hn, if_neg hd, hkey] at hget
    exact (Option.some.inj hget).symm
  rw [configIniIsset, hfound, hslot, hslot, decide_eq_decide, ← hkey] at hisset
  exact numericKey_eq_name_iff.mp (hisset.mpr rfl)

/-- What is written under a dotted key is read back through it exactly if the key is plain. -/
theorem key_readable_iff {key : Bytes} (hk : Dotted key) : KeyReadable key ↔ PlainKey key := by
  constructor
  · intro h
    have hn := h.readsBack.noNul
    refine ⟨hn, h.readsBack.getSegments_eq.1,
      fun seg hseg => numericKey_eq_iff.mp (h.keys seg hseg), fun hd => ?_⟩
    apply (h.isset hd).single hk hn hd
    exact h.keys key (by rw [List.splitOn_eq_singleton hd]; exact List.mem_singleton_self key)
  · intro hp
    exact ⟨hp.readsBack hk, hp.issetAgrees, fun seg hseg =>
      numericKey_eq_iff.mpr (hp.canonical seg hseg)⟩

theorem key_readable_iff_sample : KeyReadable (lit "db.5") :=
  (key_readable_iff (by decide)).mpr
    ⟨by decide, by decide, by decide, by decide⟩

/-- An integer with a leading zero is written as a string and looked up as an integer. -/
theorem padded_key_lost : Dotted (lit "05") ∧ ¬KeyReadable (lit "05") := by
  refine ⟨by decide, fun h => ?_⟩
  have hsame := h.readsBack.getSegments_eq.2.1
  revert hsame
  decide

end Yaf
