import Yaf.Dispatcher.Handle

namespace Yaf
open Base

/-- A string key that equals a name when case is ignored. -/
def Key.equalsCi (p : Bytes) : Key → Bool
  | .index _ => false
  | .name key => Yaf.equalsCi key p

/-- The value of a parameter: what stands under its own name, or else under the first key that
differs from it in case only. -/
def boundValue (params : Table Key Zval) (p : Bytes) : Option Zval :=
  (Table.find? params (.name p)).or
    ((List.find? (fun q : Key × Zval => q.1.equalsCi p) params).map Prod.snd)

/-- The values of the longest run of names at the front that all have one. -/
def boundArguments (params : Table Key Zval) : List Bytes → List Zval
  | [] => []
  | p :: names =>
    match boundValue params p with
    | some value => value :: boundArguments params names
    | none => []

/-- The slot of a parameter behind others, when it was reached and set. -/
def slotValue (params : Table Key Zval) (before : List Bytes) (p : Bytes) (after : List Bytes) :
    Option Zval :=
  ((callParameters params (before ++ p :: after)).1[before.length]?).join

/-- As many slots are counted as names at the front have a value, each holds the value of its name,
and the action is called with these. -/
structure ArgumentsBound (params : Table Key Zval) (names : List Bytes) : Prop where
  count : (callParameters params names).2 = (boundArguments params names).length
  slots : ∀ i (hi : i < (boundArguments params names).length),
    (callParameters params names).1[i]? = some (some (boundArguments params names)[i])
  called : callArguments params names = some (boundArguments params names)

/-- The names that are keys stand in front of those that are not, and no key is the first of those
in another case. -/
def NamesInFront (params : Table Key Zval) (names : List Bytes) : Prop :=
  ∃ present absent, names = present ++ absent ∧
    (∀ p ∈ present, .name p ∈ Table.keys params) ∧
    (∀ p ∈ absent, .name p ∉ Table.keys params) ∧
    ∀ p ∈ absent.head?, ∀ key ∈ Table.keys params, key.equalsCi p = false

section
variable {params : Table Key Zval} {names : List Bytes} {p : Bytes}

/-- The second search finds nothing: a name keeps its slot and is counted when it is a key. -/
theorem callParameters_eq (h : params ≠ []) : callParameters params names =
    (names.map fun p => Table.find? params (.name p),
      (names.filterMap fun p => Table.find? params (.name p)).length) := by
  induction names with
  | nil => rfl
  | cons p names ih =>
    rw [callParameters]
    cases hp : Table.find? params (.name p) with
    | some value => simp [ih, hp]
    | none => simp [h, ih, hp]

theorem callParameters_nil : callParameters [] names = ([], 0) := by
  cases names <;> rfl

theorem boundValue_of_find? {value : Zval} (h : Table.find? params (.name p) = some value) :
    boundValue params p = some value := by
  rw [boundValue, h, Option.some_or]

theorem boundValue_eq_none : boundValue params p = none ↔
    Table.find? params (.name p) = none ∧ ∀ key ∈ Table.keys params, key.equalsCi p = false := by
  simp [boundValue, Table.keys, Option.or_eq_none_iff]

/-- A key in front: its slot is set, it is counted, and the rest is as without it. -/
theorem argumentsBound_cons_of_key {value : Zval} (h : Table.find? params (.name p) = some value) :
    ArgumentsBound params (p :: names) ↔ ArgumentsBound params names := by
  have hcall : callParameters params (p :: names) =
      (some value :: (callParameters params names).1, (callParameters params names).2 + 1) := by
    rw [callParameters, h]
  have hbound : boundArguments params (p :: names) = value :: boundArguments params names := by
    rw [boundArguments, boundValue_of_find? h]
  have hargs : callArguments params (p :: names) =
      (callArguments params names).map (value :: ·) := by
    simp only [callArguments, hcall, List.take_succ_cons, List.mapM_cons, Option.map_eq_bind]
    rfl
  constructor
  · rintro ⟨hcount, hslots, hcalled⟩
    rw [hcall, hbound, List.length_cons] at hcount
    rw [hargs, hbound] at hcalled
    refine ⟨Nat.succ.inj hcount, fun i hi => ?_, ?_⟩
    · have hslot := hslots (i + 1) (by rw [hbound, List.length_cons]; omega)
      simpa [hcall, hbound] using hslot
    · obtain ⟨args, hrest, hcons⟩ := Option.map_eq_some_iff.mp hcalled
      rw [hrest, (List.cons.inj hcons).2]
  · rintro ⟨hcount, hslots, hcalled⟩
    refine ⟨by rw [hcall, hbound, hcount, List.length_cons], fun i hi => ?_, ?_⟩
    · cases i with
      | zero => simp [hcall, hbound]
      | succ i =>
        rw [hbound, List.length_cons] at hi
        simpa [hcall, hbound] using hslots i (by omega)
    · rw [hargs, hbound, hcalled, Option.map_some]

/-- A name in front that is no key: it must have no value at all, and no key may follow. -/
theorem argumentsBound_cons_of_absent (h : Table.find? params (.name p) = none) :
    ArgumentsBound params (p :: names) ↔
      boundValue params p = none ∧ ∀ q ∈ names, Table.find? params (.name q) = none := by
  by_cases hne : params = []
  · subst hne
    have hbound : boundArguments [] (p :: names) = [] := rfl
    simp only [boundValue, Table.find?_nil, List.find?_nil, Option.map_none, Option.or_none,
      implies_true, and_self, iff_true]
    refine ⟨?_, ?_, ?_⟩
    · rw [callParameters_nil, hbound]
      rfl
    · rw [hbound]
      exact fun i hi => absurd hi (Nat.not_lt_zero i)
    · rw [callArguments, callParameters_nil, hbound]
      rfl
  · have hcall : callParameters params (p :: names) = _ := callParameters_eq hne
    rw [List.map_cons, List.filterMap_cons, h] at hcall
    constructor
    · rintro ⟨hcount, hslots, -⟩
      have hnone : boundValue params p = none := by
        by_contra hsome
        obtain ⟨value, hvalue⟩ := Option.ne_none_iff_exists'.mp hsome
        have hlen : 0 < (boundArguments params (p :: names)).length := by
          rw [boundArguments, hvalue, List.length_cons]
          exact Nat.succ_pos _
        have hslot := hslots 0 hlen
        rw [hcall] at hslot
        cases hslot
      refine ⟨hnone, ?_⟩
      rw [hcall, boundArguments, hnone, List.length_nil, List.length_eq_zero_iff,
        List.filterMap_eq_nil_iff] at hcount
      exact hcount
    · rintro ⟨hnone, hrest⟩
      have hcount : (callParameters params (p :: names)).2 = 0 := by
        rw [hcall, List.filterMap_eq_nil_iff.mpr hrest]
        rfl
      have hbound : boundArguments params (p :: names) = [] := by
        rw [boundArguments, hnone]
      refine ⟨by rw [hcount, hbound]; rfl, ?_, ?_⟩
      · rw [hbound]
        exact fun i hi => absurd hi (Nat.not_lt_zero i)
      · simp [callArguments, hcount, hbound]

theorem namesInFront_cons_of_key {value : Zval} (h : Table.find? params (.name p) = some value) :
    NamesInFront params (p :: names) ↔ NamesInFront params names := by
  have hkey : .name p ∈ Table.keys params := Table.mem_keys_of_find? h
  constructor
  · rintro ⟨present, absent, heq, hpresent, habsent, hfirst⟩
    cases present with
    | nil =>
      rw [List.nil_append] at heq
      exact absurd hkey (habsent p (heq ▸ List.mem_cons_self))
    | cons q present =>
      obtain ⟨rfl, rfl⟩ := List.cons.inj heq
      exact ⟨present, absent, rfl, fun q hq => hpresent q (List.mem_cons_of_mem _ hq), habsent,
        hfirst⟩
  · rintro ⟨present, absent, rfl, hpresent, habsent, hfirst⟩
    refine ⟨p :: present, absent, rfl, fun q hq => ?_, habsent, hfirst⟩
    rcases List.mem_cons.mp hq with rfl | hq
    · exact hkey
    · exact hpresent q hq

theorem namesInFront_cons_of_absent (h : Table.find? params (.name p) = none) :
    NamesInFront params (p :: names) ↔
      boundValue params p = none ∧ ∀ q ∈ names, Table.find? params (.name q) = none := by
  rw [boundValue_eq_none]
  constructor
  · rintro ⟨present, absent, heq, hpresent, habsent, hfirst⟩
    cases present with
    | nil =>
      rw [List.nil_append] at heq
      subst heq
      exact ⟨⟨h, hfirst p rfl⟩,
        fun q hq => Table.find?_eq_none.mpr (habsent q (List.mem_cons_of_mem _ hq))⟩
    | cons q present =>
      obtain ⟨rfl, -⟩ := List.cons.inj heq
      exact absurd (hpresent p List.mem_cons_self) (Table.find?_eq_none.mp h)
  · rintro ⟨⟨-, hcase⟩, hrest⟩
    refine ⟨[], p :: names, rfl, by simp, fun q hq => ?_, ?_⟩
    · rcases List.mem_cons.mp hq with rfl | hq
      · exact Table.find?_eq_none.mp h
      · exact Table.find?_eq_none.mp (hrest q hq)
    · rintro q hq
      cases hq
      exact hcase

end

/-- The arguments are bound to their slots exactly when the names that are keys stand in front. -/
theorem arguments_bound_iff (params : Table Key Zval) (names : List Bytes) :
    ArgumentsBound params names ↔ NamesInFront params names := by
  induction names with
  | nil =>
    constructor
    · exact fun _ => ⟨[], [], rfl, by simp, by simp, by simp⟩
    · exact fun _ => ⟨rfl, fun i hi => absurd hi (Nat.not_lt_zero i), rfl⟩
  | cons p names ih =>
    cases hp : Table.find? params (.name p) with
    | some value => rw [argumentsBound_cons_of_key hp, namesInFront_cons_of_key hp, ih]
    | none => rw [argumentsBound_cons_of_absent hp, namesInFront_cons_of_absent hp]

/-- A request with `b`, and an action that takes `a` and `b`: one slot is counted, the first, and it
is not set. -/
theorem gap_counted : ¬ArgumentsBound [(.name [98], .null)] [[97], [98]] := by
  rintro ⟨hcount, -, -⟩
  cases hcount

/-- A parameter gets its value ignoring case when it is a key itself, or when no key differs from it
in case only. -/
theorem slot_value_iff (params : Table Key Zval) (before : List Bytes) (p : Bytes)
    (after : List Bytes) :
    slotValue params before p after = boundValue params p ↔
      .name p ∈ Table.keys params ∨ ∀ key ∈ Table.keys params, key.equalsCi p = false := by
  have hslot : slotValue params before p after = Table.find? params (.name p) := by
    by_cases hne : params = []
    · subst hne
      rw [slotValue, callParameters_nil]
      rfl
    · rw [slotValue, callParameters_eq hne]
      simp
  rw [hslot]
  cases hp : Table.find? params (.name p) with
  | some value =>
    simp [boundValue_of_find? hp, Table.mem_keys_of_find? hp]
  | none =>
    have hnot := Table.find?_eq_none.mp hp
    simp only [hnot, false_or]
    constructor
    · intro h
      exact (boundValue_eq_none.mp h.symm).2
    · intro h
      exact (boundValue_eq_none.mpr ⟨hp, h⟩).symm

/-- A request with `A`, and an action that takes `a`. -/
theorem other_case_unbound :
    slotValue [(.name [65], .null)] [] [97] [] ≠ boundValue [(.name [65], .null)] [97] := by
  intro h
  cases h

end Yaf
