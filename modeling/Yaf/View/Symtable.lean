import Yaf.Php.Value

namespace Yaf
open Base

/-- Neither an underscore nor a letter nor a character from `0x7f` on. -/
def rejectsFirst (c : UInt8) : Bool :=
  c != underscore && (c < 65 || 90 < c) && (c < 97 || 122 < c) && c < 127

/-- Digits are allowed behind the first character. -/
def rejectsRest (c : UInt8) : Bool :=
  c != underscore && (c < 48 || 57 < c) && (c < 65 || 90 < c) && (c < 97 || 122 < c) && c < 127

/-- `yaf_view_simple_valid_var_name`. Of an empty name the terminator is tested, and the loop over
the rest goes as far as `int len` reaches. -/
def viewSimpleValidVarName (varName : Bytes) : Bool :=
  !rejectsFirst (varName.head?.getD NUL) &&
    !(varName.tail.take ((intLength varName).getD 0 - 1)).any rejectsRest

/-- A scope is a class scope when its name is not empty. -/
def inClassScope (scope : Option Bytes) : Bool := scope.any (!·.isEmpty)

/-- `zend_hash_add_new`: no entry with the key is looked for. -/
def hashAddNew (symbolTable : Table Bytes Zval) (varName : Bytes) (entry : Zval) :
    Table Bytes Zval :=
  symbolTable ++ [(varName, entry)]

/-- One turn of the loops of `yaf_view_build_symtable`. An integer key has no name, and the first
comparison reads through it. -/
def addSymbol (scope : Option Bytes) (symbolTable : Table Bytes Zval) (p : Key × Zval) :
    Option (Table Bytes Zval) := do
  let varName ← p.1.name?
  if varName = lit "GLOBALS" then some symbolTable
  else if varName = lit "this" ∧ inClassScope scope = true then some symbolTable
  else if viewSimpleValidVarName varName then some (hashAddNew symbolTable varName p.2)
  else some symbolTable

def addSymbols (scope : Option Bytes) (entries : Table Key Zval) (symbolTable : Table Bytes Zval) :
    Option (Table Bytes Zval) :=
  entries.foldlM (addSymbol scope) symbolTable

/-- The entries of an array, none of anything else. -/
def arrayEntries : Option Zval → Table Key Zval
  | some (.array t) => t
  | _ => []

/-- `yaf_view_build_symtable`. -/
def viewBuildSymtable (scope : Option Bytes) (tplVars vars : Option Zval) :
    Option (Table Bytes Zval) := do
  let symbolTable ← addSymbols scope (arrayEntries tplVars) []
  addSymbols scope (arrayEntries vars) symbolTable

def IsNameStart (c : UInt8) : Prop :=
  (65 ≤ c ∧ c ≤ 90) ∨ (97 ≤ c ∧ c ≤ 122) ∨ c = underscore ∨ 127 ≤ c

/-- A name of a variable as the language has it. -/
def IsVariableName (s : Bytes) : Prop :=
  ∃ c rest, s = c :: rest ∧ IsNameStart c ∧
    ∀ d ∈ rest, IsNameStart d ∨ (48 ≤ d ∧ d ≤ 57)

/-- A name a template may see. -/
structure TemplateName (scope : Option Bytes) (name : Bytes) : Prop where
  valid : IsVariableName name
  not_globals : name ≠ lit "GLOBALS"
  not_this : ¬(name = lit "this" ∧ inClassScope scope = true)

/-- The first character of a name and what an `int` counts of the others. -/
def counted (name : Bytes) : Bytes := name.take (max 1 ((intLength name).getD 0))

/-- A name that is tested as far as it is counted. -/
structure SymbolName (scope : Option Bytes) (name : Bytes) : Prop where
  valid : IsVariableName (counted name)
  not_globals : name ≠ lit "GLOBALS"
  not_this : ¬(name = lit "this" ∧ inClassScope scope = true)

theorem rejectsFirst_eq_false (c : UInt8) : rejectsFirst c = false ↔ IsNameStart c := by
  unfold rejectsFirst IsNameStart
  grind

theorem rejectsRest_eq_false (c : UInt8) :
    rejectsRest c = false ↔ IsNameStart c ∨ (48 ≤ c ∧ c ≤ 57) := by
  unfold rejectsRest IsNameStart
  grind

theorem isVariableName_cons {c : UInt8} {s : Bytes} :
    IsVariableName (c :: s) ↔ IsNameStart c ∧ ∀ d ∈ s, IsNameStart d ∨ (48 ≤ d ∧ d ≤ 57) := by
  constructor
  · rintro ⟨_, _, h, hstart, hrest⟩
    cases h
    exact ⟨hstart, hrest⟩
  · exact fun h => ⟨c, s, rfl, h.1, h.2⟩

theorem viewSimpleValidVarName_iff (s : Bytes) :
    viewSimpleValidVarName s = true ↔ IsVariableName (counted s) := by
  unfold viewSimpleValidVarName
  cases s with
  | nil =>
    have hnul : rejectsFirst NUL = true := by decide
    simp [hnul, counted, IsVariableName]
  | cons c s =>
    have hrest : ∀ d, (rejectsRest d = false) = (IsNameStart d ∨ (48 ≤ d ∧ d ≤ 57)) :=
      fun d => propext (rejectsRest_eq_false d)
    have hcounted : counted (c :: s) = c :: s.take ((intLength (c :: s)).getD 0 - 1) := by
      obtain ⟨n, hn⟩ : ∃ n, max 1 ((intLength (c :: s)).getD 0) = n + 1 :=
        ⟨_, (Nat.sub_add_cancel (Nat.le_max_left ..)).symm⟩
      have hpred : (intLength (c :: s)).getD 0 - 1 = n := by omega
      rw [counted, hn, hpred, List.take_succ_cons]
    rw [hcounted, isVariableName_cons]
    simp [rejectsFirst_eq_false, hrest]

/-- The first characters of a name are a name. -/
theorem IsVariableName.counted {s : Bytes} (h : IsVariableName s) : IsVariableName (counted s) := by
  obtain ⟨c, rest, rfl, hc, hrest⟩ := h
  obtain ⟨n, hn⟩ : ∃ n, max 1 ((intLength (c :: rest)).getD 0) = n + 1 :=
    ⟨_, (Nat.sub_add_cancel (Nat.le_max_left ..)).symm⟩
  rw [Yaf.counted, hn, List.take_succ_cons]
  exact ⟨c, _, rfl, hc, fun d hd => hrest d (List.mem_of_mem_take hd)⟩

theorem counted_of_short {s : Bytes} (h : s.length < 2 ^ 31) : counted s = s := by
  rw [counted, intLength_of_short h]
  exact List.take_of_length_le (Nat.le_max_right ..)

theorem TemplateName.symbolName {scope : Option Bytes} {name : Bytes}
    (h : TemplateName scope name) : SymbolName scope name :=
  ⟨h.valid.counted, h.not_globals, h.not_this⟩

instance (scope : Option Bytes) (name : Bytes) : Decidable (SymbolName scope name) :=
  decidable_of_iff (viewSimpleValidVarName name = true ∧ name ≠ lit "GLOBALS" ∧
      ¬(name = lit "this" ∧ inClassScope scope = true)) <| by
    rw [viewSimpleValidVarName_iff]
    constructor
    · intro h
      exact ⟨h.1, h.2.1, h.2.2⟩
    · intro h
      exact ⟨h.valid, h.not_globals, h.not_this⟩

/-- What a table of variables contributes. -/
def templateSymbols (scope : Option Bytes) (entries : Table Key Zval) : Table Bytes Zval :=
  entries.filterMap fun p =>
    (p.1.name?.filter fun name => decide (SymbolName scope name)).map fun name => (name, p.2)

theorem addSymbol_index (scope : Option Bytes) (symbolTable : Table Bytes Zval) (i : Int)
    (v : Zval) : addSymbol scope symbolTable (.index i, v) = none := rfl

theorem addSymbol_name (scope : Option Bytes) (symbolTable : Table Bytes Zval) (name : Bytes)
    (v : Zval) :
    addSymbol scope symbolTable (.name name, v) =
      some (if SymbolName scope name then symbolTable ++ [(name, v)] else symbolTable) := by
  unfold addSymbol hashAddNew
  simp only [Key.name?, Option.bind_eq_bind, Option.bind_some]
  by_cases hglobals : name = lit "GLOBALS"
  · rw [if_pos hglobals, if_neg fun h => h.not_globals hglobals]
  · rw [if_neg hglobals]
    by_cases hthis : name = lit "this" ∧ inClassScope scope = true
    · rw [if_pos hthis, if_neg fun h => h.not_this hthis]
    · rw [if_neg hthis]
      by_cases hvalid : viewSimpleValidVarName name = true
      · have hname : SymbolName scope name :=
          ⟨(viewSimpleValidVarName_iff name).mp hvalid, hglobals, hthis⟩
        rw [if_pos hvalid, if_pos hname]
      · rw [if_neg hvalid, if_neg]
        intro hname
        exact hvalid ((viewSimpleValidVarName_iff name).mpr hname.valid)

/-- Over string keys the loop appends what it accepts. -/
theorem addSymbols_of_names (scope : Option Bytes) {entries : Table Key Zval}
    (h : ∀ p ∈ entries, p.1.isName = true) (symbolTable : Table Bytes Zval) :
    addSymbols scope entries symbolTable = some (symbolTable ++ templateSymbols scope entries) := by
  induction entries generalizing symbolTable with
  | nil => simp [addSymbols, templateSymbols]
  | cons p entries ih =>
    obtain ⟨k, v⟩ := p
    have hrest : ∀ p ∈ entries, p.1.isName = true := fun p hp => h p (List.mem_cons_of_mem _ hp)
    cases k with
    | index i => cases h _ List.mem_cons_self
    | name name =>
      rw [addSymbols, List.foldlM_cons, addSymbol_name, Option.bind_eq_bind, Option.bind_some]
      refine (ih hrest _).trans ?_
      by_cases hname : SymbolName scope name <;>
        simp [templateSymbols, Key.name?, hname]

/-- An integer key stops it, wherever it stands. -/
theorem addSymbols_index (scope : Option Bytes) {entries : Table Key Zval} {i : Int} {v : Zval}
    (h : (.index i, v) ∈ entries) (symbolTable : Table Bytes Zval) :
    addSymbols scope entries symbolTable = none := by
  induction entries generalizing symbolTable with
  | nil => cases h
  | cons p entries ih =>
    rw [addSymbols, List.foldlM_cons]
    rcases List.mem_cons.mp h with rfl | hrest
    · rw [addSymbol_index]
      rfl
    · cases addSymbol scope symbolTable p with
      | none => rfl
      | some next => exact ih hrest next

theorem viewBuildSymtable_of_names (scope : Option Bytes) {t u : Table Key Zval}
    (ht : ∀ p ∈ t, p.1.isName = true) (hu : ∀ p ∈ u, p.1.isName = true) :
    viewBuildSymtable scope (some (.array t)) (some (.array u)) =
      some (templateSymbols scope t ++ templateSymbols scope u) := by
  rw [viewBuildSymtable, arrayEntries, arrayEntries, addSymbols_of_names scope ht,
    Option.bind_eq_bind, Option.bind_some, addSymbols_of_names scope hu, List.nil_append]

/-- A map of variables. -/
structure VarMap where
  entries : Table Bytes Zval
  nodup : (Table.keys entries).Nodup

def VarMap.toArray (m : VarMap) : Table Key Zval := m.entries.map fun p => (.name p.1, p.2)

theorem VarMap.toArray_names (m : VarMap) : ∀ p ∈ m.toArray, p.1.isName = true := by
  intro p hp
  obtain ⟨q, -, rfl⟩ := List.mem_map.mp hp
  rfl

/-- The entries the loops take. -/
def VarMap.visible (scope : Option Bytes) (m : VarMap) : Table Bytes Zval :=
  m.entries.filter fun p => decide (SymbolName scope p.1)

theorem VarMap.templateSymbols (scope : Option Bytes) (m : VarMap) :
    templateSymbols scope m.toArray = m.visible scope := by
  unfold Yaf.templateSymbols VarMap.toArray VarMap.visible
  rw [List.filterMap_map, ← List.filterMap_eq_filter]
  apply List.filterMap_congr
  intro p _
  by_cases hname : SymbolName scope p.1 <;>
    simp [Key.name?, hname, Option.guard]

theorem VarMap.mem_keys_visible {scope : Option Bytes} {m : VarMap} {name : Bytes} :
    name ∈ Table.keys (m.visible scope) ↔
      SymbolName scope name ∧ name ∈ Table.keys m.entries := by
  unfold Table.keys VarMap.visible
  simp only [List.mem_map, List.mem_filter, decide_eq_true_eq]
  constructor
  · intro h
    obtain ⟨p, ⟨hp, hname⟩, rfl⟩ := h
    exact ⟨hname, p, hp, rfl⟩
  · intro h
    obtain ⟨hname, p, hp, rfl⟩ := h
    exact ⟨p, ⟨hp, hname⟩, rfl⟩

theorem VarMap.nodup_visible (scope : Option Bytes) (m : VarMap) :
    (Table.keys (m.visible scope)).Nodup :=
  m.nodup.sublist (List.filter_sublist.map Prod.fst)

/-- The symbols are a map, over the names a template may see, that prefers what the template is
rendered with. -/
structure Overrides (scope : Option Bytes) (assigned vars : VarMap) (symbols : Table Bytes Zval) :
    Prop where
  nodup : (Table.keys symbols).Nodup
  names : ∀ name, name ∈ Table.keys symbols ↔ TemplateName scope name ∧
    (name ∈ Table.keys assigned.entries ∨ name ∈ Table.keys vars.entries)
  values : ∀ name v, (name, v) ∈ symbols →
    (Table.find? vars.entries name).or (Table.find? assigned.entries name) = some v

def SymtableOverrides (scope : Option Bytes) (assigned vars : VarMap) : Prop :=
  ∃ symbols, viewBuildSymtable scope (some (.array assigned.toArray)) (some (.array vars.toArray)) =
    some symbols ∧ Overrides scope assigned vars symbols

section
variable {scope : Option Bytes} {assigned vars : VarMap}

/-- The two loops give the visible entries of both maps, one after the other. -/
theorem viewBuildSymtable_maps :
    viewBuildSymtable scope (some (.array assigned.toArray)) (some (.array vars.toArray)) =
      some (assigned.visible scope ++ vars.visible scope) := by
  rw [viewBuildSymtable_of_names scope assigned.toArray_names vars.toArray_names,
    VarMap.templateSymbols, VarMap.templateSymbols]

theorem keys_append_nodup_iff :
    (Table.keys (assigned.visible scope ++ vars.visible scope)).Nodup ↔
      ∀ name, SymbolName scope name → name ∈ Table.keys assigned.entries →
        name ∉ Table.keys vars.entries := by
  rw [Table.keys, List.map_append, List.nodup_append]
  constructor
  · intro h name hname hassigned hvars
    exact h.2.2 name (VarMap.mem_keys_visible.mpr ⟨hname, hassigned⟩) name
      (VarMap.mem_keys_visible.mpr ⟨hname, hvars⟩) rfl
  · intro h
    refine ⟨assigned.nodup_visible scope, vars.nodup_visible scope, ?_⟩
    intro a ha b hb he
    subst he
    obtain ⟨hname, hassigned⟩ := VarMap.mem_keys_visible.mp ha
    exact h a hname hassigned (VarMap.mem_keys_visible.mp hb).2

theorem mem_keys_append {name : Bytes} :
    name ∈ Table.keys (assigned.visible scope ++ vars.visible scope) ↔
      SymbolName scope name ∧
        (name ∈ Table.keys assigned.entries ∨ name ∈ Table.keys vars.entries) := by
  rw [Table.keys, List.map_append, List.mem_append, and_or_left]
  exact or_congr VarMap.mem_keys_visible VarMap.mem_keys_visible

end

/-- No name is a variable name only as far as it is counted. -/
def CountedWhole (assigned vars : VarMap) : Prop :=
  ∀ name, name ∈ Table.keys assigned.entries ∨ name ∈ Table.keys vars.entries →
    IsVariableName (counted name) → IsVariableName name

/-- The symbol table is such a map exactly when no name a template may see is both assigned and
given for rendering, and none is a name only as far as it is counted. -/
theorem symtable_overrides_iff (scope : Option Bytes) (assigned vars : VarMap) :
    SymtableOverrides scope assigned vars ↔
      (∀ name, TemplateName scope name → name ∈ Table.keys assigned.entries →
        name ∉ Table.keys vars.entries) ∧ CountedWhole assigned vars := by
  unfold SymtableOverrides
  rw [viewBuildSymtable_maps]
  simp only [Option.some.injEq, exists_eq_left']
  constructor
  · intro h
    refine ⟨fun name hname => keys_append_nodup_iff.mp h.nodup name hname.symbolName, ?_⟩
    intro name hmem hcounted
    by_cases hnot : name = lit "GLOBALS" ∨ name = lit "this"
    · rcases hnot with rfl | rfl <;> rwa [counted_of_short (by decide)] at hcounted
    · obtain ⟨hglobals, hthis⟩ := not_or.mp hnot
      exact ((h.names name).mp (mem_keys_append.mpr
        ⟨⟨hcounted, hglobals, fun h => hthis h.1⟩, hmem⟩)).1.valid
  · rintro ⟨hdisjoint, hwhole⟩
    have hname : ∀ name, name ∈ Table.keys assigned.entries ∨ name ∈ Table.keys vars.entries →
        SymbolName scope name → TemplateName scope name := fun name hmem hname =>
      ⟨hwhole name hmem hname.valid, hname.not_globals, hname.not_this⟩
    refine ⟨keys_append_nodup_iff.mpr fun name hn hassigned =>
      hdisjoint name (hname name (Or.inl hassigned) hn) hassigned, fun name => ?_, ?_⟩
    · rw [mem_keys_append]
      exact ⟨fun h => ⟨hname name h.2 h.1, h.2⟩, fun h => ⟨h.1.symbolName, h.2⟩⟩
    · intro name v hmem
      rcases List.mem_append.mp hmem with h | h
      · obtain ⟨hin, hn⟩ := List.mem_filter.mp h
        have hfind := Table.find?_of_mem assigned.nodup hin
        have hassigned := Table.mem_keys_of_find? hfind
        have hnot := hdisjoint name (hname name (Or.inl hassigned) (by simpa using hn)) hassigned
        rw [Table.find?_eq_none.mpr hnot, hfind, Option.none_or]
      · obtain ⟨hin, -⟩ := List.mem_filter.mp h
        rw [Table.find?_of_mem vars.nodup hin, Option.some_or]

/-- One name in both maps is there twice. -/
theorem name_in_both_maps :
    ¬SymtableOverrides none ⟨[(lit "title", .string (lit "old"))], by simp⟩
      ⟨[(lit "title", .string (lit "new"))], by simp⟩ := by
  intro hoverrides
  obtain ⟨symbols, hbuild, h⟩ := hoverrides
  rw [viewBuildSymtable_maps] at hbuild
  have hname : SymbolName none (lit "title") := by decide
  have hnodup := h.nodup
  rw [← Option.some.inj hbuild, keys_append_nodup_iff] at hnodup
  exact hnodup (lit "title") hname (by simp) (by simp)

end Yaf
