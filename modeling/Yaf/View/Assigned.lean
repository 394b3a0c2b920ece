import Yaf.Base.LastWord
import Yaf.View.Symtable

namespace Yaf
open Base

/-- `yaf_view_simple_assign_single`. The name stays a string key. `assignRef` writes the same way.
-/
def viewSimpleAssignSingle (tplVars : Table Key Zval) (name : Bytes) (value : Zval) :
    Table Key Zval :=
  Table.update tplVars (.name name) value

/-- `yaf_view_simple_assign_multi`: `zend_hash_copy` takes every key, and only an array is taken. -/
def viewSimpleAssignMulti (tplVars : Table Key Zval) (value : Zval) : Table Key Zval :=
  match value with
  | .array t => Table.merge tplVars t
  | _ => tplVars

/-- `yaf_view_simple_clear_assign`. A decimal name deletes an integer key. -/
def viewSimpleClearAssign (tplVars : Table Key Zval) (name : Option Bytes) : Table Key Zval :=
  match name with
  | some name => Table.erase tplVars (symtableKey name)
  | none => []

/-- What a controller calls on its view before it renders. -/
inductive ViewCall where
  | assignSingle (name : Bytes) (value : Zval)
  | assignMulti (value : Zval)
  | clear (name : Option Bytes)

def ViewCall.apply (tplVars : Table Key Zval) : ViewCall → Table Key Zval
  | assignSingle name value => viewSimpleAssignSingle tplVars name value
  | assignMulti value => viewSimpleAssignMulti tplVars value
  | clear name => viewSimpleClearAssign tplVars name

/-- The assigned variables after some calls on a new view. -/
def assignedVars (calls : List ViewCall) : Table Key Zval := calls.foldl ViewCall.apply []

/-- The entry is looked into only under a string key, and the entries with integer keys are not
there for the others. -/
def SkipsIndices (scope : Option Bytes) (tplVars vars : Table Key Zval) : Prop :=
  ∃ symbols, viewBuildSymtable scope (some (.array tplVars)) (some (.array vars)) = some symbols ∧
    viewBuildSymtable scope (some (.array (tplVars.filter fun p => p.1.isName)))
      (some (.array (vars.filter fun p => p.1.isName))) = some symbols

/-- A call that brings the integer key in. -/
def ViewCall.Brings (i : Int) (call : ViewCall) : Prop :=
  ∃ t, call = .assignMulti (.array t) ∧ .index i ∈ Table.keys t

/-- A call that takes the integer key out. -/
def ViewCall.Clears (i : Int) (call : ViewCall) : Prop :=
  call = .clear none ∨ ∃ name, call = .clear (some name) ∧ symtableKey name = .index i

/-- The last word on an integer key is that of a call that brings it in. -/
def LeavesIndex (calls : List ViewCall) (i : Int) : Prop :=
  ∃ before call after, calls = before ++ call :: after ∧ call.Brings i ∧
    ∀ later ∈ after, ¬later.Clears i

/-- What one call does to the keys keeps them apart. -/
theorem ViewCall.nodup_apply {t : Table Key Zval} (h : (Table.keys t).Nodup) (call : ViewCall) :
    (Table.keys (call.apply t)).Nodup := by
  cases call with
  | assignSingle name value => exact Table.nodup_update h _ _
  | assignMulti value =>
    cases value with
    | array u => exact Table.nodup_merge h u
    | _ => exact h
  | clear name =>
    cases name with
    | none => exact List.nodup_nil
    | some name => exact Table.nodup_erase h _

theorem assignedVars_concat (calls : List ViewCall) (call : ViewCall) :
    assignedVars (calls ++ [call]) = call.apply (assignedVars calls) := by
  simp [assignedVars]

theorem nodup_assignedVars (calls : List ViewCall) : (Table.keys (assignedVars calls)).Nodup := by
  induction calls using List.reverseRecOn with
  | nil => exact List.nodup_nil
  | append_singleton calls call ih =>
    rw [assignedVars_concat]
    exact call.nodup_apply ih

/-- An integer key is there after a call that brings it in, or when it was there and is not taken
out. -/
theorem ViewCall.index_mem_apply {t : Table Key Zval} (h : (Table.keys t).Nodup) (i : Int)
    (call : ViewCall) :
    .index i ∈ Table.keys (call.apply t) ↔
      call.Brings i ∨ (.index i ∈ Table.keys t ∧ ¬call.Clears i) := by
  unfold Brings Clears
  cases call with
  | assignSingle name value =>
    simp only [apply, viewSimpleAssignSingle, Table.keys_update]
    split <;> simp
  | assignMulti value =>
    cases value with
    | array u =>
      simp only [apply, viewSimpleAssignMulti, Table.mem_keys_merge]
      simp [or_comm]
    | _ => simp [apply, viewSimpleAssignMulti]
  | clear name =>
    cases name with
    | none => simp [apply, viewSimpleClearAssign]
    | some name =>
      simp only [apply, viewSimpleClearAssign, Table.keys_erase, h.mem_erase_iff]
      simp [and_comm, eq_comm]

/-- The integer keys of the assigned variables, in every run. -/
theorem index_mem_assignedVars (calls : List ViewCall) (i : Int) :
    .index i ∈ Table.keys (assignedVars calls) ↔ LeavesIndex calls i := by
  change _ ↔ LastWord (ViewCall.Brings i) (ViewCall.Clears i) calls
  induction calls using List.reverseRecOn with
  | nil => exact iff_of_false (by simp [assignedVars]) not_lastWord_nil
  | append_singleton calls call ih =>
    rw [assignedVars_concat, call.index_mem_apply (nodup_assignedVars calls), ih, lastWord_concat]

theorem all_names_iff {t : Table Key Zval} :
    (∀ p ∈ t, p.1.isName = true) ↔ ∀ i, .index i ∉ Table.keys t := by
  constructor
  · intro h i hi
    obtain ⟨p, hp, he⟩ := List.mem_map.mp hi
    have hname := h p hp
    rw [he] at hname
    cases hname
  · intro h p hp
    obtain ⟨k, v⟩ := p
    cases k with
    | name name => rfl
    | index i => exact absurd (List.mem_map_of_mem hp) (h i)

/-- An integer key in either table is read through. -/
theorem viewBuildSymtable_index (scope : Option Bytes) {t u : Table Key Zval} {i : Int}
    (h : .index i ∈ Table.keys t ∨ .index i ∈ Table.keys u) :
    viewBuildSymtable scope (some (.array t)) (some (.array u)) = none := by
  rw [viewBuildSymtable, arrayEntries, arrayEntries]
  rcases h with ht | hu
  · obtain ⟨⟨k, v⟩, hp, rfl⟩ := List.mem_map.mp ht
    rw [addSymbols_index scope hp]
    rfl
  · obtain ⟨⟨k, v⟩, hp, rfl⟩ := List.mem_map.mp hu
    cases addSymbols scope t [] with
    | none => rfl
    | some symbols => exact addSymbols_index scope hp symbols

/-- One build, from any two tables. -/
theorem skipsIndices_iff (scope : Option Bytes) (t u : Table Key Zval) :
    SkipsIndices scope t u ↔
      (∀ i, .index i ∉ Table.keys t) ∧ ∀ i, .index i ∉ Table.keys u := by
  constructor
  · intro hskips
    obtain ⟨symbols, hbuild, -⟩ := hskips
    constructor
    · intro i hi
      rw [viewBuildSymtable_index scope (Or.inl hi)] at hbuild
      cases hbuild
    · intro i hi
      rw [viewBuildSymtable_index scope (Or.inr hi)] at hbuild
      cases hbuild
  · intro h
    have ht := all_names_iff.mpr h.1
    have hu := all_names_iff.mpr h.2
    refine ⟨_, viewBuildSymtable_of_names scope ht hu, ?_⟩
    rw [List.filter_eq_self.mpr ht, List.filter_eq_self.mpr hu]
    exact viewBuildSymtable_of_names scope ht hu

/-- After any calls on the view the table is built over the string keys alone exactly when no
integer key is left over from an assigned array, and none is in the array for rendering. -/
theorem symtable_skips_indices_iff (scope : Option Bytes) (calls : List ViewCall)
    (vars : Table Key Zval) :
    SkipsIndices scope (assignedVars calls) vars ↔
      (∀ i, ¬LeavesIndex calls i) ∧ ∀ i, .index i ∉ Table.keys vars := by
  rw [skipsIndices_iff]
  simp only [index_mem_assignedVars]

/-- `assign(['a'])`. -/
theorem list_assigned :
    ¬SkipsIndices none (assignedVars [.assignMulti (.array [(.index 0, .string (lit "a"))])])
      [] := by
  intro hskips
  obtain ⟨symbols, hbuild, -⟩ := hskips
  have hindex : Key.index 0 ∈
      Table.keys (assignedVars [.assignMulti (.array [(.index 0, .string (lit "a"))])]) := by
    rw [index_mem_assignedVars]
    exact ⟨[], _, [], rfl, ⟨_, rfl, by simp⟩, by simp⟩
  rw [viewBuildSymtable_index none (Or.inl hindex)] at hbuild
  cases hbuild

end Yaf
