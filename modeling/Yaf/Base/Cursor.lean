import Mathlib.Data.List.Induction
import Mathlib.Data.List.Nodup
import Yaf.Base.Table

namespace Base

/-- A table with a place in it: as many entries as `position` lie before the place. -/
structure Cursor (κ ν : Type) where
  entries : Table κ ν
  position : Nat
  nodup : entries.keys.Nodup
  within : position ≤ entries.length

namespace Table

variable {κ ν : Type}

@[simp] theorem length_keys (t : Table κ ν) : t.keys.length = t.length := List.length_map _

@[simp] theorem keys_append (s t : Table κ ν) : keys (s ++ t) = s.keys ++ t.keys :=
  List.map_append

variable [DecidableEq κ]

/-- How many entries come before the key. -/
def rank (t : Table κ ν) (k : κ) : Nat := t.keys.idxOf k

theorem length_le_update (t : Table κ ν) (k : κ) (v : ν) : t.length ≤ (t.update k v).length := by
  have h := congrArg List.length (keys_update t k v)
  rw [length_keys] at h
  rw [h]
  split <;> simp

theorem length_erase_of_mem {t : Table κ ν} {k : κ} (h : k ∈ t.keys) :
    (t.erase k).length + 1 = t.length := by
  have he := congrArg List.length (keys_erase t k)
  have hp : 0 < t.keys.length := List.length_pos_of_mem h
  rw [length_keys, List.length_erase_of_mem h, length_keys] at he
  rw [length_keys] at hp
  omega

theorem erase_of_not_mem {t : Table κ ν} {k : κ} (h : k ∉ t.keys) : t.erase k = t :=
  erase_of_find?_none (find?_eq_none.mpr h)

theorem rank_lt {t : Table κ ν} {k : κ} (h : k ∈ t.keys) : t.rank k < t.length := by
  have := List.idxOf_lt_length_iff.mpr h
  simpa [rank] using this

theorem rank_of_not_mem {t : Table κ ν} {k : κ} (h : k ∉ t.keys) : t.rank k = t.length := by
  have := List.idxOf_of_notMem h
  simpa [rank] using this

/-- A table around one of its entries. -/
theorem rank_middle {s t : Table κ ν} {k : κ} {v : ν} (h : k ∉ s.keys) :
    Table.rank (s ++ (k, v) :: t) k = s.length := by
  rw [rank, keys_append, List.idxOf_append_of_notMem h]
  simp

theorem erase_middle {s t : Table κ ν} {k : κ} {v : ν} (h : k ∉ s.keys) :
    Table.erase (s ++ (k, v) :: t) k = s ++ t := by
  induction s with
  | nil => simp [erase]
  | cons p s ih =>
    obtain ⟨j, w⟩ := p
    rw [keys_cons, List.mem_cons, not_or] at h
    simp [erase, Ne.symm h.1, ih h.2]

theorem update_middle {s t : Table κ ν} {k : κ} {v : ν} (w : ν) (h : k ∉ s.keys) :
    Table.update (s ++ (k, v) :: t) k w = s ++ (k, w) :: t := by
  induction s with
  | nil => simp [update]
  | cons p s ih =>
    obtain ⟨j, u⟩ := p
    rw [keys_cons, List.mem_cons, not_or] at h
    simp [update, Ne.symm h.1, ih h.2]

end Table

namespace Cursor

variable {κ ν : Type}

/-- The entry at the place, none past the end. -/
def current? (c : Cursor κ ν) : Option (κ × ν) := c.entries[c.position]?

def rewind (c : Cursor κ ν) : Cursor κ ν where
  entries := c.entries
  position := 0
  nodup := c.nodup
  within := Nat.zero_le _

/-- The place moves behind the current entry, and stays where it is at the end. -/
def advance (c : Cursor κ ν) : Cursor κ ν where
  entries := c.entries
  position := min (c.position + 1) c.entries.length
  nodup := c.nodup
  within := Nat.min_le_right _ _

def empty : Cursor κ ν where
  entries := []
  position := 0
  nodup := List.nodup_nil
  within := Nat.le_refl 0

@[ext] theorem ext {c d : Cursor κ ν} (he : c.entries = d.entries) (hp : c.position = d.position) :
    c = d := by
  cases c
  cases d
  cases he
  cases hp
  rfl

@[simp] theorem entries_rewind (c : Cursor κ ν) : c.rewind.entries = c.entries := rfl
@[simp] theorem entries_advance (c : Cursor κ ν) : c.advance.entries = c.entries := rfl
@[simp] theorem position_rewind (c : Cursor κ ν) : c.rewind.position = 0 := rfl

/-- The cursor that has just passed `before` and stands before `after`. -/
def between (before after : Table κ ν) (nodup : Table.keys (before ++ after) |>.Nodup) :
    Cursor κ ν where
  entries := before ++ after
  position := before.length
  nodup := nodup
  within := by simp

variable [DecidableEq κ]

def find? (c : Cursor κ ν) (k : κ) : Option ν := c.entries.find? k

def update (c : Cursor κ ν) (k : κ) (v : ν) : Cursor κ ν where
  entries := c.entries.update k v
  position := c.position
  nodup := Table.nodup_update c.nodup k v
  within := Nat.le_trans c.within (Table.length_le_update c.entries k v)

/-- An entry taken out before the place moves the place with it. -/
def erase (c : Cursor κ ν) (k : κ) : Cursor κ ν where
  entries := c.entries.erase k
  position := if c.entries.rank k < c.position then c.position - 1 else c.position
  nodup := Table.nodup_erase c.nodup k
  within := by
    have hw := c.within
    by_cases hk : k ∈ c.entries.keys
    · have hl := Table.length_erase_of_mem hk
      have hr := Table.rank_lt hk
      split <;> omega
    · have hr := Table.rank_of_not_mem hk
      rw [Table.erase_of_not_mem hk, if_neg (by omega)]
      exact hw

@[simp] theorem position_update (c : Cursor κ ν) (k : κ) (v : ν) :
    (c.update k v).position = c.position := rfl
@[simp] theorem entries_update (c : Cursor κ ν) (k : κ) (v : ν) :
    (c.update k v).entries = c.entries.update k v := rfl
@[simp] theorem entries_erase (c : Cursor κ ν) (k : κ) :
    (c.erase k).entries = c.entries.erase k := rfl

omit [DecidableEq κ] in
theorem current?_between {before after : Table κ ν}
    {nodup : (Table.keys (before ++ after)).Nodup} :
    (between before after nodup).current? = after.head? := by
  unfold current? between
  rw [List.getElem?_append_right (Nat.le_refl _), Nat.sub_self, List.head?_eq_getElem?]

omit [DecidableEq κ] in
theorem advance_between {before after : Table κ ν} {p : κ × ν}
    (nodup : (Table.keys (before ++ p :: after)).Nodup)
    (nodup' : (Table.keys (before ++ [p] ++ after)).Nodup) :
    (between before (p :: after) nodup).advance = between (before ++ [p]) after nodup' := by
  apply ext
  · simp [between]
  · simp [between, advance]

omit [DecidableEq κ] in
theorem advance_between_nil {before : Table κ ν} (nodup : (Table.keys (before ++ [])).Nodup) :
    (between before [] nodup).advance = between before [] nodup := by
  apply ext
  · rfl
  · simp [between, advance]

/-- The current entry taken out: the next one is at the place. -/
theorem erase_between {before after : Table κ ν} {k : κ} {v : ν}
    (nodup : (Table.keys (before ++ (k, v) :: after)).Nodup)
    (nodup' : (Table.keys (before ++ after)).Nodup) :
    (between before ((k, v) :: after) nodup).erase k = between before after nodup' := by
  have hfresh : k ∉ before.keys := by
    intro hm
    rw [Table.keys_append, Table.keys_cons] at nodup
    exact (List.nodup_append.mp nodup).2.2 k hm k List.mem_cons_self rfl
  apply ext
  · exact Table.erase_middle hfresh
  · change (if Table.rank (before ++ (k, v) :: after) k < before.length then before.length - 1
      else before.length) = before.length
    rw [Table.rank_middle hfresh, if_neg (Nat.lt_irrefl _)]

end Cursor

/-- A sweep that takes entries out as it passes them. The entry behind one taken out is kept
without being looked at. The first table has what is looked at, the second what is kept. -/
def sweep {κ ν : Type} (drop : κ → ν → Bool) : Table κ ν → Table κ ν × Table κ ν
  | [] => ([], [])
  | (k, v) :: t =>
    if drop k v then
      match t with
      | [] => ([(k, v)], [])
      | p :: t => ((k, v) :: (sweep drop t).1, p :: (sweep drop t).2)
    else ((k, v) :: (sweep drop t).1, (k, v) :: (sweep drop t).2)

section sweep
variable {κ ν : Type} {drop : κ → ν → Bool} {k : κ} {v : ν}

theorem sweep_keep (t : Table κ ν) (h : drop k v = false) :
    sweep drop ((k, v) :: t) = ((k, v) :: (sweep drop t).1, (k, v) :: (sweep drop t).2) := by
  cases t <;> simp [sweep, h]

theorem sweep_drop_last (h : drop k v = true) : sweep drop [(k, v)] = ([(k, v)], []) := by
  simp [sweep, h]

theorem sweep_drop (p : κ × ν) (t : Table κ ν) (h : drop k v = true) :
    sweep drop ((k, v) :: p :: t) = ((k, v) :: (sweep drop t).1, p :: (sweep drop t).2) := by
  simp [sweep, h]

end sweep

end Base
