import Yaf.Base.Table

namespace Base

/-- A finite nested table: the value a shared structure is read back as. -/
inductive Nest (κ σ : Type) where
  | leaf (s : σ)
  | node (entries : List (κ × Nest κ σ))

namespace Nest

variable {κ σ : Type}

mutual

def height : Nest κ σ → Nat
  | leaf _ => 0
  | node es => heightTable es + 1

def heightTable : List (κ × Nest κ σ) → Nat
  | [] => 0
  | (_, t) :: es => max (height t) (heightTable es)

end

theorem height_le_table {es : List (κ × Nest κ σ)} {k : κ} {t : Nest κ σ} (h : (k, t) ∈ es) :
    height t ≤ heightTable es := by
  induction es with
  | nil => simp at h
  | cons e es ih =>
    obtain ⟨j, u⟩ := e
    rw [heightTable]
    rcases List.mem_cons.mp h with he | hm
    · simp only [Prod.mk.injEq] at he
      rw [he.2]
      exact Nat.le_max_left _ _
    · exact Nat.le_trans (ih hm) (Nat.le_max_right _ _)

/-- Some entry is as high as the whole table. -/
theorem exists_highest {es : List (κ × Nest κ σ)} (h : 0 < heightTable es) :
    ∃ k t, (k, t) ∈ es ∧ height t = heightTable es := by
  induction es with
  | nil => simp [heightTable] at h
  | cons e es ih =>
    obtain ⟨j, u⟩ := e
    rw [heightTable] at h ⊢
    by_cases hle : heightTable es ≤ height u
    · exact ⟨j, u, by simp, (Nat.max_eq_left hle).symm⟩
    · have hlt : height u < heightTable es := by omega
      obtain ⟨k, t, hm, he⟩ := ih (by omega)
      exact ⟨k, t, List.mem_cons_of_mem _ hm, by rw [he]; omega⟩

theorem sizeOf_lt_node {es : List (κ × Nest κ σ)} {k : κ} {t : Nest κ σ} (h : (k, t) ∈ es) :
    sizeOf t < sizeOf (node es) := by
  have he : sizeOf (k, t) < sizeOf es := List.sizeOf_lt_of_mem h
  simp only [Prod.mk.sizeOf_spec, node.sizeOf_spec] at he ⊢
  omega

variable [DecidableEq κ]

/-- What stands at the end of a path. -/
def at? : List κ → Nest κ σ → Option (Nest κ σ)
  | [], u => some u
  | _ :: _, leaf _ => none
  | k :: ks, node es => (Table.find? es k).bind (at? ks)

@[simp] theorem at?_nil (u : Nest κ σ) : at? [] u = some u := by cases u <;> rfl

@[simp] theorem at?_leaf (k : κ) (ks : List κ) (s : σ) : at? (k :: ks) (leaf s) = none := rfl

@[simp] theorem at?_node (k : κ) (ks : List κ) (es : List (κ × Nest κ σ)) :
    at? (k :: ks) (node es) = (Table.find? es k).bind (at? ks) := rfl

theorem at?_single (k : κ) (es : List (κ × Nest κ σ)) : at? [k] (node es) = Table.find? es k := by
  rw [at?_node]
  cases Table.find? es k with
  | none => rfl
  | some u => exact at?_nil u

theorem at?_append (ks js : List κ) (u : Nest κ σ) :
    at? (ks ++ js) u = (at? ks u).bind (at? js) := by
  induction ks generalizing u with
  | nil => simp
  | cons k ks ih =>
    cases u with
    | leaf s => rfl
    | node es =>
      rw [List.cons_append, at?_node, at?_node]
      cases Table.find? es k with
      | none => rfl
      | some t => exact ih t

mutual

/-- Write one tree over another: tables are merged, anything else is replaced. -/
def overlay : Option (Nest κ σ) → Nest κ σ → Nest κ σ
  | some (node ds), node es => node (mergeTable ds es)
  | _, leaf s => leaf s
  | _, node es => node es

/-- Merge from the left; a key met again keeps its place. -/
def mergeTable (ds : List (κ × Nest κ σ)) : List (κ × Nest κ σ) → List (κ × Nest κ σ)
  | [] => ds
  | (k, t) :: es => mergeTable (Table.update ds k (overlay (Table.find? ds k) t)) es

end

section

attribute [local simp] overlay

@[simp] theorem overlay_none (t : Nest κ σ) : overlay none t = t := by
  cases t <;> simp

@[simp] theorem overlay_leaf (o : Option (Nest κ σ)) (s : σ) : overlay o (leaf s) = leaf s := by
  cases o with
  | none => simp
  | some t => cases t <;> simp

@[simp] theorem overlay_leaf_left (s : σ) (t : Nest κ σ) : overlay (some (leaf s)) t = t := by
  cases t <;> simp

@[simp] theorem overlay_node (ds es : List (κ × Nest κ σ)) :
    overlay (some (node ds)) (node es) = node (mergeTable ds es) := by simp

end

theorem mergeTable_cons (ds : List (κ × Nest κ σ)) (k : κ) (t : Nest κ σ)
    (es : List (κ × Nest κ σ)) :
    mergeTable ds ((k, t) :: es) =
      mergeTable (Table.update ds k (overlay (Table.find? ds k) t)) es := by rw [mergeTable]

theorem mergeTable_append {ds es : List (κ × Nest κ σ)} (hn : (Table.keys es).Nodup)
    (hd : ∀ k ∈ Table.keys es, k ∉ Table.keys ds) : mergeTable ds es = ds ++ es := by
  induction es generalizing ds with
  | nil => simp [mergeTable]
  | cons e es ih =>
    obtain ⟨k, t⟩ := e
    obtain ⟨hk, hn'⟩ := List.nodup_cons.mp hn
    have hkd : k ∉ Table.keys ds := hd k List.mem_cons_self
    rw [mergeTable_cons, Table.find?_eq_none.mpr hkd, overlay_none, Table.update_of_not_mem _ hkd,
      ih hn', List.append_assoc, List.singleton_append]
    intro j hj hin
    simp only [Table.keys, List.map_append, List.mem_append, List.map_cons, List.map_nil,
      List.mem_singleton] at hin
    rcases hin with hin | rfl
    · exact hd j (List.mem_cons_of_mem _ hj) hin
    · exact hk hj

/-- Merging into the empty table copies. -/
theorem mergeTable_nil_left {es : List (κ × Nest κ σ)} (hn : (Table.keys es).Nodup) :
    mergeTable [] es = es := mergeTable_append hn (by simp)

section
variable {ds es ms : List (κ × Nest κ σ)} {k : κ} {t : Nest κ σ}

theorem keys_mergeTable (ds : List (κ × Nest κ σ)) (hn : (Table.keys es).Nodup) :
    Table.keys (mergeTable ds es) =
      Table.keys ds ++ (Table.keys es).filter fun j => j ∉ Table.keys ds := by
  induction es generalizing ds with
  | nil => simp [mergeTable]
  | cons e es ih =>
    obtain ⟨j, u⟩ := e
    obtain ⟨hj, hn'⟩ := List.nodup_cons.mp hn
    rw [mergeTable_cons, ih _ hn', Table.keys_update, Table.keys_cons]
    by_cases hd : j ∈ Table.keys ds
    · rw [if_pos hd, List.filter_cons_of_neg (by simpa using hd)]
    · rw [if_neg hd, List.filter_cons_of_pos (by simpa using hd), List.append_assoc,
        List.singleton_append]
      -- the appended key does not come again
      have hsame : ∀ i ∈ Table.keys es,
          decide (i ∉ Table.keys ds ++ [j]) = decide (i ∉ Table.keys ds) := by
        intro i hi
        have hne : i ≠ j := fun he => hj (he ▸ hi)
        simp [hne]
      rw [List.filter_congr hsame]

theorem find?_mergeTable_of_not_mem (hk : k ∉ Table.keys es) :
    Table.find? (mergeTable ds es) k = Table.find? ds k := by
  induction es generalizing ds with
  | nil => simp [mergeTable]
  | cons e es ih =>
    obtain ⟨j, u⟩ := e
    rw [Table.keys_cons, List.mem_cons, not_or] at hk
    rw [mergeTable_cons, ih hk.2, Table.find?_update_other _ _ hk.1]

theorem find?_mergeTable_of_mem (hn : (Table.keys es).Nodup) (hm : (k, t) ∈ es) :
    Table.find? (mergeTable ds es) k = some (overlay (Table.find? ds k) t) := by
  induction es generalizing ds with
  | nil => cases hm
  | cons e es ih =>
    obtain ⟨j, u⟩ := e
    obtain ⟨hj, hn'⟩ := List.nodup_cons.mp hn
    rw [mergeTable_cons]
    rcases List.mem_cons.mp hm with he | hm
    · obtain ⟨rfl, rfl⟩ := Prod.mk.inj he
      rw [find?_mergeTable_of_not_mem hj, Table.find?_update_self]
    · have hne : k ≠ j := fun he => hj (he ▸ List.mem_map.mpr ⟨(k, t), hm, rfl⟩)
      rw [ih hn' hm, Table.find?_update_other _ _ hne]

/-- Entries that are under their keys already change nothing. -/
theorem mergeTable_absorb
    (h : ∀ k t, (k, t) ∈ es → ∃ u, Table.find? ms k = some u ∧ overlay (some u) t = u) :
    mergeTable ms es = ms := by
  induction es with
  | nil => rw [mergeTable]
  | cons e es ih =>
    obtain ⟨j, t⟩ := e
    obtain ⟨u, hu, ht⟩ := h j t List.mem_cons_self
    rw [mergeTable_cons, hu, ht, Table.update_find? hu]
    exact ih fun k t hm => h k t (List.mem_cons_of_mem _ hm)

/-- No table in the tree has a key twice. -/
inductive Keyed : Nest κ σ → Prop where
  | leaf (s : σ) : Keyed (leaf s)
  | node {es : List (κ × Nest κ σ)} (hn : (Table.keys es).Nodup)
      (hm : ∀ k t, (k, t) ∈ es → Keyed t) : Keyed (node es)

/-- What was written over another tree changes nothing when it is written again. -/
theorem Keyed.overlay_overlay (h : Keyed t) (o : Option (Nest κ σ)) :
    overlay (some (overlay o t)) t = overlay o t := by
  induction h generalizing o with
  | leaf s => simp
  | @node es hn _ ih =>
    have hself : mergeTable es es = es := by
      refine mergeTable_absorb fun k t hm => ⟨t, Table.find?_of_mem hn hm, ?_⟩
      simpa using ih k t hm none
    have hover : ∀ ds, mergeTable (mergeTable ds es) es = mergeTable ds es := by
      intro ds
      refine mergeTable_absorb fun k t hm => ?_
      exact ⟨_, find?_mergeTable_of_mem hn hm, ih k t hm (Table.find? ds k)⟩
    cases o with
    | none => simp [hself]
    | some u =>
      cases u with
      | leaf s => simp [hself]
      | node ds => simp [hover ds]

/-- Merging the same table in again changes nothing. -/
theorem mergeTable_again (ds : List (κ × Nest κ σ)) (h : Keyed (node es)) :
    mergeTable (mergeTable ds es) es = mergeTable ds es := by
  have ho := h.overlay_overlay (some (node ds))
  rw [overlay_node, overlay_node] at ho
  exact node.inj ho

/-- Tables are merged key by key and the right side wins; the keys of the left side keep their
places, and new ones follow in the order of the right side. -/
structure RightBiased
    (merge : List (κ × Nest κ σ) → List (κ × Nest κ σ) → List (κ × Nest κ σ)) : Prop where
  both : ∀ ds es k d e, (Table.keys es).Nodup → Table.find? ds k = some (node d) →
    Table.find? es k = some (node e) → Table.find? (merge ds es) k = some (node (merge d e))
  right : ∀ ds es k t, (Table.keys es).Nodup → Table.find? es k = some t →
    ((∃ s, t = leaf s) ∨ ∀ d, Table.find? ds k ≠ some (node d)) →
    Table.find? (merge ds es) k = some t
  left : ∀ ds es k, Table.find? es k = none → Table.find? (merge ds es) k = Table.find? ds k
  keys : ∀ ds es, (Table.keys es).Nodup → Table.keys (merge ds es) =
    Table.keys ds ++ (Table.keys es).filter fun k => k ∉ Table.keys ds

theorem rightBiased_mergeTable : RightBiased (mergeTable (κ := κ) (σ := σ)) where
  both ds es k d e hn hd he := by
    rw [find?_mergeTable_of_mem hn (Table.mem_of_find? he), hd, overlay_node]
  right ds es k t hn ht hno := by
    rw [find?_mergeTable_of_mem hn (Table.mem_of_find? ht)]
    rcases hno with ⟨s, rfl⟩ | hno
    · rw [overlay_leaf]
    · cases hd : Table.find? ds k with
      | none => rw [overlay_none]
      | some u =>
        cases u with
        | leaf s => rw [overlay_leaf_left]
        | node d => exact absurd hd (hno d)
  left ds es k he := find?_mergeTable_of_not_mem (Table.find?_eq_none.mp he)
  keys ds es hn := keys_mergeTable ds hn

end

end Nest

end Base
