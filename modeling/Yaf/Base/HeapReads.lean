import Yaf.Base.Heap

namespace Base.Heap

variable {κ σ : Type} [DecidableEq κ] [DecidableEq σ]

mutual

/-- The value, followed through the heap, is this finite tree. -/
def reads (h : Heap κ σ) : Nest κ σ → Val σ → Bool
  | .leaf s, .scalar r => s = r
  | .node es, .ref a =>
    match h.table? a with
    | none => false
    | some t => readsTable h es t
  | _, _ => false

def readsTable (h : Heap κ σ) : List (κ × Nest κ σ) → Table κ (Val σ) → Bool
  | [], [] => true
  | (k, u) :: es, (j, w) :: t => k = j && reads h u w && readsTable h es t
  | _, _ => false

end

variable {h h' : Heap κ σ} {R : List (Val σ)}

section

attribute [local simp] reads readsTable

theorem reads_leaf {s : σ} {v : Val σ} : h.reads (.leaf s) v = true ↔ v = .scalar s := by
  cases v <;> simp [eq_comm]

theorem reads_node {es : List (κ × Nest κ σ)} {v : Val σ} :
    h.reads (.node es) v = true ↔
      ∃ a t, v = .ref a ∧ h.table? a = some t ∧ h.readsTable es t = true := by
  cases v with
  | scalar s => simp
  | ref a => cases ht : h.table? a <;> simp [ht]

theorem reads_node_ref {es : List (κ × Nest κ σ)} {a : Addr} {t : Table κ (Val σ)}
    (ht : h.table? a = some t) :
    h.reads (.node es) (.ref a) = true ↔ h.readsTable es t = true := by
  simp [ht]

theorem reads_ref {u : Nest κ σ} {a : Addr} :
    h.reads u (.ref a) = true ↔
      ∃ es t, u = .node es ∧ h.table? a = some t ∧ h.readsTable es t = true := by
  cases u with
  | leaf s => simp
  | node es => cases ht : h.table? a <;> simp [ht]

theorem readsTable_nil {t : Table κ (Val σ)} : h.readsTable [] t = true ↔ t = [] := by
  cases t <;> simp

theorem readsTable_cons {k : κ} {u : Nest κ σ} {es : List (κ × Nest κ σ)} {t : Table κ (Val σ)} :
    h.readsTable ((k, u) :: es) t = true ↔
      ∃ w t', t = (k, w) :: t' ∧ h.reads u w = true ∧ h.readsTable es t' = true := by
  cases t with
  | nil => simp
  | cons p t =>
    obtain ⟨j, w⟩ := p
    simp only [readsTable, Bool.and_eq_true, decide_eq_true_eq, List.cons.injEq, Prod.mk.injEq]
    constructor
    · rintro ⟨⟨rfl, hu⟩, ht⟩
      exact ⟨w, t, ⟨⟨rfl, rfl⟩, rfl⟩, hu, ht⟩
    · rintro ⟨_, _, ⟨⟨rfl, rfl⟩, rfl⟩, hu, ht⟩
      exact ⟨⟨rfl, hu⟩, ht⟩

end

theorem readsTable_keys {es : List (κ × Nest κ σ)} {t : Table κ (Val σ)}
    (hr : h.readsTable es t = true) : Table.keys es = Table.keys t := by
  induction es generalizing t with
  | nil => rw [readsTable_nil.mp hr]; rfl
  | cons e es ih =>
    obtain ⟨k, u⟩ := e
    obtain ⟨w, t', rfl, _, ht⟩ := readsTable_cons.mp hr
    simp [ih ht]

/-- A key is read where it is found, and missing on one side only if on both. -/
theorem readsTable_find? {es : List (κ × Nest κ σ)} {t : Table κ (Val σ)}
    (hr : h.readsTable es t = true) (k : κ) :
    (Table.find? es k = none ∧ Table.find? t k = none) ∨
      ∃ u w, Table.find? es k = some u ∧ Table.find? t k = some w ∧ h.reads u w = true := by
  induction es generalizing t with
  | nil =>
    rw [readsTable_nil.mp hr]
    exact Or.inl ⟨rfl, rfl⟩
  | cons e es ih =>
    obtain ⟨j, u⟩ := e
    obtain ⟨w, t', rfl, hu, ht⟩ := readsTable_cons.mp hr
    by_cases hj : j = k
    · exact Or.inr ⟨u, w, by simp [Table.find?, hj], by simp [Table.find?, hj], hu⟩
    · simpa [Table.find?, hj] using ih ht

/-- What is found under a key on both sides. -/
theorem readsTable_at {es : List (κ × Nest κ σ)} {t : Table κ (Val σ)} {k : κ} {u : Nest κ σ}
    {w : Val σ} (hr : h.readsTable es t = true) (hu : Table.find? es k = some u)
    (hw : Table.find? t k = some w) : h.reads u w = true := by
  rcases readsTable_find? hr k with ⟨hnone, _⟩ | ⟨u', w', hu', hw', huw⟩
  · simp [hnone] at hu
  · obtain rfl := Option.some.inj (hu.symm.trans hu')
    obtain rfl := Option.some.inj (hw.symm.trans hw')
    exact huw

theorem readsTable_mem {es : List (κ × Nest κ σ)} {t : Table κ (Val σ)}
    (hr : h.readsTable es t = true) {k : κ} {w : Val σ} (hm : (k, w) ∈ t) :
    ∃ u, (k, u) ∈ es ∧ h.reads u w = true := by
  induction es generalizing t with
  | nil =>
    rw [readsTable_nil.mp hr] at hm
    simp at hm
  | cons e es ih =>
    obtain ⟨j, u⟩ := e
    obtain ⟨x, t', rfl, hu, ht⟩ := readsTable_cons.mp hr
    rcases List.mem_cons.mp hm with he | hm
    · obtain ⟨rfl, rfl⟩ := Prod.mk.inj he
      exact ⟨u, List.mem_cons_self, hu⟩
    · obtain ⟨u', hu', hr'⟩ := ih ht hm
      exact ⟨u', List.mem_cons_of_mem _ hu', hr'⟩

theorem readsTable_mem_tree {es : List (κ × Nest κ σ)} {t : Table κ (Val σ)}
    (hr : h.readsTable es t = true) {k : κ} {u : Nest κ σ} (hm : (k, u) ∈ es) :
    ∃ w, (k, w) ∈ t ∧ h.reads u w = true := by
  induction es generalizing t with
  | nil => simp at hm
  | cons e es ih =>
    obtain ⟨j, x⟩ := e
    obtain ⟨w, t', rfl, hu, ht⟩ := readsTable_cons.mp hr
    rcases List.mem_cons.mp hm with he | hm
    · obtain ⟨rfl, rfl⟩ := Prod.mk.inj he
      exact ⟨w, List.mem_cons_self, hu⟩
    · obtain ⟨w', hw', hr'⟩ := ih ht hm
      exact ⟨w', List.mem_cons_of_mem _ hw', hr'⟩

theorem readsTable_congr {es : List (κ × Nest κ σ)} {t : Table κ (Val σ)}
    (hr : h.readsTable es t = true)
    (hkeep : ∀ j x y, (j, x) ∈ t → h.reads y x = true → h'.reads y x = true) :
    h'.readsTable es t = true := by
  induction es generalizing t with
  | nil =>
    rw [readsTable_nil.mp hr]
    rfl
  | cons e es ih =>
    obtain ⟨j, y⟩ := e
    obtain ⟨x, t', rfl, hy, ht⟩ := readsTable_cons.mp hr
    refine readsTable_cons.mpr ⟨x, t', rfl, hkeep j x y List.mem_cons_self hy, ?_⟩
    exact ih ht fun a b c hm => hkeep a b c (List.mem_cons_of_mem _ hm)

/-- One slot is rewritten; the others read in the new heap what they read before. -/
theorem readsTable_update {es : List (κ × Nest κ σ)} {t : Table κ (Val σ)} {k : κ}
    {u : Nest κ σ} {w : Val σ} (hr : h.readsTable es t = true)
    (hkeep : ∀ j x y, j ≠ k → (j, x) ∈ t → h.reads y x = true → h'.reads y x = true)
    (hn : (Table.keys t).Nodup) (hw : h'.reads u w = true) :
    h'.readsTable (Table.update es k u) (Table.update t k w) = true := by
  induction es generalizing t with
  | nil =>
    rw [readsTable_nil.mp hr]
    exact readsTable_cons.mpr ⟨w, [], rfl, hw, readsTable_nil.mpr rfl⟩
  | cons e es ih =>
    obtain ⟨j, y⟩ := e
    obtain ⟨x, t', rfl, hy, ht⟩ := readsTable_cons.mp hr
    obtain ⟨hj, hn'⟩ := List.nodup_cons.mp hn
    by_cases hjk : j = k
    · have hrest : h'.readsTable es t' = true := by
        refine readsTable_congr ht fun a b c hm => hkeep a b c ?_ (List.mem_cons_of_mem _ hm)
        rintro rfl
        exact hj (hjk ▸ List.mem_map.mpr ⟨(a, b), hm, rfl⟩)
      simp only [Table.update, hjk, ↓reduceIte]
      exact readsTable_cons.mpr ⟨w, t', rfl, hw, hrest⟩
    · simp only [Table.update, hjk, ↓reduceIte]
      refine readsTable_cons.mpr ⟨x, _, rfl, hkeep j x y hjk List.mem_cons_self hy, ?_⟩
      exact ih ht (fun a b c ha hm => hkeep a b c ha (List.mem_cons_of_mem _ hm)) hn'

/-- One slot is taken out; the others read in the new heap what they read before. -/
theorem readsTable_erase {es : List (κ × Nest κ σ)} {t : Table κ (Val σ)} {k : κ}
    (hr : h.readsTable es t = true)
    (hkeep : ∀ j x y, (j, x) ∈ t → h.reads y x = true → h'.reads y x = true) :
    h'.readsTable (Table.erase es k) (Table.erase t k) = true := by
  induction es generalizing t with
  | nil =>
    rw [readsTable_nil.mp hr]
    exact readsTable_nil.mpr rfl
  | cons e es ih =>
    obtain ⟨j, y⟩ := e
    obtain ⟨x, t', rfl, hy, ht⟩ := readsTable_cons.mp hr
    have hrest : ∀ i a b, (i, a) ∈ t' → h.reads b a = true → h'.reads b a = true :=
      fun i a b hm => hkeep i a b (List.mem_cons_of_mem _ hm)
    by_cases hj : j = k
    · simp only [Table.erase, hj, ↓reduceIte]
      exact readsTable_congr ht hrest
    · simp only [Table.erase, hj, ↓reduceIte]
      exact readsTable_cons.mpr ⟨x, _, rfl, hkeep j x y List.mem_cons_self hy, ih ht hrest⟩

mutual

/-- Two heaps with the same tables on a set closed under following references read the same. -/
theorem reads_transfer {P : Addr → Prop}
    (hclosed : ∀ a t k b, P a → h.table? a = some t → (k, Val.ref b) ∈ t → P b)
    (hsame : ∀ a t, P a → h.table? a = some t → h'.table? a = some t)
    (u : Nest κ σ) (v : Val σ) (hv : ∀ a, v = .ref a → P a) (hr : h.reads u v = true) :
    h'.reads u v = true := by
  match u with
  | .leaf s =>
    rw [reads_leaf] at hr ⊢
    exact hr
  | .node es =>
    obtain ⟨a, t, rfl, ht, hrt⟩ := reads_node.mp hr
    have ha : P a := hv a rfl
    refine reads_node.mpr ⟨a, t, rfl, hsame a t ha ht, ?_⟩
    exact readsTable_transfer hclosed hsame es t (fun k b hm => hclosed a t k b ha ht hm) hrt

theorem readsTable_transfer {P : Addr → Prop}
    (hclosed : ∀ a t k b, P a → h.table? a = some t → (k, Val.ref b) ∈ t → P b)
    (hsame : ∀ a t, P a → h.table? a = some t → h'.table? a = some t)
    (es : List (κ × Nest κ σ)) (t : Table κ (Val σ)) (hv : ∀ k a, (k, Val.ref a) ∈ t → P a)
    (hr : h.readsTable es t = true) : h'.readsTable es t = true := by
  match es with
  | [] =>
    rw [readsTable_nil] at hr ⊢
    exact hr
  | (k, u) :: es =>
    obtain ⟨w, t', rfl, hu, ht⟩ := readsTable_cons.mp hr
    refine readsTable_cons.mpr ⟨w, t', rfl, ?_, ?_⟩
    · refine reads_transfer hclosed hsame u w (fun a he => hv k a ?_) hu
      rw [he]
      exact List.mem_cons_self
    · exact readsTable_transfer hclosed hsame es t'
        (fun j a hm => hv j a (List.mem_cons_of_mem _ hm)) ht

end

mutual

/-- A value is read as one tree only. -/
theorem reads_unique (u u' : Nest κ σ) (v : Val σ) (hr : h.reads u v = true)
    (hr' : h.reads u' v = true) : u = u' := by
  match u, u' with
  | .leaf s, .leaf s' =>
    rw [reads_leaf] at hr hr'
    rw [Val.scalar.inj (hr.symm.trans hr')]
  | .leaf s, .node es' =>
    obtain ⟨a, t, rfl, _, _⟩ := reads_node.mp hr'
    simp [reads] at hr
  | .node es, .leaf s' =>
    obtain ⟨a, t, rfl, _, _⟩ := reads_node.mp hr
    simp [reads] at hr'
  | .node es, .node es' =>
    obtain ⟨a, t, rfl, ht, hrt⟩ := reads_node.mp hr
    rw [reads_node_ref ht] at hr'
    rw [readsTable_unique es es' t hrt hr']

theorem readsTable_unique (es es' : List (κ × Nest κ σ)) (t : Table κ (Val σ))
    (hr : h.readsTable es t = true) (hr' : h.readsTable es' t = true) : es = es' := by
  match es, es' with
  | [], [] => rfl
  | [], (k, u) :: es' =>
    rw [readsTable_nil.mp hr] at hr'
    simp [readsTable] at hr'
  | (k, u) :: es, [] =>
    rw [readsTable_nil.mp hr'] at hr
    simp [readsTable] at hr
  | (k, u) :: es, (k', u') :: es' =>
    obtain ⟨w, t', rfl, hu, ht⟩ := readsTable_cons.mp hr
    obtain ⟨w', t'', he, hu', ht'⟩ := readsTable_cons.mp hr'
    simp only [List.cons.injEq, Prod.mk.injEq] at he
    obtain ⟨⟨rfl, rfl⟩, rfl⟩ := he
    rw [reads_unique u u' w hu hu', readsTable_unique es es' t' ht ht']

end

/-- Every address below a tree is read as a tree no bigger, so none repeats along a path. -/
theorem reads_path (u : Nest κ σ) (v : Val σ) (hr : h.reads u v = true) :
    ∃ path : List Addr, path.length = u.height ∧ path.Nodup ∧
      ∀ a ∈ path, a < h.size ∧ ∃ x, h.reads x (.ref a) = true ∧ sizeOf x ≤ sizeOf u := by
  match u with
  | .leaf s => exact ⟨[], rfl, List.nodup_nil, by simp⟩
  | .node es =>
    obtain ⟨a, t, rfl, ht, hrt⟩ := reads_node.mp hr
    obtain ⟨c, hc, _⟩ := cell?_of_table? ht
    have ha : a < h.size ∧ ∃ x, h.reads x (.ref a) = true ∧ sizeOf x ≤ sizeOf (Nest.node es) :=
      ⟨lt_size hc, .node es, hr, Nat.le_refl _⟩
    by_cases hz : Nest.heightTable es = 0
    · refine ⟨[a], by simp [Nest.height, hz], by simp, ?_⟩
      intro b hb
      rw [List.mem_singleton.mp hb]
      exact ha
    · obtain ⟨k, x, hm, hx⟩ := Nest.exists_highest (Nat.pos_of_ne_zero hz)
      obtain ⟨w, _, hw⟩ := readsTable_mem_tree hrt hm
      have hlt := Nest.sizeOf_lt_node hm
      obtain ⟨path, hlen, hnd, hall⟩ := reads_path x w hw
      refine ⟨a :: path, by simp [Nest.height, hlen, hx], List.nodup_cons.mpr ⟨?_, hnd⟩, ?_⟩
      · intro hin
        obtain ⟨_, y, hy, hle⟩ := hall a hin
        rw [reads_unique y (.node es) (.ref a) hy hr] at hle
        omega
      · intro b hb
        rcases List.mem_cons.mp hb with rfl | hb
        · exact ha
        · obtain ⟨hbs, y, hy, hle⟩ := hall b hb
          exact ⟨hbs, y, hy, by omega⟩
termination_by sizeOf u
decreasing_by exact Nest.sizeOf_lt_node hm

theorem Sound.nodup_keys {es : List (κ × Nest κ σ)} {v : Val σ} (hs : Sound h R)
    (hr : h.reads (.node es) v = true) : (Table.keys es).Nodup := by
  obtain ⟨a, t, _, ht, hrt⟩ := reads_node.mp hr
  rw [readsTable_keys hrt]
  exact hs.keyed a t ht

/-- A tree read from a sound heap has no key twice in one table. -/
theorem Sound.reads_keyed (hs : Sound h R) (u : Nest κ σ) (v : Val σ)
    (hr : h.reads u v = true) : u.Keyed := by
  match u with
  | .leaf s => exact .leaf s
  | .node es =>
    obtain ⟨a, t, rfl, ht, hrt⟩ := reads_node.mp hr
    refine .node (hs.nodup_keys hr) fun k x hm => ?_
    obtain ⟨w, _, hw⟩ := readsTable_mem_tree hrt hm
    exact hs.reads_keyed x w hw
termination_by sizeOf u
decreasing_by exact Nest.sizeOf_lt_node hm

/-- A tree read from a heap is no higher than the heap has cells. -/
theorem height_le_size {u : Nest κ σ} {v : Val σ} (hr : h.reads u v = true) :
    u.height ≤ h.size := by
  obtain ⟨path, hlen, hnd, hall⟩ := reads_path u v hr
  have hsub : path ⊆ List.range h.size := fun a ha => List.mem_range.mpr (hall a ha).1
  have := (List.subperm_of_subset hnd hsub).length_le
  simpa [hlen] using this

end Base.Heap
