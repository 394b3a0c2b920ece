import Mathlib.Algebra.Ring.Nat
import Mathlib.Data.List.Count
import Yaf.Base.Nest

namespace Base

abbrev Addr := Nat

inductive Val (σ : Type) where
  | scalar (s : σ)
  | ref (a : Addr)
  deriving DecidableEq, Repr

/-- A shared table. `refcount` is the stored count, not the true one. -/
structure Cell (κ σ : Type) where
  refcount : Nat
  table : Table κ (Val σ)
  deriving DecidableEq, Repr

/-- Freed cells stay behind as `none`, so an address is never used twice. -/
structure Heap (κ σ : Type) where
  cells : List (Option (Cell κ σ))
  deriving DecidableEq, Repr

namespace Val

variable {σ : Type}

def isRef (a : Addr) : Val σ → Bool
  | scalar _ => false
  | ref b => b == a

@[simp] theorem isRef_scalar (a : Addr) (s : σ) : isRef a (scalar s) = false := rfl

@[simp] theorem isRef_ref (a b : Addr) : isRef a (ref b : Val σ) = (b == a) := rfl

/-- How often one value holds an address. -/
def holds (v : Val σ) (a : Addr) : Nat := if isRef a v then 1 else 0

@[simp] theorem holds_scalar (a : Addr) (s : σ) : holds (scalar s) a = 0 := rfl

@[simp] theorem holds_ref_self (a : Addr) : holds (ref a : Val σ) a = 1 := by simp [holds]

theorem holds_ref_other {a b : Addr} (h : b ≠ a) : holds (ref b : Val σ) a = 0 := by
  simp [holds, h]

end Val

namespace Heap

variable {κ σ : Type}

def cell? (h : Heap κ σ) (a : Addr) : Option (Cell κ σ) := (h.cells[a]?).join

def table? (h : Heap κ σ) (a : Addr) : Option (Table κ (Val σ)) := (h.cell? a).map Cell.table

def rc (h : Heap κ σ) (a : Addr) : Nat := ((h.cell? a).map Cell.refcount).getD 0

def size (h : Heap κ σ) : Nat := h.cells.length

def setCell (h : Heap κ σ) (a : Addr) (c : Option (Cell κ σ)) : Heap κ σ :=
  ⟨h.cells.set a c⟩

def push (h : Heap κ σ) (c : Cell κ σ) : Heap κ σ := ⟨h.cells ++ [some c]⟩

/-- A new empty table, held once. -/
def alloc (h : Heap κ σ) : Addr × Heap κ σ := (h.size, h.push ⟨1, []⟩)

/-- Take one more hold of what a value points at. -/
def addRef (h : Heap κ σ) : Val σ → Heap κ σ
  | .scalar _ => h
  | .ref a =>
    match h.cell? a with
    | none => h
    | some c => h.setCell a (some { c with refcount := c.refcount + 1 })

/-- Give a hold back; the last one frees the table and what it held. -/
def release : Nat → Heap κ σ → Val σ → Heap κ σ
  | _, h, .scalar _ => h
  | 0, h, .ref _ => h
  | fuel + 1, h, .ref a =>
    match h.cell? a with
    | none => h
    | some c =>
      if 1 < c.refcount then h.setCell a (some { c with refcount := c.refcount - 1 })
      else c.table.foldl (fun h p => release fuel h p.2) (h.setCell a none)

/-- Hold every value of a table once more. -/
def addRefs (h : Heap κ σ) (t : Table κ (Val σ)) : Heap κ σ :=
  t.foldl (fun h p => h.addRef p.2) h

/-- A copy of one table, which holds every value once more. -/
def dup (h : Heap κ σ) (t : Table κ (Val σ)) : Addr × Heap κ σ :=
  ((h.addRefs t).size, (h.addRefs t).push ⟨1, t⟩)

variable {h h' : Heap κ σ} {R : List (Val σ)}

/-- How often the entries of a table hold an address. -/
def tableRefs (t : Table κ (Val σ)) (a : Addr) : Nat := (t.map fun p => p.2.holds a).sum

def cellRefs : Option (Cell κ σ) → Addr → Nat
  | none, _ => 0
  | some c, a => tableRefs c.table a

/-- How often the live tables of the heap hold an address. -/
def refs (h : Heap κ σ) (a : Addr) : Nat := (h.cells.map (cellRefs · a)).sum

/-- How often the holders outside the heap hold an address. -/
def rootRefs (R : List (Val σ)) (a : Addr) : Nat := (R.map (·.holds a)).sum

theorem lt_size {a : Addr} {c : Cell κ σ} (hc : h.cell? a = some c) : a < h.size := by
  by_contra hn
  have hnone : h.cells[a]? = none := List.getElem?_eq_none (by simpa [size] using hn)
  simp [cell?, hnone] at hc

theorem cell?_setCell_self {a : Addr} {c : Cell κ σ} (x : Option (Cell κ σ))
    (hc : h.cell? a = some c) : (h.setCell a x).cell? a = x := by
  have hlt : a < h.cells.length := lt_size hc
  simp [cell?, setCell, hlt]

theorem cell?_setCell_other {a b : Addr} (x : Option (Cell κ σ)) (hne : b ≠ a) :
    (h.setCell a x).cell? b = h.cell? b := by
  simp [cell?, setCell, List.getElem?_set_ne (Ne.symm hne)]

@[simp] theorem cell?_push_self (c : Cell κ σ) : (h.push c).cell? h.size = some c := by
  simp [cell?, push, size]

theorem cell?_push_other {b : Addr} (c : Cell κ σ) (hne : b ≠ h.size) :
    (h.push c).cell? b = h.cell? b := by
  by_cases hlt : b < h.cells.length
  · simp [cell?, push, List.getElem?_append_left hlt]
  · have hgt : h.cells.length < b :=
      Nat.lt_of_le_of_ne (Nat.le_of_not_lt hlt) (Ne.symm hne)
    have hn : h.cells[b]? = none := List.getElem?_eq_none (Nat.le_of_lt hgt)
    have hn' : (h.cells ++ [some c])[b]? = none :=
      List.getElem?_eq_none (by simpa using Nat.succ_le_of_lt hgt)
    simp only [cell?, push, hn, hn']

@[simp] theorem cell?_size : h.cell? h.size = none := by simp [cell?, size]

theorem table?_of_cell? {a : Addr} {c : Cell κ σ} (hc : h.cell? a = some c) :
    h.table? a = some c.table := by simp [table?, hc]

theorem rc_of_cell? {a : Addr} {c : Cell κ σ} (hc : h.cell? a = some c) :
    h.rc a = c.refcount := by simp [rc, hc]

theorem rc_of_cell?_none {a : Addr} (hc : h.cell? a = none) : h.rc a = 0 := by simp [rc, hc]

theorem cell?_of_table? {a : Addr} {t : Table κ (Val σ)} (ht : h.table? a = some t) :
    ∃ c, h.cell? a = some c ∧ c.table = t := by
  simpa [table?, Option.map_eq_some_iff] using ht

theorem table?_of_rc {a : Addr} (hp : 0 < h.rc a) : ∃ t, h.table? a = some t := by
  cases hc : h.cell? a with
  | none => simp [rc, hc] at hp
  | some c => exact ⟨c.table, table?_of_cell? hc⟩

theorem table?_eq_of_cell? {a b : Addr} (he : h'.cell? b = h.cell? a) :
    h'.table? b = h.table? a ∧ h'.rc b = h.rc a := by
  simp [table?, rc, he]

theorem tableRefs_pos {t : Table κ (Val σ)} {k : κ} {a : Addr} (hm : (k, Val.ref a) ∈ t) :
    0 < tableRefs t a := by
  induction t with
  | nil => simp at hm
  | cons p t ih =>
    rcases List.mem_cons.mp hm with he | hm
    · simp only [← he, tableRefs, List.map_cons, List.sum_cons, Val.holds_ref_self]
      omega
    · have := ih hm
      simp only [tableRefs, List.map_cons, List.sum_cons] at this ⊢
      omega

theorem tableRefs_two {t : Table κ (Val σ)} {k j : κ} {a : Addr} (hk : (k, Val.ref a) ∈ t)
    (hj : (j, Val.ref a) ∈ t) (hne : k ≠ j) : 2 ≤ tableRefs t a := by
  induction t with
  | nil => simp at hk
  | cons p t ih =>
    have hcons : tableRefs (p :: t) a = p.2.holds a + tableRefs t a := by
      simp [tableRefs]
    rw [hcons]
    rcases List.mem_cons.mp hk with rfl | hk'
    · rcases List.mem_cons.mp hj with he | hj'
      · exact absurd (Prod.mk.inj he).1.symm hne
      · have := tableRefs_pos hj'
        simp only [Val.holds_ref_self]
        omega
    · rcases List.mem_cons.mp hj with rfl | hj'
      · have := tableRefs_pos hk'
        simp only [Val.holds_ref_self]
        omega
      · have := ih hk' hj'
        omega

@[simp] theorem rootRefs_cons (v : Val σ) (R : List (Val σ)) (a : Addr) :
    rootRefs (v :: R) a = v.holds a + rootRefs R a := by simp [rootRefs]

theorem rootRefs_append (Q R : List (Val σ)) (a : Addr) :
    rootRefs (Q ++ R) a = rootRefs Q a + rootRefs R a := by simp [rootRefs]

theorem rootRefs_toList (o : Option (Val σ)) (a : Addr) :
    rootRefs o.toList a = (o.map (·.holds a)).getD 0 := by
  cases o with
  | none => rfl
  | some v => simp [rootRefs]

theorem rootRefs_pos {a : Addr} (hm : Val.ref a ∈ R) : 0 < rootRefs R a := by
  induction R with
  | nil => simp at hm
  | cons v R ih =>
    rcases List.mem_cons.mp hm with he | hm
    · simp only [← he, rootRefs_cons, Val.holds_ref_self]
      omega
    · have := ih hm
      simp only [rootRefs_cons]
      omega

theorem rootRefs_values (t : Table κ (Val σ)) (a : Addr) :
    rootRefs (t.map Prod.snd) a = tableRefs t a := by simp [rootRefs, tableRefs, Function.comp_def]

@[simp] theorem refs_push (c : Cell κ σ) (a : Addr) :
    (h.push c).refs a = h.refs a + tableRefs c.table a := by simp [refs, push, cellRefs]

theorem sum_map_set {α : Type} (f : α → Nat) (l : List α) (i : Nat) (x y : α)
    (hy : l[i]? = some y) : ((l.set i x).map f).sum + f y = (l.map f).sum + f x := by
  induction l generalizing i with
  | nil => simp at hy
  | cons z l ih =>
    cases i with
    | zero =>
      simp only [List.getElem?_cons_zero, Option.some.injEq] at hy
      simp only [List.set_cons_zero, List.map_cons, List.sum_cons, hy]
      omega
    | succ i =>
      have := ih i (by simpa using hy)
      simp only [List.set_cons_succ, List.map_cons, List.sum_cons]
      omega

theorem refs_setCell {b : Addr} {c : Cell κ σ} (x : Option (Cell κ σ)) (a : Addr)
    (hc : h.cell? b = some c) :
    (h.setCell b x).refs a + tableRefs c.table a = h.refs a + cellRefs x a := by
  have hg : h.cells[b]? = some (some c) := by simpa [cell?, Option.join_eq_some_iff] using hc
  exact sum_map_set (cellRefs · a) h.cells b x (some c) hg

theorem tableRefs_le_refs {b : Addr} {t : Table κ (Val σ)} (ht : h.table? b = some t) (a : Addr) :
    tableRefs t a ≤ h.refs a := by
  obtain ⟨c, hc, rfl⟩ := cell?_of_table? ht
  have := refs_setCell none a hc
  simp only [cellRefs] at this
  omega

/-- Two different tables are counted apart. -/
theorem tableRefs_add_le_refs {b d : Addr} {t u : Table κ (Val σ)} (hne : b ≠ d)
    (ht : h.table? b = some t) (hu : h.table? d = some u) (a : Addr) :
    tableRefs t a + tableRefs u a ≤ h.refs a := by
  obtain ⟨c, hc, rfl⟩ := cell?_of_table? ht
  have hs := refs_setCell none a hc
  have hd : (h.setCell b none).table? d = some u := by
    rw [(table?_eq_of_cell? (cell?_setCell_other none (Ne.symm hne))).1, hu]
  have hl := tableRefs_le_refs hd a
  simp only [cellRefs] at hs
  omega

/-- Stored counts cover every hold, from the heap and from the roots, and no table has a key twice.
-/
structure Sound (h : Heap κ σ) (R : List (Val σ)) : Prop where
  counted : ∀ a, h.refs a + rootRefs R a ≤ h.rc a
  keyed : ∀ a t, h.table? a = some t → (Table.keys t).Nodup

theorem Sound.root_live (hs : Sound h R) {a : Addr} (hm : Val.ref a ∈ R) :
    ∃ t, h.table? a = some t := by
  have := rootRefs_pos hm
  have := hs.counted a
  exact table?_of_rc (by omega)

theorem Sound.child_rc (hs : Sound h R) {a b : Addr} {t : Table κ (Val σ)} {k : κ}
    (ht : h.table? b = some t) (hm : (k, Val.ref a) ∈ t) : 0 < h.rc a := by
  have := tableRefs_pos hm
  have := tableRefs_le_refs ht a
  have := hs.counted a
  omega

theorem Sound.child_live (hs : Sound h R) {a b : Addr} {t : Table κ (Val σ)} {k : κ}
    (ht : h.table? b = some t) (hm : (k, Val.ref a) ∈ t) : ∃ u, h.table? a = some u :=
  table?_of_rc (hs.child_rc ht hm)

theorem Sound.drop_root {v : Val σ} (hs : Sound h (v :: R)) : Sound h R := by
  refine ⟨fun a => ?_, hs.keyed⟩
  have := hs.counted a
  simp only [rootRefs_cons] at this
  omega

theorem Sound.add_scalar (hs : Sound h R) (s : σ) : Sound h (.scalar s :: R) :=
  ⟨fun a => by simpa using hs.counted a, hs.keyed⟩

/-- The tables are untouched and only one count moves. -/
theorem Sound.recount {a : Addr} {c : Cell κ σ} {Q : List (Val σ)} {n : Nat} (hs : Sound h R)
    (hc : h.cell? a = some c) (hn : h.refs a + rootRefs Q a ≤ n)
    (hq : ∀ b, b ≠ a → rootRefs Q b ≤ rootRefs R b) :
    Sound (h.setCell a (some { c with refcount := n })) Q := by
  have hrefs : ∀ b, (h.setCell a (some { c with refcount := n })).refs b = h.refs b := by
    intro b
    have := refs_setCell (some { c with refcount := n }) b hc
    simp only [cellRefs] at this
    omega
  refine ⟨fun b => ?_, fun b t ht => ?_⟩
  · rw [hrefs b]
    by_cases hb : b = a
    · subst hb
      rw [rc_of_cell? (cell?_setCell_self _ hc)]
      exact hn
    · rw [(table?_eq_of_cell? (cell?_setCell_other _ hb)).2]
      have := hs.counted b
      have := hq b hb
      omega
  · by_cases hb : b = a
    · subst hb
      rw [table?_of_cell? (cell?_setCell_self _ hc)] at ht
      exact hs.keyed b t (by rw [table?_of_cell? hc]; exact ht)
    · rw [(table?_eq_of_cell? (cell?_setCell_other _ hb)).1] at ht
      exact hs.keyed b t ht

theorem Sound.addRef (hs : Sound h R) (v : Val σ)
    (hl : ∀ a, v = .ref a → ∃ t, h.table? a = some t) :
    Sound (h.addRef v) (v :: R) := by
  cases v with
  | scalar s => exact hs.add_scalar s
  | ref a =>
    obtain ⟨t, ht⟩ := hl a rfl
    obtain ⟨c, hc, _⟩ := cell?_of_table? ht
    simp only [Heap.addRef, hc]
    refine hs.recount hc ?_ ?_
    · have := hs.counted a
      rw [rc_of_cell? hc] at this
      simp only [rootRefs_cons, Val.holds_ref_self]
      omega
    · intro b hb
      simp [rootRefs_cons, Val.holds_ref_other (Ne.symm hb)]

/-- A new cell whose values were roots before becomes a root itself. -/
theorem Sound.push {t : Table κ (Val σ)} (hs : Sound h (t.map Prod.snd ++ R))
    (hk : (Table.keys t).Nodup) : Sound (h.push ⟨1, t⟩) (.ref h.size :: R) := by
  refine ⟨fun a => ?_, fun a u hu => ?_⟩
  · have hc := hs.counted a
    rw [rootRefs_append, rootRefs_values] at hc
    rw [refs_push, rootRefs_cons]
    by_cases ha : a = h.size
    · subst ha
      rw [rc_of_cell?_none cell?_size] at hc
      rw [rc_of_cell? (cell?_push_self _), Val.holds_ref_self]
      simp only
      omega
    · rw [(table?_eq_of_cell? (cell?_push_other _ ha)).2, Val.holds_ref_other (Ne.symm ha)]
      simp only
      omega
  · by_cases ha : a = h.size
    · subst ha
      rw [table?_of_cell? (cell?_push_self _)] at hu
      exact Option.some.inj hu ▸ hk
    · rw [(table?_eq_of_cell? (cell?_push_other _ ha)).1] at hu
      exact hs.keyed a u hu

theorem Sound.alloc (hs : Sound h R) : Sound h.alloc.2 (.ref h.alloc.1 :: R) :=
  Sound.push (t := []) (by simpa using hs) (by simp)

@[simp] theorem table?_addRef (v : Val σ) (b : Addr) : (h.addRef v).table? b = h.table? b := by
  cases v with
  | scalar s => rfl
  | ref a =>
    cases hc : h.cell? a with
    | none => simp [addRef, hc]
    | some c =>
      simp only [addRef, hc]
      by_cases hb : b = a
      · subst hb
        rw [table?_of_cell? (cell?_setCell_self _ hc), table?_of_cell? hc]
      · exact (table?_eq_of_cell? (cell?_setCell_other _ hb)).1

theorem rc_addRef {v : Val σ} {b : Addr} (hne : v ≠ .ref b) : (h.addRef v).rc b = h.rc b := by
  cases v with
  | scalar s => rfl
  | ref a =>
    have hb : b ≠ a := fun he => hne (he ▸ rfl)
    cases hc : h.cell? a with
    | none => simp [addRef, hc]
    | some c =>
      simp only [addRef, hc]
      exact (table?_eq_of_cell? (cell?_setCell_other _ hb)).2

theorem addRefs_cons (p : κ × Val σ) (t : Table κ (Val σ)) :
    h.addRefs (p :: t) = (h.addRef p.2).addRefs t := rfl

@[simp] theorem table?_addRefs (t : Table κ (Val σ)) (b : Addr) :
    (h.addRefs t).table? b = h.table? b := by
  induction t generalizing h with
  | nil => rfl
  | cons p t ih =>
    rw [addRefs_cons, ih, table?_addRef]

theorem rc_addRefs {t : Table κ (Val σ)} {b : Addr} (hn : ∀ k, (k, Val.ref b) ∉ t) :
    (h.addRefs t).rc b = h.rc b := by
  induction t generalizing h with
  | nil => rfl
  | cons p t ih =>
    have ht : ∀ k, (k, Val.ref b) ∉ t := fun k hk => hn k (List.mem_cons_of_mem _ hk)
    have hp : p.2 ≠ .ref b := fun he => hn p.1 (by rw [← he]; exact List.mem_cons_self)
    rw [addRefs_cons, ih ht, rc_addRef hp]

theorem Sound.addRefs (t : Table κ (Val σ)) :
    ∀ {h : Heap κ σ} {R : List (Val σ)}, Sound h R →
      (∀ k a, (k, Val.ref a) ∈ t → ∃ u, h.table? a = some u) →
      Sound (h.addRefs t) (t.map Prod.snd ++ R) := by
  induction t with
  | nil => exact fun hs _ => hs
  | cons p t ih =>
    intro h R hs hl
    have hp : Sound (h.addRef p.2) (p.2 :: R) := by
      refine hs.addRef p.2 fun a ha => hl p.1 a ?_
      rw [← ha]
      exact List.mem_cons_self
    have ht := ih hp fun k a hm => by
      rw [table?_addRef]
      exact hl k a (List.mem_cons_of_mem _ hm)
    refine ⟨fun a => ?_, ht.keyed⟩
    have hc := ht.counted a
    simp only [rootRefs_append, rootRefs_cons, List.map_cons, List.cons_append] at hc ⊢
    rw [addRefs_cons]
    omega

theorem Sound.dup {t : Table κ (Val σ)} {a : Addr} (hs : Sound h R) (ht : h.table? a = some t) :
    Sound (h.dup t).2 (.ref (h.dup t).1 :: R) :=
  (hs.addRefs t fun _ _ hm => hs.child_live ht hm).push (hs.keyed a t ht)

/-- Cells may be freed and counts may drop, but no table that is left has changed. -/
structure Sheds (h h' : Heap κ σ) : Prop where
  table : ∀ b t, h'.table? b = some t → h.table? b = some t
  rc : ∀ b, h'.rc b ≤ h.rc b

theorem Sheds.refl (h : Heap κ σ) : Sheds h h := ⟨fun _ _ ht => ht, fun _ => Nat.le_refl _⟩

theorem Sheds.trans {h₁ h₂ h₃ : Heap κ σ} (s : Sheds h₁ h₂) (r : Sheds h₂ h₃) : Sheds h₁ h₃ :=
  ⟨fun b t ht => s.table b t (r.table b t ht), fun b => Nat.le_trans (r.rc b) (s.rc b)⟩

theorem sheds_lower {a : Addr} {c : Cell κ σ} (hc : h.cell? a = some c) :
    Sheds h (h.setCell a (some { c with refcount := c.refcount - 1 })) := by
  refine ⟨fun b t ht => ?_, fun b => ?_⟩ <;> by_cases hb : b = a
  · subst hb
    rw [table?_of_cell? (cell?_setCell_self _ hc)] at ht
    rw [table?_of_cell? hc]
    exact ht
  · rwa [(table?_eq_of_cell? (cell?_setCell_other _ hb)).1] at ht
  · subst hb
    rw [rc_of_cell? (cell?_setCell_self _ hc), rc_of_cell? hc]
    exact Nat.sub_le _ _
  · exact Nat.le_of_eq (table?_eq_of_cell? (cell?_setCell_other _ hb)).2

theorem sheds_free {a : Addr} {c : Cell κ σ} (hc : h.cell? a = some c) :
    Sheds h (h.setCell a none) := by
  refine ⟨fun b t ht => ?_, fun b => ?_⟩ <;> by_cases hb : b = a
  · subst hb
    simp [table?, cell?_setCell_self _ hc] at ht
  · rwa [(table?_eq_of_cell? (cell?_setCell_other _ hb)).1] at ht
  · subst hb
    rw [rc_of_cell?_none (cell?_setCell_self _ hc)]
    exact Nat.zero_le _
  · exact Nat.le_of_eq (table?_eq_of_cell? (cell?_setCell_other _ hb)).2

theorem Sound.free {a : Addr} {c : Cell κ σ} (hs : Sound h (.ref a :: R))
    (hc : h.cell? a = some c) (hle : c.refcount ≤ 1) :
    Sound (h.setCell a none) (c.table.map Prod.snd ++ R) := by
  refine ⟨fun b => ?_, fun b t ht => hs.keyed b t ((sheds_free hc).table b t ht)⟩
  have hr := refs_setCell none b hc
  have hb := hs.counted b
  have hl := tableRefs_le_refs (table?_of_cell? hc) b
  rw [rootRefs_append, rootRefs_values]
  simp only [cellRefs, rootRefs_cons] at hr hb
  by_cases he : b = a
  · subst he
    rw [rc_of_cell? hc, Val.holds_ref_self] at hb
    rw [rc_of_cell?_none (cell?_setCell_self _ hc)]
    omega
  · rw [(table?_eq_of_cell? (cell?_setCell_other _ he)).2]
    omega

/-- What holds of one count lowered and of one cell freed holds of a whole release. -/
theorem release_induct {Q : Heap κ σ → Heap κ σ → Prop} (hrefl : ∀ h, Q h h)
    (htrans : ∀ {h₁ h₂ h₃}, Q h₁ h₂ → Q h₂ h₃ → Q h₁ h₃)
    (hlower : ∀ {h : Heap κ σ} {a c}, h.cell? a = some c →
      Q h (h.setCell a (some { c with refcount := c.refcount - 1 })))
    (hfree : ∀ {h : Heap κ σ} {a c}, h.cell? a = some c → Q h (h.setCell a none))
    (fuel : Nat) : ∀ (h : Heap κ σ) (v : Val σ), Q h (h.release fuel v) := by
  induction fuel with
  | zero =>
    intro h v
    cases v <;> exact hrefl h
  | succ fuel ih =>
    intro h v
    cases v with
    | scalar s => exact hrefl h
    | ref a =>
      cases hc : h.cell? a with
      | none =>
        simp only [Heap.release, hc]
        exact hrefl h
      | some c =>
        simp only [Heap.release, hc]
        split
        · exact hlower hc
        · -- the freed cell gives back the values of its table from the left
          suffices hfold : ∀ (t : Table κ (Val σ)) (g : Heap κ σ),
              Q g (t.foldl (fun h p => h.release fuel p.2) g) from
            htrans (hfree hc) (hfold c.table _)
          intro t
          induction t with
          | nil => exact hrefl
          | cons p t iht => exact fun g => htrans (ih g p.2) (iht _)

theorem sheds_release (fuel : Nat) (h : Heap κ σ) (v : Val σ) : Sheds h (h.release fuel v) :=
  release_induct .refl .trans sheds_lower sheds_free fuel h v

@[simp] theorem size_setCell (h : Heap κ σ) (a : Addr) (x : Option (Cell κ σ)) :
    (h.setCell a x).size = h.size := by simp [size, setCell]

@[simp] theorem size_push (h : Heap κ σ) (c : Cell κ σ) : (h.push c).size = h.size + 1 := by
  simp [size, push]

@[simp] theorem size_release (fuel : Nat) (h : Heap κ σ) (v : Val σ) :
    (h.release fuel v).size = h.size :=
  release_induct (Q := fun h h' => h'.size = h.size) (fun _ => rfl) (fun he he' => he'.trans he)
    (fun _ => size_setCell _ _ _) (fun _ => size_setCell _ _ _) fuel h v

theorem Sound.release (fuel : Nat) (v : Val σ) {h : Heap κ σ} {R : List (Val σ)}
    (hs : Sound h (v :: R)) : Sound (h.release fuel v) R ∧ Sheds h (h.release fuel v) := by
  refine ⟨?_, sheds_release fuel h v⟩
  induction fuel generalizing v h R with
  | zero => cases v <;> exact hs.drop_root
  | succ fuel ih =>
    cases v with
    | scalar s => exact hs.drop_root
    | ref a =>
      cases hc : h.cell? a with
      | none =>
        simp only [Heap.release, hc]
        exact hs.drop_root
      | some c =>
        simp only [Heap.release, hc]
        split
        · refine hs.recount hc ?_ fun b _ => by simp [rootRefs_cons]
          have := hs.counted a
          rw [rc_of_cell? hc, rootRefs_cons, Val.holds_ref_self] at this
          omega
        · rename_i hle
          suffices hfold : ∀ (t : Table κ (Val σ)) (g : Heap κ σ),
              Sound g (t.map Prod.snd ++ R) →
              Sound (t.foldl (fun h p => h.release fuel p.2) g) R from
            hfold c.table _ (hs.free hc (by omega))
          intro t
          induction t with
          | nil => exact fun g hg => hg
          | cons p t iht => exact fun g hg => iht _ (ih p.2 hg)

variable [DecidableEq κ]

/-- Overwrite a slot without looking at what was there. -/
def write (h : Heap κ σ) (a : Addr) (k : κ) (v : Val σ) : Heap κ σ :=
  match h.cell? a with
  | none => h
  | some c => h.setCell a (some { c with table := Table.update c.table k v })

/-- The value in a slot. -/
def slot? (h : Heap κ σ) (a : Addr) (k : κ) : Option (Val σ) :=
  (h.table? a).bind (Table.find? · k)

/-- Overwrite a slot and give back the value it held. -/
def put (h : Heap κ σ) (a : Addr) (k : κ) (v : Val σ) : Heap κ σ :=
  match h.slot? a k with
  | none => h.write a k v
  | some old => (h.write a k v).release h.size old

/-- Take a slot out without looking at what was there. -/
def remove (h : Heap κ σ) (a : Addr) (k : κ) : Heap κ σ :=
  match h.cell? a with
  | none => h
  | some c => h.setCell a (some { c with table := Table.erase c.table k })

/-- Take a slot out and give back the value it held. -/
def erase (h : Heap κ σ) (a : Addr) (k : κ) : Heap κ σ :=
  match h.slot? a k with
  | none => h
  | some old => (h.remove a k).release h.size old

/-- The private table in a slot: its own when held once, otherwise a copy put in its place. -/
def separate (h : Heap κ σ) (a : Addr) (k : κ) (c : Addr) : Addr × Heap κ σ :=
  if 1 < h.rc c then
    let (n, h') := h.dup ((h.table? c).getD [])
    (n, h'.put a k (.ref n))
  else (c, h)

theorem tableRefs_update (t : Table κ (Val σ)) (k : κ) (v : Val σ) (a : Addr) :
    tableRefs (Table.update t k v) a + ((Table.find? t k).map (·.holds a)).getD 0
      = tableRefs t a + v.holds a := by
  induction t with
  | nil => simp [Table.update, tableRefs]
  | cons p t ih =>
    obtain ⟨j, w⟩ := p
    by_cases hj : j = k
    · simp only [Table.update, Table.find?, hj, ↓reduceIte, tableRefs, List.map_cons, List.sum_cons,
        Option.map_some, Option.getD_some]
      omega
    · simp only [Table.update, Table.find?, hj, ↓reduceIte, tableRefs, List.map_cons,
        List.sum_cons] at ih ⊢
      omega

theorem table?_write_self {a : Addr} {t : Table κ (Val σ)} (ht : h.table? a = some t) (k : κ)
    (v : Val σ) : (h.write a k v).table? a = some (Table.update t k v) := by
  obtain ⟨c, hc, rfl⟩ := cell?_of_table? ht
  simp only [write, hc]
  rw [table?_of_cell? (cell?_setCell_self _ hc)]

theorem table?_write_other {a b : Addr} (hne : b ≠ a) (k : κ) (v : Val σ) :
    (h.write a k v).table? b = h.table? b := by
  cases hc : h.cell? a with
  | none => simp [write, hc]
  | some c =>
    simp only [write, hc]
    exact (table?_eq_of_cell? (cell?_setCell_other _ hne)).1

@[simp] theorem rc_write (a b : Addr) (k : κ) (v : Val σ) : (h.write a k v).rc b = h.rc b := by
  cases hc : h.cell? a with
  | none => simp [write, hc]
  | some c =>
    simp only [write, hc]
    by_cases hb : b = a
    · subst hb
      rw [rc_of_cell? (cell?_setCell_self _ hc), rc_of_cell? hc]
    · exact (table?_eq_of_cell? (cell?_setCell_other _ hb)).2

/-- A root moves into a slot; what the slot held becomes a root. -/
theorem Sound.write {a : Addr} {t : Table κ (Val σ)} {v : Val σ} (hs : Sound h (v :: R))
    (ht : h.table? a = some t) (k : κ) :
    Sound (h.write a k v) ((Table.find? t k).toList ++ R) := by
  obtain ⟨c, hc, rfl⟩ := cell?_of_table? ht
  refine ⟨fun b => ?_, fun b u hu => ?_⟩
  · have hb := hs.counted b
    have hu := tableRefs_update c.table k v b
    have hr := refs_setCell (some { c with table := Table.update c.table k v }) b hc
    have hw : h.write a k v = h.setCell a (some { c with table := Table.update c.table k v }) := by
      simp [Heap.write, hc]
    rw [rc_write, hw, rootRefs_append, rootRefs_toList]
    simp only [cellRefs, rootRefs_cons] at hr hb
    omega
  · by_cases hb : b = a
    · subst hb
      rw [table?_write_self ht, Option.some.injEq] at hu
      exact hu ▸ Table.nodup_update (hs.keyed _ _ ht) k v
    · rw [table?_write_other hb] at hu
      exact hs.keyed b u hu

theorem slot?_eq {a : Addr} {t : Table κ (Val σ)} (ht : h.table? a = some t) (k : κ) :
    h.slot? a k = Table.find? t k := by simp [slot?, ht]

theorem Sound.put {a : Addr} {t : Table κ (Val σ)} {v : Val σ} (hs : Sound h (v :: R))
    (ht : h.table? a = some t) (k : κ) :
    Sound (h.put a k v) R ∧ Sheds (h.write a k v) (h.put a k v) := by
  have hw := hs.write ht k
  unfold Heap.put
  rw [slot?_eq ht]
  cases hf : Table.find? t k with
  | none =>
    simp only [hf, Option.toList_none, List.nil_append] at hw
    exact ⟨hw, .refl _⟩
  | some old =>
    simp only [hf, Option.toList_some, List.cons_append, List.nil_append] at hw
    exact hw.release h.size old

theorem tableRefs_erase (t : Table κ (Val σ)) (k : κ) (a : Addr) :
    tableRefs (Table.erase t k) a + ((Table.find? t k).map (·.holds a)).getD 0 = tableRefs t a := by
  induction t with
  | nil => rfl
  | cons p t ih =>
    obtain ⟨j, w⟩ := p
    by_cases hj : j = k
    · simp only [Table.erase, Table.find?, hj, ↓reduceIte, tableRefs, List.map_cons, List.sum_cons,
        Option.map_some, Option.getD_some]
      omega
    · simp only [Table.erase, Table.find?, hj, ↓reduceIte, tableRefs, List.map_cons,
        List.sum_cons] at ih ⊢
      omega

theorem table?_remove_self {a : Addr} {t : Table κ (Val σ)} (ht : h.table? a = some t) (k : κ) :
    (h.remove a k).table? a = some (Table.erase t k) := by
  obtain ⟨c, hc, rfl⟩ := cell?_of_table? ht
  simp only [remove, hc]
  rw [table?_of_cell? (cell?_setCell_self _ hc)]

theorem table?_remove_other {a b : Addr} (hne : b ≠ a) (k : κ) :
    (h.remove a k).table? b = h.table? b := by
  cases hc : h.cell? a with
  | none => simp [remove, hc]
  | some c =>
    simp only [remove, hc]
    exact (table?_eq_of_cell? (cell?_setCell_other _ hne)).1

@[simp] theorem rc_remove (a b : Addr) (k : κ) : (h.remove a k).rc b = h.rc b := by
  cases hc : h.cell? a with
  | none => simp [remove, hc]
  | some c =>
    simp only [remove, hc]
    by_cases hb : b = a
    · subst hb
      rw [rc_of_cell? (cell?_setCell_self _ hc), rc_of_cell? hc]
    · exact (table?_eq_of_cell? (cell?_setCell_other _ hb)).2

/-- What a slot held becomes a root. -/
theorem Sound.remove {a : Addr} {t : Table κ (Val σ)} (hs : Sound h R)
    (ht : h.table? a = some t) (k : κ) :
    Sound (h.remove a k) ((Table.find? t k).toList ++ R) := by
  obtain ⟨c, hc, rfl⟩ := cell?_of_table? ht
  refine ⟨fun b => ?_, fun b u hu => ?_⟩
  · have hb := hs.counted b
    have hu := tableRefs_erase c.table k b
    have hr := refs_setCell (some { c with table := Table.erase c.table k }) b hc
    have hw : h.remove a k = h.setCell a (some { c with table := Table.erase c.table k }) := by
      simp [Heap.remove, hc]
    rw [rc_remove, hw, rootRefs_append, rootRefs_toList]
    simp only [cellRefs] at hr
    omega
  · by_cases hb : b = a
    · subst hb
      rw [table?_remove_self ht, Option.some.injEq] at hu
      exact hu ▸ Table.nodup_erase (hs.keyed _ _ ht) k
    · rw [table?_remove_other hb] at hu
      exact hs.keyed b u hu

theorem Sound.erase {a : Addr} {t : Table κ (Val σ)} {k : κ} {old : Val σ} (hs : Sound h R)
    (ht : h.table? a = some t) (hk : Table.find? t k = some old) :
    Sound (h.erase a k) R ∧ Sheds (h.remove a k) (h.erase a k) := by
  have hw := hs.remove ht k
  rw [hk, Option.toList_some, List.singleton_append] at hw
  unfold Heap.erase
  rw [slot?_eq ht, hk]
  exact hw.release h.size old

end Heap

end Base
