import Yaf.Base.HeapReads

namespace Base.Heap

variable {κ σ : Type} {h h' h₁ : Heap κ σ} {R Q : List (Val σ)}

/-- Who may hold an address: a root, or a slot of one of the listed tables. -/
def Holder (h : Heap κ σ) (R : List (Val σ)) (P : List Addr) (a : Addr) : Prop :=
  .ref a ∈ R ∨ ∃ p ∈ P, ∃ t k, h.table? p = some t ∧ (k, Val.ref a) ∈ t

/-- A path of private tables, the deepest first: each is held once, by a root or by a later one. -/
def Owned (h : Heap κ σ) (R : List (Val σ)) : List Addr → Prop
  | [] => True
  | a :: P => h.rc a = 1 ∧ a ∉ P ∧ Holder h R P a ∧ Owned h R P

theorem Holder.mono {P P' : List Addr} {a : Addr} (hr : R ⊆ Q) (hp : P ⊆ P')
    (ho : Holder h R P a) : Holder h Q P' a := by
  rcases ho with hm | ⟨p, hpm, t, k, ht, hk⟩
  · exact Or.inl (hr hm)
  · exact Or.inr ⟨p, hp hpm, t, k, ht, hk⟩

/-- A holder is counted. -/
theorem Holder.counted {P : List Addr} {a : Addr} (ho : Holder h R P a) :
    0 < h.refs a + rootRefs R a := by
  rcases ho with hm | ⟨p, _, t, k, ht, hk⟩
  · have := rootRefs_pos hm
    omega
  · have := tableRefs_pos hk
    have := tableRefs_le_refs ht a
    omega

/-- A holder and a table elsewhere are counted apart. -/
theorem Holder.counted_two {P : List Addr} {a b : Addr} {t : Table κ (Val σ)} {k : κ}
    (ho : Holder h R P a) (hb : b ∉ P) (ht : h.table? b = some t) (hk : (k, Val.ref a) ∈ t) :
    2 ≤ h.refs a + rootRefs R a := by
  have hpos := tableRefs_pos hk
  rcases ho with hm | ⟨p, hp, u, j, hu, hj⟩
  · have := tableRefs_le_refs ht a
    have := rootRefs_pos hm
    omega
  · have hne : b ≠ p := fun he => hb (he ▸ hp)
    have := tableRefs_pos hj
    have := tableRefs_add_le_refs hne ht hu a
    omega

theorem Owned.tail {a : Addr} {P : List Addr} (ho : Owned h R (a :: P)) : Owned h R P := ho.2.2.2

theorem Owned.roots_mono {P : List Addr} (hr : R ⊆ Q) (ho : Owned h R P) : Owned h Q P := by
  induction P with
  | nil => trivial
  | cons a P ih => exact ⟨ho.1, ho.2.1, ho.2.2.1.mono hr (List.Subset.refl _), ih ho.tail⟩

theorem Owned.rc_one {P : List Addr} (ho : Owned h R P) {a : Addr} (ha : a ∈ P) : h.rc a = 1 := by
  induction P with
  | nil => simp at ha
  | cons p P ih =>
    rcases List.mem_cons.mp ha with rfl | ha
    · exact ho.1
    · exact ih ho.tail ha

theorem Owned.live {P : List Addr} (ho : Owned h R P) {a : Addr} (ha : a ∈ P) :
    ∃ t, h.table? a = some t :=
  table?_of_rc (by rw [ho.rc_one ha]; omega)

theorem Owned.holder {d : Addr} {P : List Addr} (ho : Owned h R (d :: P)) {a : Addr}
    (ha : a ∈ d :: P) : Holder h R P a := by
  induction P generalizing d with
  | nil =>
    rw [List.mem_singleton.mp ha]
    exact ho.2.2.1
  | cons p P ih =>
    rcases List.mem_cons.mp ha with rfl | ha
    · exact ho.2.2.1
    · exact (ih ho.tail ha).mono (List.Subset.refl _) (List.subset_cons_self _ _)

/-- Nothing but the path itself points into the path. -/
theorem Owned.unheld {d b : Addr} {P : List Addr} {t : Table κ (Val σ)} {k : κ} {a : Addr}
    (hs : Sound h R) (ho : Owned h R (d :: P)) (hb : b ∉ P) (ht : h.table? b = some t)
    (hk : (k, Val.ref a) ∈ t) : a ∉ d :: P := by
  intro ha
  have := (ho.holder ha).counted_two hb ht hk
  have := hs.counted a
  have := ho.rc_one ha
  omega

/-- A private child of the deepest table extends the path. -/
theorem Owned.child {d c : Addr} {P : List Addr} {t : Table κ (Val σ)} {k : κ} (hs : Sound h R)
    (ho : Owned h R (d :: P)) (ht : h.table? d = some t) (hk : (k, Val.ref c) ∈ t)
    (hc : h.rc c = 1) : Owned h R (c :: d :: P) :=
  ⟨hc, ho.unheld hs ho.2.1 ht hk, Or.inr ⟨d, List.mem_cons_self, t, k, ht, hk⟩, ho⟩

/-- A root of its own starts below the path as well as any child. -/
theorem Owned.root {n : Addr} {P : List Addr} (hs : Sound h (.ref n :: R)) (ho : Owned h R P)
    (hn : h.rc n = 1) : Owned h (.ref n :: R) (n :: P) := by
  refine ⟨hn, ?_, Or.inl List.mem_cons_self, ho.roots_mono (List.subset_cons_self _ _)⟩
  intro hm
  have hc := hs.counted n
  simp only [rootRefs_cons, Val.holds_ref_self] at hc
  cases P with
  | nil => simp at hm
  | cons d P =>
    have := (ho.holder hm).counted
    omega

/-- What the holders around a path can see without going through it. -/
inductive Outside (h : Heap κ σ) (R : List (Val σ)) (P : List Addr) (d : Addr) : Addr → Prop where
  | root {b : Addr} (hm : .ref b ∈ R) (hb : b ∉ d :: P) : Outside h R P d b
  | sibling {p b : Addr} {t : Table κ (Val σ)} {k : κ} (hp : p ∈ P) (ht : h.table? p = some t)
      (hk : (k, Val.ref b) ∈ t) (hb : b ∉ d :: P) : Outside h R P d b
  | child {c b : Addr} {t : Table κ (Val σ)} {k : κ} (hc : Outside h R P d c)
      (ht : h.table? c = some t) (hk : (k, Val.ref b) ∈ t) : Outside h R P d b

theorem Outside.not_mem {P : List Addr} {d b : Addr} (hs : Sound h R) (ho : Owned h R (d :: P))
    (hb : Outside h R P d b) : b ∉ d :: P := by
  induction hb with
  | root _ hb => exact hb
  | sibling _ _ _ hb => exact hb
  | child _ ht hk ih => exact ho.unheld hs (fun hm => ih (List.mem_cons_of_mem _ hm)) ht hk

theorem Outside.live {P : List Addr} {d b : Addr} (hs : Sound h R) (hb : Outside h R P d b) :
    ∃ t, h.table? b = some t := by
  cases hb with
  | root hm _ => exact hs.root_live hm
  | sibling _ ht hk _ => exact hs.child_live ht hk
  | child _ ht hk => exact hs.child_live ht hk

/-- What one operation at the end of a private path leaves alone. -/
structure Frame (h h' : Heap κ σ) (R : List (Val σ)) (P : List Addr) (d : Addr) : Prop where
  table : ∀ p ∈ P, h'.table? p = h.table? p
  rc : ∀ p ∈ d :: P, h'.rc p = h.rc p
  outside : ∀ b, Outside h R P d b → h'.table? b = h.table? b

theorem Frame.refl (h : Heap κ σ) (R : List (Val σ)) (P : List Addr) (d : Addr) :
    Frame h h R P d :=
  ⟨fun _ _ => rfl, fun _ _ => rfl, fun _ _ => rfl⟩

theorem Frame.step {P : List Addr} {d b : Addr} (f : Frame h h' R P d)
    (hb : Outside h R P d b) : Outside h' R P d b := by
  induction hb with
  | root hm hb => exact .root hm hb
  | sibling hp ht hk hb => exact .sibling hp (by rw [f.table _ hp, ht]) hk hb
  | child hc ht hk ih => exact .child ih (by rw [f.outside _ hc, ht]) hk

theorem Frame.trans {P : List Addr} {d : Addr} (f : Frame h h₁ R P d) (g : Frame h₁ h' R P d) :
    Frame h h' R P d where
  table p hp := (g.table p hp).trans (f.table p hp)
  rc p hp := (g.rc p hp).trans (f.rc p hp)
  outside b hb := (g.outside b (f.step hb)).trans (f.outside b hb)

theorem Frame.holder {P P' : List Addr} {d a : Addr} (f : Frame h h' R P d) (hp : P' ⊆ P)
    (ho : Holder h R P' a) : Holder h' R P' a := by
  rcases ho with hm | ⟨p, hpm, t, k, ht, hk⟩
  · exact Or.inl hm
  · exact Or.inr ⟨p, hpm, t, k, by rw [f.table p (hp hpm), ht], hk⟩

theorem Frame.owned {P : List Addr} {d : Addr} (f : Frame h h' R P d)
    (ho : Owned h R (d :: P)) : Owned h' R (d :: P) := by
  suffices hsub : ∀ P', P' ⊆ P → Owned h R P' → Owned h' R P' by
    refine ⟨?_, ho.2.1, f.holder (List.Subset.refl _) ho.2.2.1, hsub P (List.Subset.refl _) ho.tail⟩
    rw [f.rc d List.mem_cons_self]
    exact ho.1
  intro P' hp hP
  induction P' with
  | nil => trivial
  | cons p P' ih =>
    obtain ⟨hpm, hp'⟩ := List.cons_subset.mp hp
    refine ⟨?_, hP.2.1, f.holder hp' hP.2.2.1, ih hp' hP.tail⟩
    rw [f.rc p (List.mem_cons_of_mem _ hpm)]
    exact hP.1

/-- A private child of `d`, or a root of its own, is out of sight of the other holders. -/
theorem Owned.hidden_child {d c : Addr} {P : List Addr} {t : Table κ (Val σ)} {k : κ}
    (hs : Sound h R) (ho : Owned h R (d :: P)) (ht : h.table? d = some t)
    (hk : (k, Val.ref c) ∈ t) (hc : h.rc c = 1) : ¬ Outside h R P d c := by
  intro hb
  have hcount := hs.counted c
  have hpos := tableRefs_pos hk
  cases hb with
  | root hm _ =>
    have := rootRefs_pos hm
    have := tableRefs_le_refs ht c
    omega
  | @sibling p _ u j hp hu hj _ =>
    have hne : p ≠ d := fun he => ho.2.1 (he ▸ hp)
    have := tableRefs_pos hj
    have := tableRefs_add_le_refs hne hu ht c
    omega
  | @child e _ u j he hu hj =>
    have hne : e ≠ d := fun h' => he.not_mem hs ho (h' ▸ List.mem_cons_self)
    have := tableRefs_pos hj
    have := tableRefs_add_le_refs hne hu ht c
    omega

theorem Sound.hidden_root {n d : Addr} {P : List Addr} (hs : Sound h (.ref n :: R))
    (hn : h.rc n = 1) : ¬ Outside h R P d n := by
  intro hb
  have hcount := hs.counted n
  simp only [rootRefs_cons, Val.holds_ref_self] at hcount
  cases hb with
  | root hm _ =>
    have := rootRefs_pos hm
    omega
  | sibling _ ht hk _ =>
    have := tableRefs_pos hk
    have := tableRefs_le_refs ht n
    omega
  | child _ ht hk =>
    have := tableRefs_pos hk
    have := tableRefs_le_refs ht n
    omega

theorem Outside.deeper {P : List Addr} {d c b : Addr} (hr : R ⊆ Q) (hs : Sound h R)
    (ho : Owned h R (d :: P)) (hc : ¬ Outside h R P d c) (hb : Outside h R P d b) :
    Outside h Q (d :: P) c b := by
  have hne : ∀ b, Outside h R P d b → b ∉ c :: d :: P := by
    intro b hb hm
    rcases List.mem_cons.mp hm with rfl | hm
    · exact hc hb
    · exact hb.not_mem hs ho hm
  induction hb with
  | root hm hb => exact .root (hr hm) (hne _ (.root hm hb))
  | sibling hp ht hk hb =>
    exact .sibling (List.mem_cons_of_mem _ hp) ht hk (hne _ (.sibling hp ht hk hb))
  | child hc' ht hk ih => exact .child ih ht hk

/-- Work below a table, on a child or on a root apart, is framed for the table itself. -/
theorem Frame.lift {P : List Addr} {d c : Addr} (hr : R ⊆ Q) (hs : Sound h R)
    (ho : Owned h R (d :: P)) (hc : ¬ Outside h R P d c) (f : Frame h h' Q (d :: P) c) :
    Frame h h' R P d where
  table p hp := f.table p (List.mem_cons_of_mem _ hp)
  rc p hp := f.rc p (List.mem_cons_of_mem _ hp)
  outside b hb := f.outside b (hb.deeper hr hs ho hc)

/-- Shedding cells keeps what is still held. -/
theorem Sheds.keeps {a : Addr} (s : Sheds h h') (hs' : Sound h' R)
    (hl : 0 < h'.refs a + rootRefs R a) : ∃ t, h'.table? a = some t ∧ h.table? a = some t := by
  have := hs'.counted a
  obtain ⟨t, ht⟩ := table?_of_rc (h := h') (a := a) (by omega)
  exact ⟨t, ht, s.table a t ht⟩

theorem Sheds.owned {P : List Addr} (s : Sheds h h') (hs' : Sound h' R) (ho : Owned h R P) :
    Owned h' R P ∧ ∀ p ∈ P, h'.table? p = h.table? p := by
  induction P with
  | nil => exact ⟨trivial, by simp⟩
  | cons a P ih =>
    obtain ⟨hP, htab⟩ := ih ho.tail
    have hh : Holder h' R P a := by
      rcases ho.2.2.1 with hm | ⟨p, hp, t, k, ht, hk⟩
      · exact Or.inl hm
      · exact Or.inr ⟨p, hp, t, k, by rw [htab p hp, ht], hk⟩
    obtain ⟨t, ht', ht⟩ := s.keeps hs' hh.counted
    have hrc : h'.rc a = 1 := by
      have := hh.counted
      have := hs'.counted a
      have := s.rc a
      have := ho.1
      omega
    refine ⟨⟨hrc, ho.2.1, hh, hP⟩, ?_⟩
    intro p hp
    rcases List.mem_cons.mp hp with rfl | hp
    · rw [ht, ht']
    · exact htab p hp

theorem Sheds.frame {P : List Addr} {d : Addr} (s : Sheds h h') (hs' : Sound h' R)
    (ho : Owned h R (d :: P)) : Frame h h' R P d := by
  obtain ⟨ho', htab⟩ := s.owned hs' ho
  have hkeep : ∀ b, Outside h R P d b → Outside h' R P d b ∧ h'.table? b = h.table? b := by
    intro b hb
    induction hb with
    | root hm hb =>
      obtain ⟨t, ht', ht⟩ := s.keeps hs' (Holder.counted (P := []) (Or.inl hm))
      exact ⟨.root hm hb, by rw [ht, ht']⟩
    | sibling hp ht hk hb =>
      have hp' := htab _ (List.mem_cons_of_mem _ hp)
      rw [ht] at hp'
      obtain ⟨u, hu', hu⟩ := s.keeps hs' (Holder.counted (Or.inr ⟨_, hp, _, _, hp', hk⟩))
      exact ⟨.sibling hp hp' hk hb, by rw [hu, hu']⟩
    | child _ ht hk ih =>
      obtain ⟨hc, he⟩ := ih
      rw [ht] at he
      obtain ⟨u, hu', hu⟩ := s.keeps hs' (Holder.counted
        (Or.inr ⟨_, List.mem_singleton_self _, _, _, he, hk⟩))
      exact ⟨.child hc he hk, by rw [hu, hu']⟩
  refine ⟨fun p hp => htab p (List.mem_cons_of_mem _ hp), ?_, fun b hb => (hkeep b hb).2⟩
  intro p hp
  rw [ho'.rc_one hp, ho.rc_one hp]

/-- All the tables there were, but the one at `d`, are as before or given back. -/
structure Spares (h h' : Heap κ σ) (d : Addr) : Prop where
  size : h.size ≤ h'.size
  table : ∀ a t, a < h.size → a ≠ d → h'.table? a = some t → h.table? a = some t

section
variable {d : Addr}

theorem Spares.refl (h : Heap κ σ) (d : Addr) : Spares h h d :=
  ⟨Nat.le_refl _, fun _ _ _ _ ht => ht⟩

theorem Spares.trans (s : Spares h h₁ d) (r : Spares h₁ h' d) : Spares h h' d := by
  refine ⟨Nat.le_trans s.size r.size, fun a t ha hd ht => ?_⟩
  exact s.table a t ha hd (r.table a t (Nat.lt_of_lt_of_le ha s.size) hd ht)

/-- Work on a table that was not there. -/
theorem Spares.fresh {c : Addr} (s : Spares h h₁ d) (r : Spares h₁ h' c) (hc : h.size ≤ c) :
    Spares h h' d := by
  refine ⟨Nat.le_trans s.size r.size, fun a t ha hd ht => ?_⟩
  have hne : a ≠ c := Nat.ne_of_lt (Nat.lt_of_lt_of_le ha hc)
  exact s.table a t ha hd (r.table a t (Nat.lt_of_lt_of_le ha s.size) hne ht)

theorem Spares.kept_or_freed {a : Addr} {t : Table κ (Val σ)} (s : Spares h h' d)
    (ht : h.table? a = some t) (hd : a ≠ d) : h'.table? a = some t ∨ h'.table? a = none := by
  obtain ⟨c, hc, _⟩ := cell?_of_table? ht
  cases ht' : h'.table? a with
  | none => exact Or.inr rfl
  | some t' =>
    rw [← ht, s.table a t' (lt_size hc) hd ht']
    exact Or.inl rfl

theorem Sheds.spares (s : Sheds h h') (hs : h'.size = h.size) (d : Addr) : Spares h h' d :=
  ⟨Nat.le_of_eq hs.symm, fun a t _ _ ht => s.table a t ht⟩

theorem spares_alloc (h : Heap κ σ) (d : Addr) : Spares h h.alloc.2 d := by
  refine ⟨by simp [Heap.alloc], fun a t ha _ ht => ?_⟩
  rw [← (table?_eq_of_cell? (cell?_push_other ⟨1, []⟩ (Nat.ne_of_lt ha))).1]
  exact ht

theorem size_addRef (h : Heap κ σ) (v : Val σ) : (h.addRef v).size = h.size := by
  cases v with
  | scalar s => rfl
  | ref a => cases hc : h.cell? a <;> simp [addRef, hc]

theorem spares_addRef (h : Heap κ σ) (v : Val σ) (d : Addr) : Spares h (h.addRef v) d := by
  refine ⟨Nat.le_of_eq (size_addRef h v).symm, fun a t _ _ ht => ?_⟩
  rwa [table?_addRef] at ht

variable [DecidableEq κ]

theorem spares_write (h : Heap κ σ) (d : Addr) (k : κ) (v : Val σ) :
    Spares h (h.write d k v) d := by
  refine ⟨?_, fun a t _ hd ht => by rwa [table?_write_other hd] at ht⟩
  cases hc : h.cell? d <;> simp [write, hc]

theorem spares_put (h : Heap κ σ) (d : Addr) (k : κ) (v : Val σ) : Spares h (h.put d k v) d := by
  have hw := spares_write h d k v
  unfold put
  cases h.slot? d k with
  | none => exact hw
  | some old =>
    exact hw.trans ((sheds_release h.size _ old).spares (size_release h.size _ old) d)

end

end Base.Heap
