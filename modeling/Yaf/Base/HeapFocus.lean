import Yaf.Base.HeapFrame

namespace Base.Heap

variable {κ σ : Type} [DecidableEq κ] [DecidableEq σ]
variable {h h' h₁ : Heap κ σ} {R : List (Val σ)} {P : List Addr} {d : Addr}
variable {es es' : List (κ × Nest κ σ)}

/-- A sound heap seen from the end of a private path: the table there and what it reads. -/
structure Focus (h : Heap κ σ) (R : List (Val σ)) (P : List Addr) (d : Addr)
    (es : List (κ × Nest κ σ)) : Prop where
  sound : Sound h R
  owned : Owned h R (d :: P)
  reads : h.reads (.node es) (.ref d) = true

/-- One operation at the end of a private path: framed, and the table there reads as `es`. -/
structure Becomes (h h' : Heap κ σ) (R : List (Val σ)) (P : List Addr) (d : Addr)
    (es : List (κ × Nest κ σ)) : Prop where
  frame : Frame h h' R P d
  focus : Focus h' R P d es

theorem Focus.becomes (f : Focus h R P d es) : Becomes h h R P d es := ⟨.refl h R P d, f⟩

theorem Becomes.trans (b : Becomes h h₁ R P d es) (c : Becomes h₁ h' R P d es') :
    Becomes h h' R P d es' := ⟨b.frame.trans c.frame, c.focus⟩

theorem Focus.table (f : Focus h R P d es) :
    ∃ t, h.table? d = some t ∧ h.readsTable es t = true := by
  obtain ⟨a, t, ha, ht, hr⟩ := reads_node.mp f.reads
  rw [← Val.ref.inj ha] at ht
  exact ⟨t, ht, hr⟩

/-- Heaps that only grow read what they read before. -/
theorem reads_grow {u : Nest κ σ} {v : Val σ}
    (hg : ∀ a t, h.table? a = some t → h'.table? a = some t) (hr : h.reads u v = true) :
    h'.reads u v = true :=
  reads_transfer (P := fun _ => True) (fun _ _ _ _ _ _ _ => trivial) (fun a t _ => hg a t) u v
    (fun _ _ => trivial) hr

theorem Frame.reads {u : Nest κ σ} {v : Val σ} (f : Frame h h' R P d)
    (hv : ∀ a, v = .ref a → Outside h R P d a) (hr : h.reads u v = true) :
    h'.reads u v = true :=
  reads_transfer (P := Outside h R P d) (fun _ _ _ _ ha ht hk => .child ha ht hk)
    (fun a t ha ht => by rw [f.outside a ha, ht]) u v hv hr

/-- What is still held reads as before once cells are shed. -/
theorem Sheds.reads {u : Nest κ σ} {a : Addr} {t : Table κ (Val σ)} (s : Sheds h h')
    (hs : Sound h' R) (ha : h'.table? a = some t) (hr : h.reads u (.ref a) = true) :
    h'.reads u (.ref a) = true := by
  refine reads_transfer (P := fun b => ∃ t, h'.table? b = some t) ?_ ?_ u (.ref a) ?_ hr
  · rintro b x k c ⟨y, hy⟩ hx hk
    have he := s.table b y hy
    rw [hx, Option.some.injEq] at he
    exact hs.child_live (he ▸ hy) hk
  · rintro b x ⟨y, hy⟩ hx
    have he := s.table b y hy
    rw [hx, Option.some.injEq] at he
    rw [hy, he]
  · rintro b hb
    exact ⟨t, Val.ref.inj hb ▸ ha⟩

omit [DecidableEq κ] [DecidableEq σ] in
theorem table?_push {a : Addr} {t : Table κ (Val σ)} (c : Cell κ σ) (ht : h.table? a = some t) :
    (h.push c).table? a = some t := by
  have hne : a ≠ h.size := by
    obtain ⟨x, hx, _⟩ := cell?_of_table? ht
    exact Nat.ne_of_lt (lt_size hx)
  rw [(table?_eq_of_cell? (cell?_push_other c hne)).1, ht]

omit [DecidableEq κ] [DecidableEq σ] in
theorem rc_push {a : Addr} (c : Cell κ σ) (ht : 0 < h.rc a) : (h.push c).rc a = h.rc a := by
  obtain ⟨t, ht⟩ := table?_of_rc ht
  have hne : a ≠ h.size := by
    obtain ⟨x, hx, _⟩ := cell?_of_table? ht
    exact Nat.ne_of_lt (lt_size hx)
  exact (table?_eq_of_cell? (cell?_push_other c hne)).2

omit [DecidableEq κ] [DecidableEq σ] in
theorem frame_push (c : Cell κ σ) (hs : Sound h R) (ho : Owned h R (d :: P)) :
    Frame h (h.push c) R P d where
  table p hp := by
    obtain ⟨t, ht⟩ := ho.live (List.mem_cons_of_mem _ hp)
    rw [table?_push c ht, ht]
  rc p hp := rc_push c (by rw [ho.rc_one hp]; omega)
  outside b hb := by
    obtain ⟨t, ht⟩ := hb.live hs
    rw [table?_push c ht, ht]

omit [DecidableEq κ] [DecidableEq σ] in
theorem frame_addRef {v : Val σ} (hv : ∀ a, v = .ref a → a ∉ d :: P) :
    Frame h (h.addRef v) R P d where
  table _ _ := table?_addRef _ _
  rc p hp := rc_addRef fun he => hv p he hp
  outside _ _ := table?_addRef _ _

omit [DecidableEq κ] [DecidableEq σ] in
theorem frame_addRefs {t : Table κ (Val σ)} (ht : ∀ k a, (k, Val.ref a) ∈ t → a ∉ d :: P) :
    Frame h (h.addRefs t) R P d where
  table _ _ := table?_addRefs _ _
  rc p hp := rc_addRefs fun k hk => ht k p hk hp
  outside _ _ := table?_addRefs _ _

/-- A new empty table is a root of its own below the path. -/
theorem Focus.alloc (f : Focus h R P d es) :
    Becomes h h.alloc.2 R P d es ∧ Focus h.alloc.2 (.ref h.alloc.1 :: R) (d :: P) h.alloc.1 [] := by
  have fr : Frame h h.alloc.2 R P d := frame_push _ f.sound f.owned
  have hs := f.sound.alloc
  have ho := fr.owned f.owned
  have hn : h.alloc.2.table? h.alloc.1 = some [] := table?_of_cell? (cell?_push_self _)
  refine ⟨⟨fr, hs.drop_root, ho, reads_grow (fun a t ht => table?_push _ ht) f.reads⟩, hs, ?_, ?_⟩
  · exact ho.root hs (rc_of_cell? (cell?_push_self _))
  · rw [reads_node_ref hn]
    rfl

/-- Moving a root into a slot of the table at the end of the path. -/
theorem Focus.put {v : Val σ} {u : Nest κ σ} (f : Focus h R P d es) (hs : Sound h (v :: R))
    (hv : ∀ a, v = .ref a → a ∉ d :: P) (hr : h.reads u v = true) (k : κ) :
    Becomes h (h.put d k v) R P d (Table.update es k u) ∧
      (∀ t, h.table? d = some t → (h.put d k v).table? d = some (Table.update t k v)) ∧
      ∀ a, (h.put d k v).rc a ≤ h.rc a := by
  obtain ⟨t, ht, hrt⟩ := f.table
  obtain ⟨hs', sh⟩ := hs.put ht k
  have hw : Frame h (h.write d k v) R P d := by
    refine ⟨fun p hp => ?_, fun p _ => rc_write d p k v, fun b hb => ?_⟩
    · exact table?_write_other (fun he : p = d => f.owned.2.1 (he ▸ hp)) k v
    · refine table?_write_other (fun he => ?_) k v
      exact hb.not_mem f.sound f.owned (he ▸ List.mem_cons_self)
  have ho := hw.owned f.owned
  have fr := hw.trans (sh.frame hs' ho)
  -- nothing outside the path points into it, so only the slot itself reads differently
  have hsame : ∀ u w, (∀ a, w = Val.ref a → a ∉ d :: P) → h.reads u w = true →
      (h.write d k v).reads u w = true := by
    intro u w hw hu
    refine reads_transfer (P := fun a => a ∉ d :: P) ?_ ?_ u w hw hu
    · intro a x j b ha hx hj
      exact f.owned.unheld f.sound (fun hm => ha (List.mem_cons_of_mem _ hm)) hx hj
    · intro a x ha hx
      rw [table?_write_other (fun he : a = d => ha (he ▸ List.mem_cons_self)), hx]
  have hread : (h.write d k v).reads (.node (Table.update es k u)) (.ref d) = true := by
    rw [reads_node_ref (table?_write_self ht k v)]
    refine readsTable_update hrt (fun j x y _ hm hy => hsame y x ?_ hy) (f.sound.keyed d t ht)
      (hsame u v hv hr)
    rintro a rfl
    exact f.owned.unheld f.sound f.owned.2.1 ht hm
  obtain ⟨hd, htab⟩ := sh.owned hs' ho
  have htd : (h.put d k v).table? d = some (Table.update t k v) := by
    rw [htab d List.mem_cons_self, table?_write_self ht]
  refine ⟨⟨fr, hs', hd, sh.reads hs' htd hread⟩, ?_, ?_⟩
  · intro x hx
    rw [ht, Option.some.injEq] at hx
    rw [htd, hx]
  · intro a
    have := sh.rc a
    rwa [rc_write] at this

/-- Taking a slot out of the table at the end of the path. -/
theorem Focus.erase (f : Focus h R P d es) (k : κ) :
    Becomes h (h.erase d k) R P d (Table.erase es k) := by
  obtain ⟨t, ht, hrt⟩ := f.table
  rcases readsTable_find? hrt k with ⟨he, hk⟩ | ⟨u, old, he, hk, hu⟩
  · have hsame : h.erase d k = h := by rw [Heap.erase, slot?_eq ht, hk]
    rw [hsame, Table.erase_of_find?_none he]
    exact f.becomes
  · obtain ⟨hs', sh⟩ := f.sound.erase ht hk
    have hw : Frame h (h.remove d k) R P d := by
      refine ⟨fun p hp => ?_, fun p _ => rc_remove d p k, fun b hb => ?_⟩
      · exact table?_remove_other (fun he : p = d => f.owned.2.1 (he ▸ hp)) k
      · refine table?_remove_other (fun he => ?_) k
        exact hb.not_mem f.sound f.owned (he ▸ List.mem_cons_self)
    have ho := hw.owned f.owned
    have hread : (h.remove d k).reads (.node (Table.erase es k)) (.ref d) = true := by
      rw [reads_node_ref (table?_remove_self ht k)]
      refine readsTable_erase hrt fun j x y hm hy => ?_
      refine reads_transfer (P := fun a => a ∉ d :: P) ?_ ?_ y x ?_ hy
      · intro a z i b ha hz hi
        exact f.owned.unheld f.sound (fun hm => ha (List.mem_cons_of_mem _ hm)) hz hi
      · intro a z ha hz
        rw [table?_remove_other (fun he : a = d => ha (he ▸ List.mem_cons_self)), hz]
      · rintro a rfl
        exact f.owned.unheld f.sound f.owned.2.1 ht hm
    obtain ⟨hd, htab⟩ := sh.owned hs' ho
    have htd : (h.erase d k).table? d = some (Table.erase t k) := by
      rw [htab d List.mem_cons_self, table?_remove_self ht]
    exact ⟨hw.trans (sh.frame hs' ho), hs', hd, sh.reads hs' htd hread⟩

/-- A slot that holds a private table. -/
def PrivateSlot (h : Heap κ σ) (d : Addr) (k : κ) (c : Addr) : Prop :=
  ∃ t, h.table? d = some t ∧ Table.find? t k = some (.ref c) ∧ h.rc c ≤ 1

/-- Seen from a root of its own, the entries of the table before it are outside. -/
theorem Focus.outside_entry {n a : Addr} {t : Table κ (Val σ)} {k : κ}
    (f : Focus h (.ref n :: R) (d :: P) n es) (ht : h.table? d = some t)
    (hk : (k, Val.ref a) ∈ t) : Outside h (.ref n :: R) (d :: P) n a := by
  refine .sibling List.mem_cons_self ht hk fun hin => ?_
  rcases List.mem_cons.mp hin with rfl | hin
  · have := Holder.counted_two (R := .ref a :: R) (P := []) (Or.inl List.mem_cons_self) (by simp)
      ht hk
    have := f.sound.counted a
    have := f.owned.1
    omega
  · exact f.owned.tail.unheld f.sound f.owned.tail.2.1 ht hk hin

theorem Focus.outside_deeper {n a : Addr} (f : Focus h R P d es)
    (hn : Focus h (.ref n :: R) (d :: P) n es') (ha : Outside h R P d a) :
    Outside h (.ref n :: R) (d :: P) n a :=
  ha.deeper (List.subset_cons_self _ R) f.sound f.owned (hn.sound.hidden_root hn.owned.1)

/-- The private table in a slot is the next focus. -/
theorem Focus.child {c : Addr} {k : κ} {s : List (κ × Nest κ σ)} (f : Focus h R P d es)
    (hp : PrivateSlot h d k c) (he : Table.find? es k = some (.node s)) :
    Focus h R (d :: P) c s := by
  obtain ⟨t, ht, hk, hc⟩ := hp
  have hm := Table.mem_of_find? hk
  have hone : h.rc c = 1 := Nat.le_antisymm hc (f.sound.child_rc ht hm)
  refine ⟨f.sound, f.owned.child f.sound ht hm hone, ?_⟩
  obtain ⟨t', ht', hrt⟩ := f.table
  obtain rfl := Option.some.inj (ht.symm.trans ht')
  exact readsTable_at hrt he hk

/-- Work on the private table in a slot, seen from the table that has the slot. -/
theorem Focus.up {c : Addr} {k : κ} (f : Focus h R P d es) (hp : PrivateSlot h d k c)
    (b : Becomes h h' R (d :: P) c es') :
    Becomes h h' R P d (Table.update es k (.node es')) := by
  obtain ⟨t, ht, hk, hc⟩ := hp
  have hm := Table.mem_of_find? hk
  have hone : h.rc c = 1 := Nat.le_antisymm hc (f.sound.child_rc ht hm)
  obtain ⟨t', ht', hrt⟩ := f.table
  obtain rfl := Option.some.inj (ht.symm.trans ht')
  have fr := Frame.lift (List.Subset.refl R) f.sound f.owned
    (f.owned.hidden_child f.sound ht hm hone) b.frame
  refine ⟨fr, b.focus.sound, b.focus.owned.tail, ?_⟩
  rw [reads_node_ref (by rw [b.frame.table d List.mem_cons_self, ht])]
  have hup := readsTable_update (k := k) (w := .ref c) hrt ?_ (f.sound.keyed d t ht) b.focus.reads
  · rwa [Table.update_find? hk] at hup
  · intro j x y hj hx hy
    refine b.frame.reads ?_ hy
    rintro a rfl
    refine .sibling List.mem_cons_self ht hx ?_
    intro hin
    rcases List.mem_cons.mp hin with rfl | hin
    · have := tableRefs_two hx hm hj
      have := tableRefs_le_refs ht a
      have := f.sound.counted a
      omega
    · exact f.owned.unheld f.sound f.owned.2.1 ht hx hin

/-- Work on a root of its own leaves the path as it reads. -/
theorem Focus.apart {n : Addr} (f : Focus h R P d es) (hn : Focus h (.ref n :: R) (d :: P) n es')
    {es'' : List (κ × Nest κ σ)} (b : Becomes h h' (.ref n :: R) (d :: P) n es'') :
    Becomes h h' R P d es := by
  have fr := Frame.lift (List.subset_cons_self _ R) f.sound f.owned
    (hn.sound.hidden_root (hn.owned.1)) b.frame
  obtain ⟨t, ht, hrt⟩ := f.table
  refine ⟨fr, b.focus.sound.drop_root, fr.owned f.owned, ?_⟩
  rw [reads_node_ref (by rw [b.frame.table d List.mem_cons_self, ht])]
  refine readsTable_congr hrt fun j x y hx hy => b.frame.reads ?_ hy
  rintro a rfl
  exact hn.outside_entry ht hx

/-- Hold a value seen from outside once more, and put it into a slot. -/
theorem Focus.share {v : Val σ} {u : Nest κ σ} (f : Focus h R P d es)
    (hv : ∀ a, v = .ref a → Outside h R P d a) (hr : h.reads u v = true) (k : κ) :
    Becomes h ((h.addRef v).put d k v) R P d (Table.update es k u) := by
  have hv' : ∀ a, v = .ref a → a ∉ d :: P := fun a ha => (hv a ha).not_mem f.sound f.owned
  have fr : Frame h (h.addRef v) R P d := frame_addRef hv'
  have hs := f.sound.addRef v fun a ha => (hv a ha).live f.sound
  have hg : ∀ a t, h.table? a = some t → (h.addRef v).table? a = some t := fun a t ht => by
    rw [table?_addRef, ht]
  have f' : Focus (h.addRef v) R P d es :=
    ⟨hs.drop_root, fr.owned f.owned, reads_grow hg f.reads⟩
  have hb := (f'.put hs hv' (reads_grow hg hr) k).1
  exact ⟨fr.trans hb.frame, hb.focus⟩

/-- A new empty table in a slot. -/
theorem Focus.fresh (f : Focus h R P d es) (k : κ) :
    Becomes h (h.alloc.2.put d k (.ref h.alloc.1)) R P d (Table.update es k (.node [])) ∧
      PrivateSlot (h.alloc.2.put d k (.ref h.alloc.1)) d k h.alloc.1 := by
  obtain ⟨hb, hn⟩ := f.alloc
  obtain ⟨hp, htab, hrc⟩ := hb.focus.put hn.sound
    (fun a ha => Val.ref.inj ha ▸ hn.owned.2.1) hn.reads k
  obtain ⟨t, ht, _⟩ := hb.focus.table
  refine ⟨⟨hb.frame.trans hp.frame, hp.focus⟩, _, htab t ht, by simp, ?_⟩
  exact Nat.le_trans (hrc _) (Nat.le_of_eq hn.owned.1)

/-- After separation the slot holds a private table that reads as before. -/
theorem Focus.separate {c : Addr} {t : Table κ (Val σ)} {k : κ} (f : Focus h R P d es)
    (ht : h.table? d = some t) (hk : Table.find? t k = some (.ref c))
    (he : Table.find? es k = some (.node es')) :
    Becomes h (h.separate d k c).2 R P d es ∧
      PrivateSlot (h.separate d k c).2 d k (h.separate d k c).1 := by
  unfold Heap.separate
  split
  · have hm := Table.mem_of_find? hk
    obtain ⟨x, hx⟩ := f.sound.child_live ht hm
    simp only [hx, Option.getD_some]
    have hin : ∀ j a, (j, Val.ref a) ∈ x → a ∉ d :: P := fun j a hj =>
      f.owned.unheld f.sound
        (fun hc => f.owned.unheld f.sound f.owned.2.1 ht hm (List.mem_cons_of_mem _ hc)) hx hj
    have hs₀ := f.sound.addRefs x fun _ _ hj => f.sound.child_live hx hj
    have fr₀ : Frame h (h.addRefs x) R P d := frame_addRefs hin
    have hs₁ := f.sound.dup hx
    have fr : Frame h (h.dup x).2 R P d :=
      fr₀.trans (frame_push _ ⟨fun a => by
        have := hs₀.counted a
        rw [rootRefs_append] at this
        omega, hs₀.keyed⟩ (fr₀.owned f.owned))
    have hg : ∀ a y, h.table? a = some y → (h.dup x).2.table? a = some y := fun a y hy =>
      table?_push _ (by rw [table?_addRefs, hy])
    have f₁ : Focus (h.dup x).2 R P d es := ⟨hs₁.drop_root, fr.owned f.owned, reads_grow hg f.reads⟩
    have hn : (h.dup x).2.table? (h.dup x).1 = some x := table?_of_cell? (cell?_push_self _)
    have hr : (h.dup x).2.reads (.node es') (.ref (h.dup x).1) = true := by
      obtain ⟨t', ht', hrt⟩ := f.table
      obtain rfl := Option.some.inj (ht.symm.trans ht')
      have hr := readsTable_at hrt he hk
      rw [reads_node_ref hx] at hr
      rw [reads_node_ref hn]
      exact readsTable_congr hr fun _ _ _ _ => reads_grow hg
    have hfresh : (h.dup x).1 ∉ d :: P := by
      intro hmem
      obtain ⟨y, hy⟩ := f.owned.live hmem
      obtain ⟨z, hz, _⟩ := cell?_of_table? (show (h.addRefs x).table? _ = some y by
        rw [table?_addRefs]; exact hy)
      exact Nat.lt_irrefl _ (lt_size hz)
    obtain ⟨hb, htab, hrc⟩ := f₁.put hs₁ (fun a ha => Val.ref.inj ha ▸ hfresh) hr k
    rw [Table.update_find? he] at hb
    refine ⟨⟨fr.trans hb.frame, hb.focus⟩, _, htab t (hg d t ht), by simp, ?_⟩
    exact Nat.le_trans (hrc _) (Nat.le_of_eq (rc_of_cell? (cell?_push_self _)))
  · rename_i hle
    exact ⟨f.becomes, t, ht, hk, Nat.le_of_not_lt hle⟩

/-- The three things a slot can hold, on both sides. -/
theorem Focus.slot_cases (f : Focus h R P d es) (k : κ) :
    (h.slot? d k = none ∧ Table.find? es k = none) ∨
      (∃ s, h.slot? d k = some (.scalar s) ∧ Table.find? es k = some (.leaf s)) ∨
      ∃ a e, h.slot? d k = some (.ref a) ∧ Table.find? es k = some (.node e) := by
  obtain ⟨t, ht, hrt⟩ := f.table
  rw [slot?_eq ht]
  rcases readsTable_find? hrt k with ⟨he, hw⟩ | ⟨u, w, hu, hw, hr⟩
  · exact Or.inl ⟨hw, he⟩
  · cases u with
    | leaf s =>
      rw [reads_leaf.mp hr] at hw
      exact Or.inr (Or.inl ⟨s, hw, hu⟩)
    | node e =>
      obtain ⟨a, _, rfl, _, _⟩ := reads_node.mp hr
      exact Or.inr (Or.inr ⟨a, e, hw, hu⟩)

theorem Focus.slot?_isSome (f : Focus h R P d es) (k : κ) :
    (h.slot? d k).isSome = (Table.find? es k).isSome := by
  rcases f.slot_cases k with ⟨hs, he⟩ | ⟨s, hs, he⟩ | ⟨a, e, hs, he⟩ <;> rw [hs, he] <;> rfl

theorem Focus.put_scalar (f : Focus h R P d es) (k : κ) (s : σ) :
    Becomes h (h.put d k (.scalar s)) R P d (Table.update es k (.leaf s)) :=
  (f.put (f.sound.add_scalar s) (by simp) (reads_leaf.mpr rfl) k).1

theorem Focus.privateSlot {a : Addr} {k : κ} (f : Focus h R P d es)
    (hk : h.slot? d k = some (.ref a)) (ha : h.rc a ≤ 1) : PrivateSlot h d k a := by
  obtain ⟨t, ht, _⟩ := f.table
  exact ⟨t, ht, by rw [← slot?_eq ht, hk], ha⟩

/-- Separating what a slot holds makes it the next focus. -/
theorem Focus.enter {a : Addr} {k : κ} (f : Focus h R P d es)
    (hk : h.slot? d k = some (.ref a)) (he : Table.find? es k = some (.node es')) :
    Becomes h (h.separate d k a).2 R P d es ∧
      PrivateSlot (h.separate d k a).2 d k (h.separate d k a).1 := by
  obtain ⟨t, ht, _⟩ := f.table
  rw [slot?_eq ht] at hk
  exact f.separate ht hk he

end Base.Heap
