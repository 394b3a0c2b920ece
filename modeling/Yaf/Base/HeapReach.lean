import Yaf.Base.HeapFocus

namespace Base.Heap

variable {κ σ : Type} {h h' h₁ : Heap κ σ}

/-- The addresses met on the way down from one. -/
inductive Reach (h : Heap κ σ) (a : Addr) : Addr → Prop where
  | refl : Reach h a a
  | child {b c : Addr} {t : Table κ (Val σ)} {k : κ} (hb : Reach h a b)
      (ht : h.table? b = some t) (hk : (k, Val.ref c) ∈ t) : Reach h a c

theorem Reach.live {R : List (Val σ)} {a b : Addr} (hs : Sound h R) (ha : ∃ t, h.table? a = some t)
    (hb : Reach h a b) : ∃ t, h.table? b = some t := by
  cases hb with
  | refl => exact ha
  | child _ ht hk => exact hs.child_live ht hk

theorem Outside.reach {R : List (Val σ)} {P : List Addr} {d a b : Addr} (ho : Outside h R P d a)
    (hb : Reach h a b) : Outside h R P d b := by
  induction hb with
  | refl => exact ho
  | child _ ht hk ih => exact ih.child ht hk

theorem table?_alloc_none (h : Heap κ σ) : h.table? h.alloc.1 = none := by
  cases ht : h.table? h.alloc.1 with
  | none => rfl
  | some t =>
    obtain ⟨c, hc, _⟩ := cell?_of_table? ht
    exact absurd (lt_size hc) (Nat.lt_irrefl _)

variable [DecidableEq κ]

theorem slot?_congr {r : Addr} (he : h'.table? r = h.table? r) (k : κ) :
    h'.slot? r k = h.slot? r k := by
  rw [slot?, slot?, he]

/-- Nothing is given back for a slot that holds no table. -/
theorem put_eq_write {a : Addr} {k : κ} (hno : ∀ b, h.slot? a k ≠ some (.ref b)) (v : Val σ) :
    h.put a k v = h.write a k v := by
  unfold put
  cases hs : h.slot? a k with
  | none => rfl
  | some w =>
    cases w with
    | scalar s => cases hsize : h.size <;> rfl
    | ref b => exact absurd hs (hno b)

variable [DecidableEq σ]

mutual

/-- After a write everything that was finite still is. -/
theorem write_reads {a : Addr} {t : Table κ (Val σ)} {k : κ} {v : Val σ} {y : Nest κ σ}
    (ht : h.table? a = some t) (hn : (Table.keys t).Nodup)
    (hv : (h.write a k v).reads y v = true) (u : Nest κ σ) (w : Val σ) (hr : h.reads u w = true) :
    ∃ u', (h.write a k v).reads u' w = true := by
  match u with
  | .leaf s =>
    rw [reads_leaf] at hr
    exact ⟨.leaf s, reads_leaf.mpr hr⟩
  | .node es =>
    obtain ⟨b, x, rfl, hx, hrx⟩ := reads_node.mp hr
    obtain ⟨es', hrx'⟩ := write_readsTable ht hn hv es x hrx
    by_cases hb : b = a
    · subst hb
      obtain rfl := Option.some.inj (ht.symm.trans hx)
      refine ⟨.node (Table.update es' k y), ?_⟩
      rw [reads_node_ref (table?_write_self ht k v)]
      exact readsTable_update hrx' (fun _ _ _ _ _ hy => hy) hn hv
    · refine ⟨.node es', ?_⟩
      rw [reads_node_ref (by rw [table?_write_other hb, hx])]
      exact hrx'

theorem write_readsTable {a : Addr} {t : Table κ (Val σ)} {k : κ} {v : Val σ} {y : Nest κ σ}
    (ht : h.table? a = some t) (hn : (Table.keys t).Nodup)
    (hv : (h.write a k v).reads y v = true) (es : List (κ × Nest κ σ)) (x : Table κ (Val σ))
    (hr : h.readsTable es x = true) : ∃ es', (h.write a k v).readsTable es' x = true := by
  match es with
  | [] =>
    rw [readsTable_nil] at hr
    exact ⟨[], readsTable_nil.mpr hr⟩
  | (j, u) :: es =>
    obtain ⟨w, x', rfl, hu, hx⟩ := readsTable_cons.mp hr
    obtain ⟨u', hu'⟩ := write_reads ht hn hv u w hu
    obtain ⟨es', hes⟩ := write_readsTable ht hn hv es x' hx
    exact ⟨(j, u') :: es', readsTable_cons.mpr ⟨w, x', rfl, hu', hes⟩⟩

end

/-- What a write into table `d` leaves of the entries of the root `r` that do not reach `d`. -/
structure Aside (h h' : Heap κ σ) (r d : Addr) (es es' : List (κ × Nest κ σ)) : Prop where
  focus : Focus h' [.ref r] [] r es'
  root : d ≠ r → h'.table? r = h.table? r
  rc : d ≠ r → ∀ k c, h.slot? r k = some (.ref c) → h'.rc c ≤ h.rc c
  reach : d ≠ r → ∀ k a b, h.slot? r k = some (.ref a) → ¬Reach h a d → Reach h' a b → Reach h a b
  kept : d ≠ r → ∀ k, (∀ a, h.slot? r k = some (.ref a) → ¬Reach h a d) →
    Table.find? es' k = Table.find? es k

section
variable {r d : Addr} {es es' es₁ : List (κ × Nest κ σ)} {k : κ}

theorem Focus.aside_refl (f : Focus h [.ref r] [] r es) (d : Addr) : Aside h h r d es es :=
  ⟨f, fun _ => rfl, fun _ _ _ _ => Nat.le_refl _, fun _ _ _ _ _ _ hb => hb, fun _ _ _ => rfl⟩

/-- A second write goes to the same table or to one that was not there. -/
theorem Aside.trans {d' : Addr} (f : Focus h [.ref r] [] r es) (b : Aside h h₁ r d es es₁)
    (c : Aside h₁ h' r d' es₁ es') (hd : d' = d ∨ h.table? d' = none) : Aside h h' r d es es' := by
  have hne : d ≠ r → d' ≠ r := by
    rintro hdr rfl
    rcases hd with rfl | hnone
    · exact hdr rfl
    · obtain ⟨t, ht, _⟩ := f.table
      simp [ht] at hnone
  have hslot : d ≠ r → ∀ k, h₁.slot? r k = h.slot? r k := fun hdr => slot?_congr (b.root hdr)
  have hmiss : d ≠ r → ∀ k a, h.slot? r k = some (.ref a) → ¬Reach h a d → ¬Reach h₁ a d' := by
    intro hdr k a ha hreach hr
    have hr₀ := b.reach hdr k a d' ha hreach hr
    rcases hd with rfl | hnone
    · exact hreach hr₀
    · obtain ⟨t, ht, _⟩ := f.table
      rw [slot?_eq ht] at ha
      obtain ⟨u, hu⟩ := hr₀.live f.sound (f.sound.child_live ht (Table.mem_of_find? ha))
      simp [hu] at hnone
  refine ⟨c.focus, fun hdr => (c.root (hne hdr)).trans (b.root hdr), ?_, ?_, ?_⟩
  · intro hdr k x hx
    exact Nat.le_trans (c.rc (hne hdr) k x (by rw [hslot hdr, hx])) (b.rc hdr k x hx)
  · intro hdr k a x ha hreach hx
    exact b.reach hdr k a x ha hreach
      (c.reach (hne hdr) k a x (by rw [hslot hdr, ha]) (hmiss hdr k a ha hreach) hx)
  · intro hdr k hk
    refine (c.kept (hne hdr) k fun a ha => ?_).trans (b.kept hdr k hk)
    rw [hslot hdr] at ha
    exact hmiss hdr k a ha (hk a ha)

/-- A value that can be read moves into a slot of any table. -/
theorem Focus.put_aside {v : Val σ} {y : Nest κ σ} {t : Table κ (Val σ)}
    (f : Focus h [.ref r] [] r es) (hs : Sound h [v, .ref r]) (ht : h.table? d = some t)
    (hv : (h.write d k v).reads y v = true) :
    ∃ es', Aside h (h.put d k v) r d es es' := by
  obtain ⟨hs', sh⟩ := hs.put ht k
  obtain ⟨x, hx⟩ := hs'.root_live List.mem_cons_self
  obtain ⟨u, hu⟩ := write_reads ht (f.sound.keyed d t ht) hv _ _ f.reads
  have hread := sh.reads hs' hx hu
  obtain ⟨es', rfl⟩ : ∃ es', u = .node es' := by
    cases u with
    | leaf s => simp [Heap.reads] at hread
    | node es' => exact ⟨es', rfl⟩
  have hsame : ∀ b t', b ≠ d → (h.put d k v).table? b = some t' → h.table? b = some t' := by
    intro b t' hb ht'
    have hw := sh.table b t' ht'
    rwa [table?_write_other hb] at hw
  have hrc : ∀ b, (h.put d k v).rc b ≤ h.rc b := by
    intro b
    have := sh.rc b
    rwa [rc_write] at this
  have hfocus : Focus (h.put d k v) [.ref r] [] r es' := by
    refine ⟨hs', ⟨?_, by simp, Or.inl List.mem_cons_self, trivial⟩, hread⟩
    have hone := f.owned.1
    have hcount := hs'.counted r
    have hle := hrc r
    simp only [rootRefs_cons, Val.holds_ref_self] at hcount
    omega
  have hroot : d ≠ r → (h.put d k v).table? r = h.table? r := fun hdr => by
    rw [hx, hsame r x (Ne.symm hdr) hx]
  refine ⟨es', hfocus, hroot, fun _ _ c _ => hrc c, ?_, ?_⟩
  · intro hdr j a b ha hmiss hb
    induction hb with
    | refl => exact .refl
    | child hb ht' hk ih =>
      refine .child ih (hsame _ _ ?_ ht') hk
      rintro rfl
      exact hmiss ih
  · intro hdr j hmiss
    have hx₀ : h.table? r = some x := hsame r x (Ne.symm hdr) hx
    have hnow := (reads_node_ref hx).mp hread
    have hthen := (reads_node_ref hx₀).mp f.reads
    rcases readsTable_find? hthen j with ⟨he, hw⟩ | ⟨u, w, he, hw, hu⟩
    · rcases readsTable_find? hnow j with ⟨he', _⟩ | ⟨_, w', _, hw', _⟩
      · rw [he, he']
      · simp [hw] at hw'
    · rcases readsTable_find? hnow j with ⟨_, hw'⟩ | ⟨u', w', he', hw', hu'⟩
      · simp [hw] at hw'
      · obtain rfl := Option.some.inj (hw.symm.trans hw')
        rw [he, he']
        -- nothing on the way down from this entry has changed
        have hstay : (h.put d k v).reads u w = true := by
          refine reads_transfer
            (P := fun b => ∃ a, w = .ref a ∧ Reach h a b ∧ ∃ t', (h.put d k v).table? b = some t')
            ?_ ?_ u w ?_ hu
          · rintro b t' i c ⟨a, rfl, hb, t'', ht''⟩ ht' hi
            have hbd : b ≠ d := by
              rintro rfl
              exact hmiss a (by rw [slot?_eq hx₀, hw]) hb
            obtain rfl := Option.some.inj (ht'.symm.trans (hsame b t'' hbd ht''))
            exact ⟨a, rfl, hb.child ht' hi, hs'.child_live ht'' hi⟩
          · rintro b t' ⟨a, rfl, hb, t'', ht''⟩ ht'
            have hbd : b ≠ d := by
              rintro rfl
              exact hmiss a (by rw [slot?_eq hx₀, hw]) hb
            rw [ht'', ← ht', hsame b t'' hbd ht'']
          · rintro a rfl
            exact ⟨a, rfl, .refl, hs'.child_live hx (Table.mem_of_find? hw)⟩
        rw [reads_unique u u' w hstay hu']

theorem Focus.scalar_aside {t : Table κ (Val σ)} (f : Focus h [.ref r] [] r es)
    (ht : h.table? d = some t) (k : κ) (s : σ) :
    ∃ es', Aside h (h.put d k (.scalar s)) r d es es' :=
  f.put_aside (f.sound.add_scalar s) ht (reads_leaf.mpr rfl)

theorem Focus.alloc_aside (f : Focus h [.ref r] [] r es) (d : Addr) :
    Aside h h.alloc.2 r d es es := by
  obtain ⟨t, ht, _⟩ := f.table
  have hchild : ∀ k a, h.slot? r k = some (.ref a) → ∃ u, h.table? a = some u := by
    intro k a ha
    rw [slot?_eq ht] at ha
    exact f.sound.child_live ht (Table.mem_of_find? ha)
  refine ⟨f.alloc.1.focus, fun _ => ?_, fun _ k c hc => ?_, fun _ k a b ha _ hb => ?_,
    fun _ _ _ => rfl⟩
  · rw [ht]
    exact table?_push _ ht
  · obtain ⟨u, hu⟩ := hchild k c hc
    obtain ⟨x, hx, _⟩ := cell?_of_table? hu
    exact Nat.le_of_eq (table?_eq_of_cell? (cell?_push_other _ (Nat.ne_of_lt (lt_size hx)))).2
  · induction hb with
    | refl => exact .refl
    | child _ hu hj ih =>
      obtain ⟨u', hu'⟩ := ih.live f.sound (hchild k a ha)
      have he := table?_push ⟨1, []⟩ hu'
      obtain rfl := Option.some.inj (hu.symm.trans he)
      exact ih.child hu' hj

/-- A new empty table in a slot that holds none, whoever else holds the table of the slot. -/
theorem Focus.fresh_aside {t : Table κ (Val σ)} (f : Focus h [.ref r] [] r es)
    (ht : h.table? d = some t) (hno : ∀ a, h.slot? d k ≠ some (.ref a)) :
    (∃ es', Aside h (h.alloc.2.put d k (.ref h.alloc.1)) r d es es') ∧
      (h.alloc.2.put d k (.ref h.alloc.1)).slot? d k = some (.ref h.alloc.1) ∧
      (h.alloc.2.put d k (.ref h.alloc.1)).table? h.alloc.1 = some [] ∧
      ∀ b u, h.table? b = some u →
        ∃ u', (h.alloc.2.put d k (.ref h.alloc.1)).table? b = some u' := by
  have hta : h.alloc.2.table? d = some t := table?_push _ ht
  have hne : h.alloc.1 ≠ d := by
    intro he
    have hnone := table?_alloc_none h
    rw [he, ht] at hnone
    cases hnone
  have hnew : h.alloc.2.table? h.alloc.1 = some [] := table?_of_cell? (cell?_push_self _)
  have hput : h.alloc.2.put d k (.ref h.alloc.1) = h.alloc.2.write d k (.ref h.alloc.1) := by
    apply put_eq_write
    rwa [slot?_eq hta, ← slot?_eq ht]
  have hread : (h.alloc.2.write d k (.ref h.alloc.1)).reads (.node []) (.ref h.alloc.1) = true := by
    rw [reads_node_ref (by rw [table?_write_other hne, hnew])]
    rfl
  have hpre := f.alloc_aside d
  obtain ⟨es', hwrote⟩ := hpre.focus.put_aside f.sound.alloc hta hread (k := k)
  refine ⟨⟨es', hpre.trans f hwrote (Or.inl rfl)⟩, ?_, ?_, fun b u hb => ?_⟩
  · rw [hput, slot?_eq (table?_write_self hta k _), Table.find?_update_self]
  · rw [hput, table?_write_other hne, hnew]
  · rw [hput]
    by_cases hbd : b = d
    · rw [hbd]
      exact ⟨_, table?_write_self hta k _⟩
    · exact ⟨u, by rw [table?_write_other hbd]; exact table?_push _ hb⟩

end

end Base.Heap
