import Yaf.Base.HeapFocus

namespace Base

/-- A heap and the named places outside it that hold its values. -/
structure Slots (ι κ σ : Type) where
  heap : Heap κ σ
  places : Table ι (Val σ)

namespace Slots

open Heap

variable {ι κ σ : Type} [DecidableEq ι]

def at? (s : Slots ι κ σ) (i : ι) : Option (Val σ) := Table.find? s.places i

def roots (s : Slots ι κ σ) : List (Val σ) := s.places.map Prod.snd

def giveBack (h : Heap κ σ) : Option (Val σ) → Heap κ σ
  | none => h
  | some old => h.release h.size old

/-- A value whose hold is already counted moves into a place; what was there is given back. -/
def move (s : Slots ι κ σ) (i : ι) (v : Val σ) : Slots ι κ σ where
  heap := giveBack s.heap (s.at? i)
  places := Table.update s.places i v

/-- Copy a value into a place: a table is held once more, not copied. -/
def share (s : Slots ι κ σ) (i : ι) (v : Val σ) : Slots ι κ σ :=
  { s with heap := s.heap.addRef v }.move i v

/-- A new empty table in a place. -/
def fresh (s : Slots ι κ σ) (i : ι) : Slots ι κ σ :=
  { s with heap := s.heap.alloc.2 }.move i (.ref s.heap.alloc.1)

/-- Clear a place. -/
def drop (s : Slots ι κ σ) (i : ι) : Slots ι κ σ where
  heap := giveBack s.heap (s.at? i)
  places := Table.erase s.places i

section
variable [DecidableEq κ]

/-- Write a value into a table in place, whoever holds the table. -/
def put (s : Slots ι κ σ) (a : Addr) (k : κ) (v : Val σ) : Slots ι κ σ :=
  { s with heap := (s.heap.addRef v).put a k v }

/-- Take a key out of a table in place. -/
def erase (s : Slots ι κ σ) (a : Addr) (k : κ) : Slots ι κ σ :=
  { s with heap := s.heap.erase a k }

/-- Write every entry of a table into another one in place. -/
def copy (s : Slots ι κ σ) (a : Addr) (t : Table κ (Val σ)) : Slots ι κ σ :=
  { s with heap := t.foldl (fun h p => (h.addRef p.2).put a p.1 p.2) s.heap }

/-- Write to a copy: a table that is held more than once is copied into the place first. -/
def assignAt (s : Slots ι κ σ) (i : ι) (a : Addr) (k : κ) (v : Val σ) : Slots ι κ σ :=
  if 1 < s.heap.rc a then
    let (n, h) := s.heap.dup ((s.heap.table? a).getD [])
    ({ s with heap := h }.move i (.ref n)).put n k v
  else s.put a k v

end

section
variable [DecidableEq κ] [DecidableEq σ]

/-- Counts cover the holds of the heap and of the places, and every place can be read. -/
structure Valued (s : Slots ι κ σ) : Prop where
  sound : Sound s.heap s.roots
  nodup : (Table.keys s.places).Nodup
  readable : ∀ i v, s.at? i = some v → ∃ u, s.heap.reads u v = true

/-- What a place holds, read through the heap. -/
def Holds (s : Slots ι κ σ) (i : ι) (u : Nest κ σ) : Prop :=
  ∃ v, s.at? i = some v ∧ s.heap.reads u v = true

/-- A place holds what it held before. -/
def Keeps (s s' : Slots ι κ σ) (i : ι) : Prop :=
  s'.at? i = s.at? i ∧ ∀ u, s.Holds i u → s'.Holds i u

variable {s s' : Slots ι κ σ} {i j : ι} {v : Val σ} {a b : Addr}

theorem Keeps.trans {s₁ : Slots ι κ σ} (h : Keeps s s₁ i) (g : Keeps s₁ s' i) : Keeps s s' i :=
  ⟨g.1.trans h.1, fun u hu => g.2 u (h.2 u hu)⟩

omit [DecidableEq κ] [DecidableEq σ] in
theorem mem_roots (h : s.at? i = some v) : v ∈ s.roots :=
  List.mem_map.mpr ⟨(i, v), Table.mem_of_find? h, rfl⟩

omit [DecidableEq κ] [DecidableEq σ] in
theorem rootRefs_toList (o : Option (Val σ)) (a : Addr) :
    rootRefs o.toList a = (o.map (·.holds a)).getD 0 := by
  cases o <;> simp [rootRefs]

omit [DecidableEq κ] [DecidableEq σ] in
/-- Two places that hold one table are counted twice. -/
theorem two_le_roots (hi : s.at? i = some (.ref a)) (hj : s.at? j = some (.ref a)) (hne : i ≠ j) :
    2 ≤ rootRefs s.roots a := by
  rw [roots, rootRefs_values]
  exact tableRefs_two (Table.mem_of_find? hi) (Table.mem_of_find? hj) hne

/-- The table of a place that no other holder has is the end of a private path. -/
theorem Valued.focus (hs : s.Valued) (hi : s.at? i = some (.ref a)) (hrc : s.heap.rc a = 1) :
    ∃ es, Focus s.heap s.roots [] a es := by
  obtain ⟨u, hu⟩ := hs.readable i _ hi
  obtain ⟨es, _, rfl, _, _⟩ := reads_ref.mp hu
  exact ⟨es, hs.sound, ⟨hrc, by simp, Or.inl (mem_roots hi), trivial⟩, hu⟩

/-- The other places do not hold a private table. -/
theorem Valued.outside (hs : s.Valued) (hi : s.at? i = some (.ref a)) (hrc : s.heap.rc a = 1)
    (hne : j ≠ i) (hj : s.at? j = some (.ref b)) : Outside s.heap s.roots [] a b := by
  refine .root (mem_roots hj) ?_
  rw [List.mem_singleton]
  rintro rfl
  have htwo := two_le_roots hi hj (Ne.symm hne)
  have hcount := hs.sound.counted b
  omega

/-- Work in place on a table that nothing else holds leaves every other place as it reads. -/
theorem Valued.inPlace (hs : s.Valued) (hi : s.at? i = some (.ref a)) (hrc : s.heap.rc a = 1)
    {h : Heap κ σ} {es : List (κ × Nest κ σ)} (hb : Becomes s.heap h s.roots [] a es) :
    Valued { s with heap := h } ∧ ∀ j, j ≠ i → Keeps s { s with heap := h } j := by
  have hread : ∀ j v u, j ≠ i → s.at? j = some v → s.heap.reads u v = true →
      h.reads u v = true := by
    intro j v u hne hj hu
    refine hb.frame.reads ?_ hu
    rintro b rfl
    exact hs.outside hi hrc hne hj
  refine ⟨⟨hb.focus.sound, hs.nodup, fun j v hj => ?_⟩, fun j hne => ⟨rfl, ?_⟩⟩
  · by_cases hji : j = i
    · subst hji
      obtain rfl : v = .ref a := Option.some.inj (hj.symm.trans hi)
      exact ⟨_, hb.focus.reads⟩
    · obtain ⟨u, hu⟩ := hs.readable j v hj
      exact ⟨u, hread j v u hji hj hu⟩
  · rintro u ⟨v, hj, hu⟩
    exact ⟨v, hj, hread j v u hne hj hu⟩

theorem Valued.put (hs : s.Valued) (hi : s.at? i = some (.ref a)) (hrc : s.heap.rc a = 1) (k : κ)
    (hv : ∀ b, v = .ref b → ∃ j, j ≠ i ∧ s.at? j = some (.ref b)) :
    (s.put a k v).Valued ∧ ∀ j, j ≠ i → Keeps s (s.put a k v) j := by
  obtain ⟨es, f⟩ := hs.focus hi hrc
  obtain ⟨u, hu⟩ : ∃ u, s.heap.reads u v = true := by
    cases v with
    | scalar x => exact ⟨.leaf x, reads_leaf.mpr rfl⟩
    | ref b =>
      obtain ⟨j, -, hj⟩ := hv b rfl
      exact hs.readable j _ hj
  refine hs.inPlace hi hrc (f.share ?_ hu k)
  intro b hb
  obtain ⟨j, hne, hj⟩ := hv b hb
  exact hs.outside hi hrc hne hj

theorem Valued.erase (hs : s.Valued) (hi : s.at? i = some (.ref a)) (hrc : s.heap.rc a = 1)
    (k : κ) : (s.erase a k).Valued ∧ ∀ j, j ≠ i → Keeps s (s.erase a k) j := by
  obtain ⟨es, f⟩ := hs.focus hi hrc
  exact hs.inPlace hi hrc (f.erase k)

/-- Values that others hold are written one after the other. -/
theorem copy_becomes {R : List (Val σ)} (t : Table κ (Val σ)) :
    ∀ {h : Heap κ σ} {es : List (κ × Nest κ σ)}, Focus h R [] a es →
      (∀ k v, (k, v) ∈ t → (∀ b, v = .ref b → Outside h R [] a b) ∧ ∃ u, h.reads u v = true) →
      ∃ es', Becomes h (t.foldl (fun h p => (h.addRef p.2).put a p.1 p.2) h) R [] a es' := by
  induction t with
  | nil => exact fun f _ => ⟨_, f.becomes⟩
  | cons p t ih =>
    intro h es f hall
    obtain ⟨hout, u, hu⟩ := hall p.1 p.2 List.mem_cons_self
    have hb := f.share hout hu p.1
    obtain ⟨es', hrest⟩ := ih hb.focus fun k v hm => by
      obtain ⟨ho, w, hw⟩ := hall k v (List.mem_cons_of_mem _ hm)
      exact ⟨fun b hv => hb.frame.step (ho b hv), w, hb.frame.reads ho hw⟩
    exact ⟨es', hb.trans hrest⟩

theorem Valued.copy {t : Table κ (Val σ)} (hs : s.Valued) (hi : s.at? i = some (.ref a))
    (hrc : s.heap.rc a = 1) (hne : j ≠ i) (hj : s.at? j = some (.ref b))
    (ht : s.heap.table? b = some t) :
    (s.copy a t).Valued ∧ ∀ j, j ≠ i → Keeps s (s.copy a t) j := by
  obtain ⟨es, f⟩ := hs.focus hi hrc
  obtain ⟨u, hu⟩ := hs.readable j _ hj
  obtain ⟨es', t', rfl, ht', hrt⟩ := reads_ref.mp hu
  obtain rfl := Option.some.inj (ht.symm.trans ht')
  have hb := hs.outside hi hrc hne hj
  obtain ⟨_, hwork⟩ := copy_becomes t f fun k v hm => by
    refine ⟨?_, ?_⟩
    · rintro c rfl
      exact hb.child ht hm
    · obtain ⟨w, -, hw⟩ := readsTable_mem hrt hm
      exact ⟨w, hw⟩
  exact hs.inPlace hi hrc hwork

/-- What was in a place is given back: the counts still cover every hold, and what the places hold
reads as before. -/
theorem settle_valued {places : Table ι (Val σ)} {h : Heap κ σ} {old : Option (Val σ)}
    (hn : (Table.keys places).Nodup) (hs : Sound h (old.toList ++ places.map Prod.snd))
    (hr : ∀ j w, Table.find? places j = some w → ∃ u, h.reads u w = true) :
    Valued ⟨giveBack h old, places⟩ ∧ Sheds h (giveBack h old) ∧
      ∀ j w x, Table.find? places j = some w → h.reads x w = true →
        (giveBack h old).reads x w = true := by
  obtain ⟨hs', sh⟩ : Sound (giveBack h old) (places.map Prod.snd) ∧ Sheds h (giveBack h old) := by
    cases old with
    | none => exact ⟨hs, .refl h⟩
    | some old => exact Sound.release _ old hs
  have hread : ∀ j w x, Table.find? places j = some w → h.reads x w = true →
      (giveBack h old).reads x w = true := by
    intro j w x hj hx
    cases w with
    | scalar y =>
      cases x with
      | leaf z => simpa [Heap.reads] using hx
      | node es => simp [Heap.reads] at hx
    | ref b =>
      have hm : Val.ref b ∈ places.map Prod.snd :=
        List.mem_map.mpr ⟨(j, .ref b), Table.mem_of_find? hj, rfl⟩
      obtain ⟨t, ht⟩ := hs'.root_live hm
      exact sh.reads hs' ht hx
  refine ⟨⟨hs', hn, fun j w hj => ?_⟩, sh, hread⟩
  obtain ⟨x, hx⟩ := hr j w hj
  exact ⟨x, hread j w x hj hx⟩

/-- After a move every other place holds what it held. -/
theorem move_valued {u : Nest κ σ} (hs : Sound s.heap (v :: s.roots))
    (hn : (Table.keys s.places).Nodup)
    (hr : ∀ j w, s.at? j = some w → ∃ u, s.heap.reads u w = true)
    (hv : s.heap.reads u v = true) :
    (s.move i v).Valued ∧ Sheds s.heap (s.move i v).heap ∧ (s.move i v).Holds i u ∧
      ∀ j, j ≠ i → Keeps s (s.move i v) j := by
  have hcover : Sound s.heap ((s.at? i).toList ++ (Table.update s.places i v).map Prod.snd) := by
    refine ⟨fun b => ?_, hs.keyed⟩
    have hcount := hs.counted b
    have hup := tableRefs_update s.places i v b
    rw [rootRefs_append, rootRefs_values]
    rw [rootRefs_cons, roots, rootRefs_values] at hcount
    rw [rootRefs_toList, at?]
    omega
  have hself : Table.find? (Table.update s.places i v) i = some v := Table.find?_update_self _ _ _
  have hother : ∀ j, j ≠ i → Table.find? (Table.update s.places i v) j = s.at? j := fun j hne =>
    Table.find?_update_other _ _ hne
  obtain ⟨hval, sh, hread⟩ := settle_valued (Table.nodup_update hn i v) hcover fun j w hj => by
    by_cases hji : j = i
    · subst hji
      obtain rfl : w = v := Option.some.inj (hj.symm.trans hself)
      exact ⟨u, hv⟩
    · exact hr j w ((hother j hji).symm.trans hj)
  refine ⟨hval, sh, ⟨v, hself, hread i v u hself hv⟩, fun j hne => ⟨hother j hne, ?_⟩⟩
  rintro x ⟨w, hj, hx⟩
  have hj' := (hother j hne).trans hj
  exact ⟨w, hj', hread j w x hj' hx⟩

/-- A value is copied into a place; it must be a scalar or what a place or a live table holds. -/
theorem Valued.share (hs : s.Valued) {u : Nest κ σ} (hv : s.heap.reads u v = true) :
    (s.share i v).Valued ∧ (s.share i v).Holds i u ∧ ∀ j, j ≠ i → Keeps s (s.share i v) j := by
  have hgrow : ∀ {x : Nest κ σ} {w : Val σ}, s.heap.reads x w = true →
      (s.heap.addRef v).reads x w = true :=
    fun hx => reads_grow (fun a t ht => by rw [table?_addRef, ht]) hx
  have hsound : Sound (s.heap.addRef v) (v :: s.roots) := by
    apply hs.sound.addRef v
    rintro a rfl
    obtain ⟨_, t, -, ht, -⟩ := reads_ref.mp hv
    exact ⟨t, ht⟩
  obtain ⟨hval, -, hholds, hkeep⟩ := move_valued (s := { s with heap := s.heap.addRef v }) (i := i)
    hsound hs.nodup (fun j w hj => (hs.readable j w hj).imp fun _ => hgrow) (hgrow hv)
  have hgrown : ∀ j, Keeps s { s with heap := s.heap.addRef v } j :=
    fun _ => ⟨rfl, fun _ ⟨w, hj, hx⟩ => ⟨w, hj, hgrow hx⟩⟩
  exact ⟨hval, hholds, fun j hne => (hgrown j).trans (hkeep j hne)⟩

theorem Valued.fresh (hs : s.Valued) (i : ι) :
    (s.fresh i).Valued ∧ (s.fresh i).Holds i (.node []) ∧
      ∀ j, j ≠ i → Keeps s (s.fresh i) j := by
  have hgrow : ∀ {x : Nest κ σ} {w : Val σ}, s.heap.reads x w = true →
      s.heap.alloc.2.reads x w = true :=
    fun hx => reads_grow (fun a t ht => table?_push _ ht) hx
  have hnew : s.heap.alloc.2.table? s.heap.alloc.1 = some [] := table?_of_cell? (cell?_push_self _)
  obtain ⟨hval, -, hholds, hkeep⟩ := move_valued (s := { s with heap := s.heap.alloc.2 }) (i := i)
    (u := .node []) hs.sound.alloc hs.nodup
    (fun j w hj => (hs.readable j w hj).imp fun _ => hgrow) (by rw [reads_node_ref hnew]; rfl)
  have hgrown : ∀ j, Keeps s { s with heap := s.heap.alloc.2 } j :=
    fun _ => ⟨rfl, fun _ ⟨w, hj, hx⟩ => ⟨w, hj, hgrow hx⟩⟩
  exact ⟨hval, hholds, fun j hne => (hgrown j).trans (hkeep j hne)⟩

theorem Valued.drop (hs : s.Valued) (i : ι) :
    (s.drop i).Valued ∧ ∀ j, j ≠ i → Keeps s (s.drop i) j := by
  have hcover : Sound s.heap ((s.at? i).toList ++ (Table.erase s.places i).map Prod.snd) := by
    refine ⟨fun b => ?_, hs.sound.keyed⟩
    have hcount := hs.sound.counted b
    have her := tableRefs_erase s.places i b
    rw [rootRefs_append, rootRefs_values]
    rw [roots, rootRefs_values] at hcount
    rw [rootRefs_toList, at?]
    omega
  have hother : ∀ j, j ≠ i → Table.find? (Table.erase s.places i) j = s.at? j := fun j hne =>
    Table.find?_erase_other _ hne
  obtain ⟨hval, -, hread⟩ := settle_valued (Table.nodup_erase hs.nodup i) hcover fun j w hj => by
    by_cases hji : j = i
    · rw [hji, Table.find?_erase_self hs.nodup] at hj
      cases hj
    · exact hs.readable j w ((hother j hji).symm.trans hj)
  refine ⟨hval, fun j hne => ⟨hother j hne, ?_⟩⟩
  rintro x ⟨w, hj, hx⟩
  have hj' := (hother j hne).trans hj
  exact ⟨w, hj', hread j w x hj' hx⟩

/-- A write to a copy reaches no other place, whoever held the table before. -/
theorem Valued.assignAt (hs : s.Valued) (hi : s.at? i = some (.ref a)) (k : κ)
    (hv : ∀ b, v = .ref b → ∃ j, j ≠ i ∧ s.at? j = some (.ref b)) :
    (s.assignAt i a k v).Valued ∧ ∀ j, j ≠ i → Keeps s (s.assignAt i a k v) j := by
  have hlive := hs.sound.root_live (mem_roots hi)
  have hone : 1 ≤ s.heap.rc a := by
    have := rootRefs_pos (mem_roots hi)
    have := hs.sound.counted a
    omega
  unfold Slots.assignAt
  split
  · obtain ⟨t, ht⟩ := hlive
    rw [ht, Option.getD_some]
    have hgrow : ∀ {x : Nest κ σ} {w : Val σ}, s.heap.reads x w = true →
        (s.heap.dup t).2.reads x w = true :=
      fun hx => reads_grow (fun b u hb => table?_push _ (by rw [table?_addRefs, hb])) hx
    have hnew : (s.heap.dup t).2.table? (s.heap.dup t).1 = some t :=
      table?_of_cell? (cell?_push_self _)
    obtain ⟨u, hu⟩ := hs.readable i _ hi
    obtain ⟨es, t', rfl, ht', hrt⟩ := reads_ref.mp hu
    obtain rfl := Option.some.inj (ht.symm.trans ht')
    have hcopy : (s.heap.dup t).2.reads (.node es) (.ref (s.heap.dup t).1) = true := by
      rw [reads_node_ref hnew]
      exact readsTable_congr hrt fun _ _ _ _ => hgrow
    obtain ⟨hval, sh, -, hkeep⟩ := move_valued (s := { s with heap := (s.heap.dup t).2 }) (i := i)
      (hs.sound.dup ht) hs.nodup (fun j w hj => (hs.readable j w hj).imp fun _ => hgrow) hcopy
    have hgrown : ∀ j, Keeps s { s with heap := (s.heap.dup t).2 } j :=
      fun _ => ⟨rfl, fun _ ⟨w, hj, hx⟩ => ⟨w, hj, hgrow hx⟩⟩
    have hplace : ({ s with heap := (s.heap.dup t).2 }.move i (.ref (s.heap.dup t).1)).at? i =
        some (.ref (s.heap.dup t).1) :=
      Table.find?_update_self _ _ _
    have hrc : ({ s with heap := (s.heap.dup t).2 }.move i (.ref (s.heap.dup t).1)).heap.rc
        (s.heap.dup t).1 = 1 := by
      have hle := sh.rc (s.heap.dup t).1
      have hcell : (s.heap.dup t).2.rc (s.heap.dup t).1 = 1 := rc_of_cell? (cell?_push_self _)
      have hpos := rootRefs_pos (mem_roots hplace)
      have hcount := hval.sound.counted (s.heap.dup t).1
      simp only at hle
      omega
    obtain ⟨hval', hkeep'⟩ := hval.put hplace hrc k fun b hb => by
      obtain ⟨j, hne, hj⟩ := hv b hb
      exact ⟨j, hne, (hkeep j hne).1.trans hj⟩
    exact ⟨hval', fun j hne => ((hgrown j).trans (hkeep j hne)).trans (hkeep' j hne)⟩
  · exact hs.put hi (by omega) k hv

end

end Slots

end Base
