import Yaf.Base.HeapFocus
import Yaf.Config.IniSpec

namespace Yaf
open Base Heap IniSpec

variable {h h' : IniHeap} {R : List (Val Bytes)} {P : List Addr} {d : Addr} {es es' : Content}

/-- Fuel that covers every pair of tables met under one key. -/
def Fits : Nat → Content → Content → Prop
  | 0, _, _ => False
  | fuel + 1, ds, es => ∀ k d' s', (k, Nest.node s') ∈ es →
      Table.find? ds k = some (Nest.node d') → Fits fuel [] d' ∧ Fits fuel d' s'

theorem fits_nil {fuel : Nat} (hf : 0 < fuel) (es : Content) : Fits fuel [] es := by
  obtain ⟨n, rfl⟩ := Nat.exists_eq_succ_of_ne_zero (Nat.pos_iff_ne_zero.mp hf)
  intro k d' s' _ hd
  simp at hd

theorem fits_of_height {fuel : Nat} :
    ∀ {ds es : Content}, Nest.heightTable es < fuel → Fits fuel ds es := by
  induction fuel with
  | zero => exact fun hlt => absurd hlt (Nat.not_lt_zero _)
  | succ fuel ih =>
    intro ds es hlt k d' s' hm _
    have := Nest.height_le_table hm
    rw [Nest.height] at this
    exact ⟨fits_nil (by omega) d', ih (by omega)⟩

/-- What copying a section into another is to do. -/
def Copies (copy : IniHeap → Addr → Addr → Option IniHeap) (ds es : Content) : Prop :=
  ∀ {h : IniHeap} {R : List (Val Bytes)} {P : List Addr} {d src : Addr}, Focus h R P d ds →
    Outside h R P d src → h.reads (.node es) (.ref src) = true →
    ∃ h', copy h d src = some h' ∧ Becomes h h' R P d (Nest.mergeTable ds es)

/-- Two tables under one key: a new table takes a copy of the old one, then of the other. -/
theorem deepCopyEntry_merge {copy : IniHeap → Addr → Addr → Option IniHeap} {k : Key}
    {pzval dstpzval : Addr} {d' s' : Content} (f : Focus h R P d es)
    (hk : h.slot? d k = some (.ref dstpzval)) (he : Table.find? es k = some (.node d'))
    (ho : Outside h R P d pzval) (hr : h.reads (.node s') (.ref pzval) = true)
    (hc : Copies copy [] d') (hc' : Copies copy d' s') :
    ∃ h', deepCopyEntry copy d h (k, .ref pzval) = some h' ∧
      Becomes h h' R P d (Table.update es k (.node (Nest.mergeTable d' s'))) := by
  obtain ⟨t, ht, hrt⟩ := f.table
  rw [slot?_eq ht] at hk
  obtain ⟨hb, hn⟩ := f.alloc
  have hdr : h.alloc.2.reads (.node d') (.ref dstpzval) = true :=
    reads_grow (fun a t ht => table?_push _ ht) (readsTable_at hrt he hk)
  have hd' : (Table.keys d').Nodup := hn.sound.nodup_keys hdr
  have htd : h.alloc.2.table? d = some t := table?_push _ ht
  obtain ⟨h₂, hcopy, hb₂⟩ := hc hn (hn.outside_entry htd (Table.mem_of_find? hk)) hdr
  rw [Nest.mergeTable_nil_left hd'] at hb₂
  have ho₁ := hb.focus.outside_deeper hn (hb.frame.step ho)
  have hr₁ := hb.frame.reads (fun a ha => Val.ref.inj ha ▸ ho) hr
  obtain ⟨h₃, hcopy', hb₃⟩ := hc' hb₂.focus (hb₂.frame.step ho₁)
    (hb₂.frame.reads (fun a ha => Val.ref.inj ha ▸ ho₁) hr₁)
  have hall := hb₂.trans hb₃
  have hap := hb.focus.apart hn hall
  have hput := (hap.focus.put hall.focus.sound (fun a ha => Val.ref.inj ha ▸ hall.focus.owned.2.1)
    hall.focus.reads k).1
  refine ⟨h₃.put d k (.ref h.alloc.1), ?_, (hb.trans hap).trans hput⟩
  rw [← slot?_eq ht] at hk
  simp [deepCopyEntry, hk, hcopy, hcopy']

theorem deepCopyEntry_spec {copy : IniHeap → Addr → Addr → Option IniHeap} {k : Key}
    {w : Val Bytes} {u : Nest Key Bytes} (f : Focus h R P d es)
    (ho : ∀ a, w = .ref a → Outside h R P d a) (hr : h.reads u w = true)
    (hc : ∀ d' s', u = .node s' → Table.find? es k = some (.node d') →
      Copies copy [] d' ∧ Copies copy d' s') :
    ∃ h', deepCopyEntry copy d h (k, w) = some h' ∧
      Becomes h h' R P d (Table.update es k (Nest.overlay (Table.find? es k) u)) := by
  obtain ⟨t, ht, hrt⟩ := f.table
  have hshare := f.share ho hr k
  cases w with
  | scalar s =>
    obtain ⟨rfl⟩ : u = .leaf s := by
      cases u with
      | leaf s' => rw [Val.scalar.inj (reads_leaf.mp hr)]
      | node es => simp [Heap.reads] at hr
    exact ⟨_, rfl, by simpa using hshare⟩
  | ref a =>
    obtain ⟨s', rfl⟩ : ∃ s', u = .node s' := by
      cases u with
      | leaf s' => simp [Heap.reads] at hr
      | node es => exact ⟨es, rfl⟩
    rcases readsTable_find? hrt k with ⟨hnone, hnone'⟩ | ⟨x, y, hx, hy, hxy⟩
    · refine ⟨(h.addRef (.ref a)).put d k (.ref a), by simp [deepCopyEntry, slot?_eq ht, hnone'],
        ?_⟩
      simpa [hnone] using hshare
    · cases x with
      | leaf s =>
        rw [reads_leaf.mp hxy] at hy
        refine ⟨(h.addRef (.ref a)).put d k (.ref a), by simp [deepCopyEntry, slot?_eq ht, hy], ?_⟩
        simpa [hx] using hshare
      | node d' =>
        obtain ⟨b, _, rfl, _, _⟩ := reads_node.mp hxy
        obtain ⟨hc₁, hc₂⟩ := hc d' s' rfl hx
        rw [hx, Nest.overlay_node]
        exact deepCopyEntry_merge f (by rw [slot?_eq ht, hy]) hx (ho a rfl) hr hc₁ hc₂

/-- The loop over the source table, whose keys are all different. -/
theorem deepCopyEntries_spec {copy : IniHeap → Addr → Addr → Option IniHeap} (ss : Content) :
    ∀ {h : IniHeap} {t : Table Key (Val Bytes)} {ds : Content}, Focus h R P d ds →
      h.readsTable ss t = true → (∀ k a, (k, Val.ref a) ∈ t → Outside h R P d a) →
      (Table.keys ss).Nodup →
      (∀ k d' s', (k, Nest.node s') ∈ ss → Table.find? ds k = some (.node d') →
        Copies copy [] d' ∧ Copies copy d' s') →
      ∃ h', t.foldlM (deepCopyEntry copy d) h = some h' ∧
        Becomes h h' R P d (Nest.mergeTable ds ss) := by
  induction ss with
  | nil =>
    intro h t ds f hr _ _ _
    rw [readsTable_nil.mp hr]
    exact ⟨h, rfl, by simpa [Nest.mergeTable] using f.becomes⟩
  | cons e ss ih =>
    obtain ⟨k, u⟩ := e
    intro h t ds f hr ho hn hc
    obtain ⟨w, t', rfl, hu, ht⟩ := readsTable_cons.mp hr
    obtain ⟨hk, hn'⟩ := List.nodup_cons.mp hn
    have how : ∀ a, w = .ref a → Outside h R P d a := fun a ha =>
      ho k a (by rw [← ha]; exact List.mem_cons_self)
    have hot : ∀ j a, (j, Val.ref a) ∈ t' → Outside h R P d a := fun j a hm =>
      ho j a (List.mem_cons_of_mem _ hm)
    obtain ⟨h₁, hstep, hb⟩ := deepCopyEntry_spec (k := k) f how hu fun d' s' hs hd =>
      hc k d' s' (by rw [hs]; exact List.mem_cons_self) hd
    have hr₁ : h₁.readsTable ss t' = true := readsTable_congr ht fun j x y hx hy =>
      hb.frame.reads (fun a ha => hot j a (ha ▸ hx)) hy
    obtain ⟨h', hloop, hb'⟩ := ih hb.focus hr₁ (fun j a hm => hb.frame.step (hot j a hm)) hn'
      fun j d' s' hm hd => by
        have hne : j ≠ k := by
          rintro rfl
          exact hk (List.mem_map.mpr ⟨(j, .node s'), hm, rfl⟩)
        rw [Table.find?_update_other _ _ hne] at hd
        exact hc j d' s' (List.mem_cons_of_mem _ hm) hd
    refine ⟨h', by simp [List.foldlM_cons, hstep, hloop], ?_⟩
    rw [Nest.mergeTable_cons]
    exact hb.trans hb'

theorem deepCopySection_copies (fuel : Nat) :
    ∀ {ds es : Content}, Fits fuel ds es → Copies (deepCopySection fuel) ds es := by
  induction fuel with
  | zero => exact fun hf => absurd hf (by simp [Fits])
  | succ fuel ih =>
    intro ds es hf h R P d src f ho hr
    obtain ⟨a, t, ha, ht, hrt⟩ := reads_node.mp hr
    obtain rfl := Val.ref.inj ha
    have hn : (Table.keys es).Nodup := f.sound.nodup_keys hr
    obtain ⟨h', hloop, hb⟩ := deepCopyEntries_spec es f hrt (fun k b hm => .child ho ht hm) hn
      fun k d' s' hm hd => ⟨ih (hf k d' s' hm hd).1, ih (hf k d' s' hm hd).2⟩
    exact ⟨h', by simpa [deepCopySection, ht] using hloop, hb⟩

/-- The depth the heap allows is always enough. -/
theorem deepCopySection_spec {src : Addr} {ss : Content} (f : Focus h R P d es)
    (ho : Outside h R P d src) (hr : h.reads (.node ss) (.ref src) = true) :
    ∃ h', deepCopySection h.size h d src = some h' ∧
      Becomes h h' R P d (Nest.mergeTable es ss) := by
  have hh := height_le_size hr
  rw [Nest.height] at hh
  exact deepCopySection_copies h.size (fits_of_height (by omega)) f ho hr

end Yaf
