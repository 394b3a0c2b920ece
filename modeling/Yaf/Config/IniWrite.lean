import Yaf.Base.HeapFocus
import Yaf.Config.IniSpec

namespace Yaf
open Base Heap IniSpec

variable {h h' : IniHeap} {R : List (Val Bytes)} {P : List Addr} {d : Addr} {es es' : Content}

theorem tableAt_update_self (ds : Content) (k : Key) (e : Content) :
    tableAt (Table.update ds k (.node e)) k = e := by simp [tableAt]

theorem tableAt_of_find? {e : Content} {k : Key} (he : Table.find? es k = some (.node e)) :
    tableAt es k = e := by simp [tableAt, he]

/-- The `ENTRY` path separates before it writes, so it assigns and does nothing else. -/
theorem simpleEntry_spec (segs : List Key) (value : Bytes) :
    ∀ {h : IniHeap} {P : List Addr} {d : Addr} {es : Content}, Focus h R P d es →
      Becomes h (simpleEntry h d segs value) R P d (assign segs value es) := by
  induction segs with
  | nil => exact fun f => f.becomes
  | cons k segs ih =>
    intro h P d es f
    cases segs with
    | nil =>
      rcases f.slot_cases k with ⟨hk, he⟩ | ⟨s, hk, he⟩ | ⟨a, e, hk, he⟩
      · simpa [simpleEntry, assign, hk, he] using f.put_scalar k value
      · simpa [simpleEntry, assign, hk, he] using f.put_scalar k value
      · simpa [simpleEntry, assign, hk, he] using (f.enter hk he).1
    | cons seg segs =>
      have hnew : tableAt es k = [] →
          Becomes h (simpleEntry (h.alloc.2.put d k (.ref h.alloc.1)) h.alloc.1 (seg :: segs) value)
            R P d (assign (k :: seg :: segs) value es) := by
        intro he
        obtain ⟨hb, hp⟩ := f.fresh k
        have hb' := hb.focus.up hp (ih (hb.focus.child hp (s := []) (by simp)))
        rw [Table.update_update] at hb'
        simpa [assign, he] using hb.trans hb'
      rcases f.slot_cases k with ⟨hk, he⟩ | ⟨s, hk, he⟩ | ⟨a, e, hk, he⟩
      · simpa [simpleEntry, hk] using hnew (by simp [tableAt, he])
      · simpa [simpleEntry, hk] using hnew (by simp [tableAt, he])
      · obtain ⟨hb, hp⟩ := f.enter hk he
        have hb' := hb.focus.up hp (ih (hb.focus.child hp he))
        simpa [simpleEntry, assign, hk, tableAt_of_find? he] using hb.trans hb'

/-- Every table the `POP_ENTRY` walk meets is held once, and no string is in the middle. -/
def popPrivate (h : IniHeap) (d : Addr) : List Key → Bool
  | [] => false
  | [k] =>
    match h.slot? d k with
    | some (.ref a) => h.rc a ≤ 1
    | _ => true
  | k :: segs =>
    match h.slot? d k with
    | none => true
    | some (.ref a) => h.rc a ≤ 1 && popPrivate h a segs
    | some (.scalar _) => false

theorem popPrivate_empty (ht : h.table? d = some []) {segs : List Key} (hs : segs ≠ []) :
    popPrivate h d segs = true := by
  cases segs with
  | nil => exact absurd rfl hs
  | cons k segs => cases segs <;> simp [popPrivate, slot?_eq ht]

theorem nextFreeElement_keys {ν : Type} (t : Table Key ν) :
    nextFreeElement t = (Table.keys t).foldl nextFree 0 := by
  simp [nextFreeElement, Table.keys, List.foldl_map]

/-- Where a value is pushed depends on the keys alone. -/
theorem popKey_keys {ν μ : Type} {t : Table Key ν} {u : Table Key μ}
    (hk : Table.keys t = Table.keys u) (index : Option Bytes) :
    popKey t index = popKey u index := by
  have hn : nextFreeElement t = nextFreeElement u := by
    rw [nextFreeElement_keys, nextFreeElement_keys, hk]
  have hf : ∀ k, (Table.find? t k).isSome = (Table.find? u k).isSome := by
    intro k
    have ht := Table.find?_eq_none (t := t) (k := k)
    have hu := Table.find?_eq_none (t := u) (k := k)
    rw [hk] at ht
    cases h₁ : Table.find? t k <;> cases h₂ : Table.find? u k <;> simp_all
  cases index with
  | none => simp [popKey, hn, hf]
  | some i => cases i <;> simp [popKey, hn, hf]

theorem insert_spec (f : Focus h R P d es) (value : Bytes) (index : Option Bytes)
    {t : Table Key (Val Bytes)} (ht : h.table? d = some t) :
    Becomes h (match popKey t index with
      | some k => h.put d k (.scalar value)
      | none => h) R P d (pushValue value index es) := by
  obtain ⟨t', ht', hrt⟩ := f.table
  obtain rfl := Option.some.inj (ht.symm.trans ht')
  rw [popKey_keys (readsTable_keys hrt).symm, pushValue]
  cases popKey es index with
  | none => exact f.becomes
  | some k => exact f.put_scalar k value

/-- The table in the last slot, made from nothing or from a string when there is none. -/
theorem popTable_spec {k : Key} (f : Focus h R P d es)
    (hk : ∀ a, h.slot? d k = some (.ref a) → h.rc a ≤ 1) :
    Becomes h (popTable h d k).2 R P d (Table.update es k (.node (tableAt es k))) ∧
      PrivateSlot (popTable h d k).2 d k (popTable h d k).1 := by
  rcases f.slot_cases k with ⟨hs, he⟩ | ⟨s, hs, he⟩ | ⟨a, e, hs, he⟩
  · simpa [popTable, hs, tableAt, he] using f.fresh k
  · simpa [popTable, hs, tableAt, he] using f.fresh k
  · have hp := f.privateSlot hs (hk a hs)
    simp only [popTable, hs, tableAt, he]
    rw [Table.update_find? he]
    exact ⟨f.becomes, hp⟩

/-- From the slot the walk ends at: a push there is a push at the start. -/
theorem popFind_spec (value : Bytes) (index : Option Bytes) (segs : List Key) :
    ∀ {h : IniHeap} {P : List Addr} {d : Addr} {es : Content}, Focus h R P d es →
      popPrivate h d segs = true →
      ∃ d' k h₁ P' es₁, popFind h d segs = some (d', k, h₁) ∧ Focus h₁ R P' d' es₁ ∧
        (∀ a, h₁.slot? d' k = some (.ref a) → h₁.rc a ≤ 1) ∧
        ∀ h', Becomes h₁ h' R P' d'
            (Table.update es₁ k (.node (pushValue value index (tableAt es₁ k)))) →
          Becomes h h' R P d (pushAt value index segs es) := by
  induction segs with
  | nil => exact fun _ hp => absurd hp (by simp [popPrivate])
  | cons k segs ih =>
    intro h P d es f hp
    obtain ⟨hb, hs⟩ := f.fresh k
    obtain ⟨t₁, ht₁, hk₁, hrc₁⟩ := hs
    have hslot : (h.alloc.2.put d k (.ref h.alloc.1)).slot? d k = some (.ref h.alloc.1) := by
      rw [slot?_eq ht₁, hk₁]
    cases segs with
    | nil =>
      rcases f.slot_cases k with ⟨hk, he⟩ | ⟨s, hk, he⟩ | ⟨a, e, hk, he⟩
      · refine ⟨d, k, _, P, _, by simp [popFind, hk], hb.focus, ?_, ?_⟩
        · intro a ha
          rw [hslot, Option.some.injEq, Val.ref.injEq] at ha
          exact ha ▸ hrc₁
        · intro h' hb'
          rw [Table.update_update, tableAt_update_self] at hb'
          simpa [pushAt, tableAt, he] using hb.trans hb'
      · exact ⟨d, k, h, P, es, by simp [popFind, hk], f, by simp [hk], fun h' hb' => hb'⟩
      · refine ⟨d, k, h, P, es, by simp [popFind, hk], f, ?_, fun h' hb' => hb'⟩
        intro b hb
        simpa [popPrivate, hb] using hp
    | cons seg segs =>
      rcases f.slot_cases k with ⟨hk, he⟩ | ⟨s, hk, he⟩ | ⟨a, e, hk, he⟩
      · have hc := hb.focus.child ⟨t₁, ht₁, hk₁, hrc₁⟩ (s := []) (by simp)
        obtain ⟨x, hx, hrx⟩ := hc.table
        rw [readsTable_nil.mp hrx] at hx
        obtain ⟨d', k', h₁, P', es₁, hf, hfoc, hrc, hback⟩ := ih hc (popPrivate_empty hx (by simp))
        refine ⟨d', k', h₁, P', es₁, by simpa [popFind, hk] using hf, hfoc, hrc, ?_⟩
        intro h' hb'
        have hup := hb.focus.up ⟨t₁, ht₁, hk₁, hrc₁⟩ (hback h' hb')
        rw [Table.update_update] at hup
        simpa [pushAt, tableAt, he] using hb.trans hup
      · simp [popPrivate, hk] at hp
      · simp only [popPrivate, hk, Bool.and_eq_true, decide_eq_true_eq] at hp
        have hps := f.privateSlot hk hp.1
        obtain ⟨d', k', h₁, P', es₁, hf, hfoc, hrc, hback⟩ := ih (f.child hps he) hp.2
        refine ⟨d', k', h₁, P', es₁, by simpa [popFind, hk] using hf, hfoc, hrc, ?_⟩
        intro h' hb'
        have hup := f.up hps (hback h' hb')
        rw [pushAt, tableAt_of_find? he]
        exact hup

/-- Along private tables the `POP_ENTRY` path pushes and does nothing else. -/
theorem simplePopEntry_spec {key value : Bytes} {index : Option Bytes} (f : Focus h R P d es)
    (hp : popPrivate h d (popSegments key) = true) :
    ∃ h', simplePopEntry h d key value index = some h' ∧
      Becomes h h' R P d (pushAt value index (popSegments key) es) := by
  obtain ⟨d', k, h₁, P', es₁, hf, f₁, hrc, hback⟩ := popFind_spec value index _ f hp
  obtain ⟨hb, hs⟩ := popTable_spec f₁ hrc
  have hc := hb.focus.child hs (s := tableAt es₁ k) (by simp)
  obtain ⟨t, ht, _⟩ := hc.table
  have hup := hb.focus.up hs (insert_spec hc value index ht)
  rw [Table.update_update] at hup
  refine ⟨_, ?_, hback _ (hb.trans hup)⟩
  simp only [simplePopEntry, hf, Option.bind_eq_bind, Option.bind_some, ht]
  cases popKey t index <;> rfl

end Yaf
