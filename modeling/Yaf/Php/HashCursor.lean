import Yaf.Php.HashChains

namespace Yaf
open Base

namespace HashTable

variable {κ ν : Type}

/-- What every operation keeps of a table. -/
structure Wf (hashVal : κ → Nat) (ht : HashTable κ ν) : Prop where
  count : ht.nNumOfElements = (entries ht.arData).length
  heads : ht.hash.length = if ht.initialized && !ht.packed then ht.nTableSize else 2
  fresh : ht.initialized = false → ht.arData = [] ∧ ht.packed = false
  unchained : ht.packed = true → ht.hash = [none, none]
  size_pos : 0 < ht.nTableSize
  size_le : ht.nTableSize ≤ 2 ^ 32
  room : ht.arData.length ≤ ht.nTableSize
  hashed : ∀ p ∈ ht.arData, isLive p = true → p.h = hashVal p.key
  nodup : (entries ht.arData).keys.Nodup
  chained : ht.packed = false → Chained ht.arData ht.hash
  pointer : ∀ i, ht.nInternalPointer = some i → liveAt ht.arData i = true

/-- The table holds the entries of the cursor in its order, and its pointer is at the place. -/
structure Represents (hashVal : κ → Nat) (ht : HashTable κ ν) (c : Cursor κ ν) : Prop where
  wf : Wf hashVal ht
  entries_eq : entries ht.arData = c.entries
  place_eq : place ht.arData ht.nInternalPointer = c.position

variable {hashVal : κ → Nat} {ht : HashTable κ ν} {c : Cursor κ ν}

theorem Wf.heads_pos (wf : Wf hashVal ht) : 0 < ht.hash.length := by
  have h := wf.heads
  have hs := wf.size_pos
  rw [h]
  split <;> omega

theorem Wf.slot_lt (wf : Wf hashVal ht) (h : Nat) : slot ht.hash.length h < ht.hash.length := by
  apply HashTable.slot_lt h wf.heads_pos
  have hh := wf.heads
  have hs := wf.size_le
  rw [hh]
  split <;> omega

theorem find?_entries_of_live [DecidableEq κ] {ar : List (Bucket κ ν)} {i : Nat} {p : Bucket κ ν}
    {v : ν}
    (nodup : (entries ar).keys.Nodup) (hi : ar[i]? = some p) (hv : p.val = some v) :
    (entries ar).find? p.key = some v := by
  apply Table.find?_of_mem nodup
  rw [entries_split hi hv]
  simp

/-- A key has one live bucket at most. -/
theorem live_unique {ar : List (Bucket κ ν)} {i j : Nat} {p q : Bucket κ ν}
    (nodup : (entries ar).keys.Nodup) (hi : ar[i]? = some p) (hj : ar[j]? = some q)
    (hp : isLive p = true) (hq : isLive q = true) (key : p.key = q.key) : i = j := by
  obtain ⟨v, hv⟩ := Option.isSome_iff_exists.mp hp
  obtain ⟨w, hw⟩ := Option.isSome_iff_exists.mp hq
  rcases Nat.lt_trichotomy i j with h | h | h
  · exact absurd nodup (not_nodup hi hj hv hw key h)
  · exact h
  · exact absurd nodup (not_nodup hj hi hw hv key.symm h)
where
  not_nodup {ar : List (Bucket κ ν)} {i j : Nat} {p q : Bucket κ ν} {v w : ν}
      (hi : ar[i]? = some p) (hj : ar[j]? = some q) (hv : p.val = some v) (hw : q.val = some w)
      (key : p.key = q.key) (h : i < j) : ¬ (entries ar).keys.Nodup := by
    intro nodup
    rw [entries_split hi hv, Table.keys_append, Table.keys_cons] at nodup
    have hn := (List.nodup_cons.mp (List.nodup_append.mp nodup).2.1).1
    apply hn
    have hd : (ar.drop (i + 1))[j - (i + 1)]? = some q := by
      rw [List.getElem?_drop, Nat.add_sub_cancel' h, hj]
    rw [entries_split hd hw, Table.keys_append, Table.keys_cons, key]
    simp

theorem isBucketOf_iff [DecidableEq κ] {ar : List (Bucket κ ν)} {key : κ} {i : Nat} :
    isBucketOf hashVal ar key i = true ↔ ∃ p, ar[i]? = some p ∧ p.h = hashVal key ∧ p.key =
      key := by
  unfold isBucketOf
  cases ar[i]? with
  | none => simp
  | some p => simp

/-- A packed table has no chain to walk along. -/
theorem Wf.walkTo_packed [DecidableEq κ] (wf : Wf hashVal ht) (packed : ht.packed = true)
    (key : κ) :
    ht.walkTo hashVal key = none := by
  have hlt := wf.slot_lt (hashVal key)
  have hheads := wf.unchained packed
  have hnone : (ht.hash[slot ht.hash.length (hashVal key)]?).join = none := by
    generalize slot ht.hash.length (hashVal key) = n at hlt
    rw [hheads] at hlt ⊢
    rcases n with _ | _ | n
    · rfl
    · rfl
    · exact absurd hlt (by simp)
  rw [walkTo, hnone]
  cases ht.arData.length <;> rfl

/-- The walk of a key that is there stops at its bucket. -/
theorem Wf.walkTo_some [DecidableEq κ] (wf : Wf hashVal ht) (plain : ht.packed = false) {i : Nat}
    {p : Bucket κ ν} (hi : ht.arData[i]? = some p) (hp : isLive p = true) :
    ∃ l₁ l₂, chain ht.arData ht.hash.length (slot ht.hash.length p.h) = l₁ ++ i :: l₂ ∧
      ht.walkTo hashVal p.key = some (i, l₁.getLast?) := by
  have hh : p.h = hashVal p.key := wf.hashed p (List.mem_of_getElem? hi) hp
  have hm : i ∈ chain ht.arData ht.hash.length (slot ht.hash.length p.h) :=
    mem_chain.mpr (onChain_iff.mpr ⟨p, hi, hp, rfl⟩)
  obtain ⟨l₁, l₂, hl⟩ := List.append_of_mem hm
  refine ⟨l₁, l₂, hl, ?_⟩
  have hlinked := wf.chained plain _ (wf.slot_lt p.h)
  have hnodup : (l₁ ++ i :: l₂).Nodup := hl ▸ nodup_chain
  have hlen : (l₁ ++ i :: l₂).length ≤ ht.arData.length := hl ▸ length_chain_le
  rw [hl] at hlinked
  have hrefused : ∀ j ∈ l₁, isBucketOf hashVal ht.arData p.key j = false := by
    intro j hj
    have hjc : j ∈ chain ht.arData ht.hash.length (slot ht.hash.length p.h) := by
      rw [hl]
      exact List.mem_append_left _ hj
    obtain ⟨q, hq, hql, -⟩ := onChain_iff.mp (mem_chain.mp hjc)
    rw [Bool.eq_false_iff]
    intro ht'
    obtain ⟨q', hq', -, hkey⟩ := isBucketOf_iff.mp ht'
    rw [hq] at hq'
    obtain rfl := Option.some.inj hq'
    have hji : j = i := live_unique wf.nodup hq hi hql hp hkey
    subst hji
    exact (List.nodup_append.mp hnodup).2.2 j hj j List.mem_cons_self rfl
  have haccepted : isBucketOf hashVal ht.arData p.key i = true :=
    isBucketOf_iff.mpr ⟨p, hi, hh, rfl⟩
  have henough : l₁.length < ht.arData.length := by
    rw [List.length_append, List.length_cons] at hlen
    omega
  rw [walkTo, ← hh, hlinked.walk_some hrefused haccepted henough, Option.or_none]

/-- The walk of a key that is not there comes to the end of its chain. -/
theorem Wf.walkTo_none [DecidableEq κ] (wf : Wf hashVal ht) {key : κ}
    (h : key ∉ (entries ht.arData).keys) : ht.walkTo hashVal key = none := by
  cases hpacked : ht.packed with
  | true => exact wf.walkTo_packed hpacked key
  | false =>
    apply (wf.chained hpacked _ (wf.slot_lt (hashVal key))).walk_none
    intro i hi
    obtain ⟨p, hp, hlive, -⟩ := onChain_iff.mp (mem_chain.mp hi)
    rw [Bool.eq_false_iff]
    intro ht'
    obtain ⟨q, hq, -, rfl⟩ := isBucketOf_iff.mp ht'
    rw [hp] at hq
    obtain rfl := Option.some.inj hq
    obtain ⟨v, hv⟩ := Option.isSome_iff_exists.mp hlive
    exact h (Table.mem_keys_of_find? (find?_entries_of_live wf.nodup hp hv))

/-- A key that is there has a live bucket. -/
theorem exists_bucket {ar : List (Bucket κ ν)} {key : κ} (h : key ∈ (entries ar).keys) :
    ∃ (i : Nat) (p : Bucket κ ν), ar[i]? = some p ∧ isLive p = true ∧ p.key = key := by
  obtain ⟨⟨k, v⟩, hm, rfl⟩ := List.mem_map.mp h
  obtain ⟨p, hp, he⟩ := List.mem_filterMap.mp hm
  obtain ⟨i, hi⟩ := List.mem_iff_getElem?.mp hp
  obtain ⟨w, hw, hkw⟩ := Option.map_eq_some_iff.mp he
  obtain ⟨rfl, rfl⟩ := Prod.mk.inj hkw
  exact ⟨i, p, hi, by simp [isLive, hw], rfl⟩

/-- Where there are no chains the key is none of the table's. -/
def ByChain (ht : HashTable κ ν) (key : κ) : Prop :=
  ht.packed = true → key ∉ (entries ht.arData).keys

theorem ByChain.plain {key : κ} (by' : ByChain ht key) (h : key ∈ (entries ht.arData).keys) :
    ht.packed = false := by
  cases hpacked : ht.packed with
  | true => exact absurd h (by' hpacked)
  | false => rfl

theorem byChain_of_plain (plain : ht.packed = false) (key : κ) : ByChain ht key := by
  intro hpacked
  rw [plain] at hpacked
  cases hpacked

theorem Wf.find_eq [DecidableEq κ] (wf : Wf hashVal ht) {key : κ} (by' : ByChain ht key) :
    ht.zendHashFind hashVal key = (entries ht.arData).find? key := by
  by_cases hk : key ∈ (entries ht.arData).keys
  · obtain ⟨i, p, hi, hp, rfl⟩ := exists_bucket hk
    obtain ⟨l₁, l₂, -, hw⟩ := wf.walkTo_some (by'.plain hk) hi hp
    obtain ⟨v, hv⟩ := Option.isSome_iff_exists.mp hp
    rw [zendHashFind, zendHashFindBucket, hw, find?_entries_of_live wf.nodup hi hv]
    simp [hi, hv]
  · rw [zendHashFind, zendHashFindBucket, wf.walkTo_none hk, Table.find?_eq_none.mpr hk]
    rfl

theorem Wf.exists_eq [DecidableEq κ] (wf : Wf hashVal ht) {key : κ} (by' : ByChain ht key) :
    ht.zendHashExists hashVal key = ((entries ht.arData).find? key).isSome := by
  by_cases hk : key ∈ (entries ht.arData).keys
  · obtain ⟨i, p, hi, hp, rfl⟩ := exists_bucket hk
    obtain ⟨l₁, l₂, -, hw⟩ := wf.walkTo_some (by'.plain hk) hi hp
    obtain ⟨v, hv⟩ := Option.isSome_iff_exists.mp hp
    rw [zendHashExists, zendHashFindBucket, hw, find?_entries_of_live wf.nodup hi hv]
    rfl
  · rw [zendHashExists, zendHashFindBucket, wf.walkTo_none hk, Table.find?_eq_none.mpr hk]
    rfl

section pointer

theorem Wf.atPointer (wf : Wf hashVal ht) {i : Nat} (h : ht.nInternalPointer = some i) :
    ∃ p v, ht.arData[i]? = some p ∧ p.val = some v :=
  liveAt_iff.mp (wf.pointer i h)

theorem Represents.rewind (h : Represents hashVal ht c) :
    Represents hashVal ht.zendHashInternalPointerReset c.rewind where
  wf := { h.wf with
    pointer := by
      intro i hi
      exact (liveFrom_some hi).2.1 }
  entries_eq := h.entries_eq
  place_eq := by
    change place ht.arData (liveFrom ht.arData 0) = 0
    rw [place_liveFrom, List.take_zero, entries_nil, List.length_nil]

theorem Represents.advance (h : Represents hashVal ht c) :
    Represents hashVal ht.zendHashMoveForward c.advance := by
  unfold zendHashMoveForward
  have hp := h.place_eq
  cases hptr : ht.nInternalPointer with
  | none =>
    refine ⟨h.wf, h.entries_eq, ?_⟩
    rw [hptr] at hp
    rw [hptr]
    change _ = min (c.position + 1) c.entries.length
    rw [place, h.entries_eq] at hp ⊢
    omega
  | some i =>
    obtain ⟨p, v, hi, hv⟩ := h.wf.atPointer hptr
    refine ⟨{ h.wf with pointer := ?_ }, h.entries_eq, ?_⟩
    · intro j hj
      exact (liveFrom_some hj).2.1
    · rw [hptr, place] at hp
      have hl := congrArg List.length (entries_split hi hv)
      rw [h.entries_eq, List.length_append, List.length_cons] at hl
      change place ht.arData (liveFrom ht.arData (i + 1)) = min (c.position + 1) c.entries.length
      rw [place_liveFrom, entries_take_succ hi hv, List.length_append, List.length_singleton, hp]
      omega

/-- The pointer is past the end, or at the bucket of the current entry. -/
theorem Represents.current_cases (h : Represents hashVal ht c) :
    ht.nInternalPointer = none ∧ c.current? = none ∨
    ∃ i p v, ht.nInternalPointer = some i ∧ ht.arData[i]? = some p ∧ p.val = some v ∧
      c.current? = some (p.key, v) := by
  have hp := h.place_eq
  unfold Cursor.current?
  cases hptr : ht.nInternalPointer with
  | none =>
    rw [hptr, place, h.entries_eq] at hp
    left
    refine ⟨rfl, ?_⟩
    rw [← hp]
    exact List.getElem?_eq_none (Nat.le_refl _)
  | some i =>
    obtain ⟨p, v, hi, hv⟩ := h.wf.atPointer hptr
    rw [hptr, place] at hp
    right
    refine ⟨i, p, v, rfl, hi, hv, ?_⟩
    rw [← h.entries_eq, entries_split hi hv, ← hp]
    simp

theorem Represents.currentData_eq (h : Represents hashVal ht c) :
    ht.zendHashGetCurrentData = c.current?.map Prod.snd := by
  unfold zendHashGetCurrentData bucketAt
  rcases h.current_cases with ⟨hptr, hc⟩ | ⟨i, p, v, hptr, hi, hv, hc⟩
  · rw [hptr, hc]
    rfl
  · rw [hptr, hc, Option.bind_some, hi, Option.bind_some, hv]
    rfl

theorem Represents.currentKey_eq (h : Represents hashVal ht c) :
    ht.zendHashGetCurrentKey = c.current?.map Prod.fst := by
  unfold zendHashGetCurrentKey bucketAt
  rcases h.current_cases with ⟨hptr, hc⟩ | ⟨i, p, v, hptr, hi, hv, hc⟩
  · rw [hptr, hc]
    rfl
  · rw [hptr, hc, Option.bind_some, hi]
    rfl

theorem Represents.hasMore_eq (h : Represents hashVal ht c) :
    ht.zendHashHasMoreElements = c.current?.isSome := by
  unfold zendHashHasMoreElements
  rcases h.current_cases with ⟨hptr, hc⟩ | ⟨i, p, v, hptr, hi, hv, hc⟩
  · rw [hptr, hc]
    rfl
  · rw [hptr, hc]
    rfl

end pointer

theorem Represents.clean (h : Represents hashVal ht c) :
    Represents hashVal ht.zendHashClean Cursor.empty where
  wf := {
    count := rfl
    heads := by
      refine Eq.trans ?_ h.wf.heads
      unfold zendHashClean
      split <;> simp
    fresh := by
      intro hi
      exact ⟨rfl, (h.wf.fresh hi).2⟩
    unchained := by
      intro hpacked
      change ht.packed = true at hpacked
      unfold zendHashClean
      simpa [hpacked] using h.wf.unchained hpacked
    size_pos := h.wf.size_pos
    size_le := h.wf.size_le
    room := Nat.zero_le _
    hashed := by
      intro p hp
      cases hp
    nodup := List.nodup_nil
    chained := by
      intro hplain
      change ht.packed = false at hplain
      unfold zendHashClean
      cases he : ht.arData with
      | nil => simpa [he] using h.wf.chained hplain
      | cons p ar => simpa [hplain] using chained_nil ht.hash.length
    pointer := by
      intro i hi
      cases hi }
  entries_eq := rfl
  place_eq := rfl

theorem represents_arrayInit (hashVal : κ → Nat) :
    Represents hashVal (arrayInit κ ν) Cursor.empty where
  wf := {
    count := rfl
    heads := rfl
    fresh := by
      intro _
      exact ⟨rfl, rfl⟩
    unchained := by
      intro _
      rfl
    size_pos := Nat.zero_lt_succ 7
    size_le := Nat.le_of_ble_eq_true rfl
    room := Nat.zero_le _
    hashed := by
      intro p hp
      cases hp
    nodup := List.nodup_nil
    chained := by
      intro _
      exact chained_nil 2
    pointer := by
      intro i hi
      cases hi }
  entries_eq := rfl
  place_eq := rfl

end HashTable
end Yaf
