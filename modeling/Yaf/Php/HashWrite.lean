import Yaf.Php.HashCursor

namespace Yaf
open Base

namespace HashTable

section Data
variable {κ ν : Type}

theorem entries_filter_live (ar : List (Bucket κ ν)) : entries (ar.filter isLive) = entries ar := by
  unfold entries
  rw [List.filterMap_filter]
  apply List.filterMap_congr
  intro p _
  cases hv : p.val <;> simp [isLive, hv]

theorem liveAt_of_data {ar br : List (Bucket κ ν)} {i : Nat}
    (h : ar.map Bucket.data = br.map Bucket.data) : liveAt ar i = liveAt br i := by
  have hl : ∀ ar : List (Bucket κ ν),
      liveAt ar i = ((ar.map Bucket.data)[i]?).any fun d => d.2.2.isSome := by
    intro ar
    rw [liveAt, List.getElem?_map, Option.any_map]
    rfl
  rw [hl, hl, h]

theorem place_of_data {ar br : List (Bucket κ ν)} {ptr : Option Nat}
    (h : ar.map Bucket.data = br.map Bucket.data) : place ar ptr = place br ptr := by
  cases ptr with
  | none => rw [place, place, entries_of_data h]
  | some i =>
    have ht : (ar.take i).map Bucket.data = (br.take i).map Bucket.data := by
      rw [List.map_take, List.map_take, h]
    rw [place, place, entries_of_data ht]

/-- Where the pointer is depends on which buckets are live alone. -/
theorem place_of_live {ar br : List (Bucket κ ν)} {ptr : Option Nat}
    (h : ar.map isLive = br.map isLive) : place ar ptr = place br ptr := by
  have hl : ∀ ar : List (Bucket κ ν), (entries ar).length = ((ar.map isLive).filter id).length := by
    intro ar
    rw [length_entries, List.filter_map, List.length_map]
    rfl
  cases ptr with
  | none => rw [place, place, hl, hl, h]
  | some i => rw [place, place, hl, hl, List.map_take, List.map_take, h]

/-- With the holes gone, the pointer's bucket lies where as many live ones precede it. -/
theorem place_filter_live {ar : List (Bucket κ ν)} {k : Nat} {p : Bucket κ ν} {v : ν}
    (hk : ar[k]? = some p) (hv : p.val = some v) :
    liveAt (ar.filter isLive) ((ar.take k).filter isLive).length = true ∧
      place (ar.filter isLive) (some ((ar.take k).filter isLive).length) = place ar (some k) := by
  have hp : isLive p = true := by simp [isLive, hv]
  have hs : ar.filter isLive =
      (ar.take k).filter isLive ++ p :: (ar.drop (k + 1)).filter isLive := by
    conv_lhs => rw [split_at hk, List.filter_append, List.filter_cons_of_pos hp]
  constructor
  · apply liveAt_iff.mpr
    refine ⟨p, v, ?_, hv⟩
    rw [hs]
    simp
  · rw [place, place, hs, List.take_left, entries_filter_live]

theorem initialized_rehash (ht : HashTable κ ν) :
    ht.zendHashRehash.initialized = ht.initialized := by
  unfold zendHashRehash
  split
  · split <;> rfl
  · rfl

theorem packed_rehash (ht : HashTable κ ν) : ht.zendHashRehash.packed = ht.packed := by
  unfold zendHashRehash
  split
  · split <;> rfl
  · rfl

theorem nTableSize_rehash (ht : HashTable κ ν) : ht.zendHashRehash.nTableSize = ht.nTableSize := by
  unfold zendHashRehash
  split
  · split <;> rfl
  · rfl

end Data

section Rehash
variable {κ ν : Type} {r : Rehash κ ν} {ar : List (Bucket κ ν)} {i : Nat} {ptr : Option Nat}

/-- What has been placed of the first `i` buckets: the live ones, on their chains, with the pointer
moved along when its bucket was among them. -/
structure Rehash.Done (ar : List (Bucket κ ν)) (ptr : Option Nat) (heads i : Nat)
    (r : Rehash κ ν) : Prop where
  placed : r.placed.map Bucket.data = ((ar.take i).filter isLive).map Bucket.data
  length : r.heads.length = heads
  chained : Chained r.placed r.heads
  pointer : r.pointer =
    ptr.map fun k => if k < i then ((ar.take k).filter isLive).length else k

theorem Rehash.Done.length_placed {heads : Nat} (h : Rehash.Done ar ptr heads i r) :
    r.placed.length = ((ar.take i).filter isLive).length := by
  have hl := congrArg List.length h.placed
  rwa [List.length_map, List.length_map] at hl

/-- One turn of the loop. -/
theorem Rehash.Done.place {heads : Nat} {p : Bucket κ ν} (h : Rehash.Done ar ptr heads i r)
    (hp : ar[i]? = some p) (live : ∀ k, ptr = some k → liveAt ar k = true) :
    Rehash.Done ar ptr heads (i + 1) (r.place i p) := by
  have htake : ar.take (i + 1) = ar.take i ++ [p] := by
    rw [List.take_add_one, hp, Option.toList_some]
  cases hl : isLive p with
  | false =>
    have hplace : r.place i p = r := by simp [Rehash.place, hl]
    rw [hplace]
    refine ⟨?_, h.length, h.chained, ?_⟩
    · rw [htake, List.filter_append, List.filter_cons_of_neg (by simp [hl]), List.filter_nil,
        List.append_nil]
      exact h.placed
    · rw [h.pointer]
      cases hptr : ptr with
      | none => rfl
      | some k =>
        have hki : k ≠ i := by
          rintro rfl
          have hlive := live k hptr
          rw [liveAt, hp, Option.any_some, hl] at hlive
          cases hlive
        have hiff : k < i ↔ k < i + 1 := by omega
        simp [hiff]
  | true =>
    have hplace : r.place i p =
        { placed := r.placed ++ [p.setNext (r.heads[slot r.heads.length p.h]?).join]
          heads := r.heads.set (slot r.heads.length p.h) (some r.placed.length)
          pointer := if r.pointer = some i then some r.placed.length else r.pointer } := by
      simp [Rehash.place, hl]
    rw [hplace]
    refine ⟨?_, ?_, ?_, ?_⟩
    · rw [htake, List.filter_append, List.filter_cons_of_pos hl, List.filter_nil, List.map_append,
        List.map_append, h.placed]
      rfl
    · rw [List.length_set, h.length]
    · exact chained_push h.chained (p.setNext (r.heads[slot r.heads.length p.h]?).join) hl rfl
    · change (if r.pointer = some i then some r.placed.length else r.pointer) = _
      rw [h.pointer, h.length_placed]
      cases hptr : ptr with
      | none => rfl
      | some k =>
        rcases Nat.lt_trichotomy k i with hk | rfl | hk
        · have hle : ((ar.take k).filter isLive).length ≤ k :=
            Nat.le_trans (List.length_filter_le _ _) (List.length_take_le _ _)
          have hne : ((ar.take k).filter isLive).length ≠ i := by omega
          have hk' : k < i + 1 := by omega
          simp only [Option.map_some, Option.some.injEq, hk, hk', hne, ↓reduceIte]
        · simp
        · have hn : ¬ k < i := by omega
          have hn' : ¬ k < i + 1 := by omega
          have hne : k ≠ i := by omega
          simp only [Option.map_some, Option.some.injEq, hn, hn', hne, ↓reduceIte]

theorem Rehash.Done.from {heads : Nat} {ps : List (Bucket κ ν)} (h : Rehash.Done ar ptr heads i r)
    (hps : ar.drop i = ps) (live : ∀ k, ptr = some k → liveAt ar k = true) :
    Rehash.Done ar ptr heads ar.length (r.from i ps) := by
  induction ps generalizing r i with
  | nil =>
    have hi : ar.length ≤ i := List.drop_eq_nil_iff.mp hps
    refine ⟨?_, h.length, h.chained, ?_⟩
    · rw [List.take_length]
      rw [← List.take_of_length_le hi]
      exact h.placed
    · change r.pointer = _
      rw [h.pointer]
      cases hptr : ptr with
      | none => rfl
      | some k =>
        obtain ⟨p, v, hk, -⟩ := liveAt_iff.mp (live k hptr)
        have hlt := (List.getElem?_eq_some_iff.mp hk).1
        have hki : k < i := by omega
        simp [hlt, hki]
  | cons p ps ih =>
    have hp : ar[i]? = some p := by
      have h0 : (ar.drop i)[0]? = some p := by rw [hps]; rfl
      rwa [List.getElem?_drop, Nat.add_zero] at h0
    have hd : ar.drop (i + 1) = ps := by
      rw [← List.drop_drop, hps]
      rfl
    exact ih (h.place hp live) hd

end Rehash

variable {κ ν : Type} {hashVal : κ → Nat} {ht : HashTable κ ν} {c : Cursor κ ν}

theorem Represents.pointer_none (h : Represents hashVal ht c) (empty : c.entries = []) :
    ht.nInternalPointer = none := by
  cases hptr : ht.nInternalPointer with
  | none => rfl
  | some i =>
    obtain ⟨p, v, hi, hv⟩ := h.wf.atPointer hptr
    have he := entries_split hi hv
    rw [h.entries_eq, empty] at he
    simp at he

/-- Rehashing into any number of heads squeezes out the holes and changes nothing to be seen; what
chains there were does not matter. -/
theorem Represents.rehash (h : Represents hashVal ht c) (init : ht.initialized = true) {size : Nat}
    {heads : List (Option Nat)} (length : heads.length = size) (grows : ht.nTableSize ≤ size)
    (small : size ≤ 2 ^ 32) :
    Represents hashVal
        { ht with packed := false, nTableSize := size, hash := heads }.zendHashRehash c ∧
      { ht with packed := false, nTableSize := size, hash := heads }.zendHashRehash.arData.length =
        c.entries.length := by
  have hpos : 0 < size := Nat.lt_of_lt_of_le h.wf.size_pos grows
  have hcount : ht.nNumOfElements = c.entries.length := h.wf.count.trans (by rw [h.entries_eq])
  by_cases hz : ht.nNumOfElements = 0
  · have he : c.entries = [] := List.eq_nil_of_length_eq_zero (hcount.symm.trans hz)
    have hptr := h.pointer_none he
    have hplace := h.place_eq
    rw [hptr, place, h.entries_eq, he] at hplace
    have hr : { ht with packed := false, nTableSize := size, hash := heads }.zendHashRehash =
        { ht with
          packed := false
          nTableSize := size
          arData := []
          hash := List.replicate heads.length none } := by
      simp [zendHashRehash, hz, init]
    rw [hr]
    refine ⟨⟨⟨hz, ?_, ?_, ?_, hpos, small, Nat.zero_le _, ?_, List.nodup_nil, ?_, ?_⟩, ?_, ?_⟩, ?_⟩
    · simp [init, length]
    · intro hf
      rw [init] at hf
      cases hf
    · intro hpacked
      cases hpacked
    · intro p hp
      cases hp
    · intro _
      exact chained_nil _
    · intro i hi
      rw [hptr] at hi
      cases hi
    · exact he.symm
    · rw [hptr]
      exact hplace
    · rw [he]
      rfl
  · have hstart : Rehash.Done ht.arData ht.nInternalPointer heads.length 0
        ⟨[], List.replicate heads.length none, ht.nInternalPointer⟩ := by
      refine ⟨rfl, List.length_replicate, chained_nil _, ?_⟩
      cases ht.nInternalPointer <;> rfl
    have hdone := hstart.from (List.drop_zero (l := ht.arData)) h.wf.pointer
    have hr : { ht with packed := false, nTableSize := size, hash := heads }.zendHashRehash =
        { ht with
          packed := false
          nTableSize := size
          arData := (Rehash.from ⟨[], List.replicate heads.length none, ht.nInternalPointer⟩ 0
            ht.arData).placed
          hash := (Rehash.from ⟨[], List.replicate heads.length none, ht.nInternalPointer⟩ 0
            ht.arData).heads
          nInternalPointer := (Rehash.from ⟨[], List.replicate heads.length none,
            ht.nInternalPointer⟩ 0 ht.arData).pointer } := by
      simp [zendHashRehash, hz]
    generalize Rehash.from ⟨[], List.replicate heads.length none, ht.nInternalPointer⟩ 0
      ht.arData = r at hdone hr
    have hdata := hdone.placed
    rw [List.take_length] at hdata
    have hentries : entries r.placed = c.entries := by
      rw [entries_of_data hdata, entries_filter_live, h.entries_eq]
    have hlen : r.placed.length = c.entries.length := by
      rw [hdone.length_placed, List.take_length, ← length_entries, h.entries_eq]
    rw [hr]
    refine ⟨⟨⟨?_, ?_, ?_, ?_, hpos, small, ?_, ?_, ?_, ?_, ?_⟩, hentries, ?_⟩, hlen⟩
    · change ht.nNumOfElements = (entries r.placed).length
      rw [hentries, hcount]
    · simpa [init, length] using hdone.length
    · intro hf
      rw [init] at hf
      cases hf
    · intro hpacked
      cases hpacked
    · change r.placed.length ≤ size
      rw [hlen, ← h.entries_eq, length_entries]
      exact Nat.le_trans (List.length_filter_le _ _) (Nat.le_trans h.wf.room grows)
    · intro p hp hlive
      have hm : Bucket.data p ∈ (ht.arData.filter isLive).map Bucket.data := by
        rw [← hdata]
        exact List.mem_map_of_mem hp
      obtain ⟨q, hq, he⟩ := List.mem_map.mp hm
      obtain ⟨hqm, hql⟩ := List.mem_filter.mp hq
      obtain ⟨hqh, hqk⟩ := Prod.mk.inj he
      rw [← hqh, ← (Prod.mk.inj hqk).1]
      exact h.wf.hashed q hqm hql
    · change (entries r.placed).keys.Nodup
      rw [hentries]
      exact c.nodup
    · intro _
      exact hdone.chained
    · intro i hi
      change r.pointer = some i at hi
      rw [hdone.pointer] at hi
      obtain ⟨k, hk, rfl⟩ := Option.map_eq_some_iff.mp hi
      obtain ⟨p, v, hkp, hv⟩ := h.wf.atPointer hk
      rw [if_pos (List.getElem?_eq_some_iff.mp hkp).1]
      change liveAt r.placed _ = true
      rw [liveAt_of_data hdata]
      exact (place_filter_live hkp hv).1
    · change place r.placed r.pointer = c.position
      rw [place_of_data hdata, hdone.pointer, ← h.place_eq]
      cases hk : ht.nInternalPointer with
      | none =>
        change (entries (ht.arData.filter isLive)).length = (entries ht.arData).length
        rw [entries_filter_live]
      | some k =>
        obtain ⟨p, v, hkp, hv⟩ := h.wf.atPointer hk
        rw [Option.map_some, if_pos (List.getElem?_eq_some_iff.mp hkp).1]
        exact (place_filter_live hkp hv).2

theorem with_plain (plain : ht.packed = false) (size : Nat) (heads : List (Option Nat)) :
    { ht with packed := false, nTableSize := size, hash := heads } =
      { ht with nTableSize := size, hash := heads } := by
  rw [← plain]

/-- Making room is either done with holes to spare, or fails on a table of `2 ^ 30` entries. -/
theorem Represents.doResize (h : Represents hashVal ht c) (init : ht.initialized = true)
    (plain : ht.packed = false) (full : ht.nTableSize ≤ ht.arData.length) :
    ht.zendHashDoResize = none ∧ 2 ^ 30 ≤ c.entries.length ∨
    ∃ ht', ht.zendHashDoResize = some ht' ∧ Represents hashVal ht' c ∧
      ht'.initialized = true ∧ ht'.packed = false ∧ ht'.arData.length < ht'.nTableSize := by
  have hcount : ht.nNumOfElements = c.entries.length := h.wf.count.trans (by rw [h.entries_eq])
  have hheads : ht.hash.length = ht.nTableSize := by
    have hh := h.wf.heads
    simpa [init, plain] using hh
  have hroom := h.wf.room
  unfold zendHashDoResize
  by_cases hholes : ht.nNumOfElements + ht.nNumOfElements / 32 < ht.arData.length
  · have hr := h.rehash init hheads (Nat.le_refl _) h.wf.size_le
    rw [with_plain plain] at hr
    right
    refine ⟨ht.zendHashRehash, if_pos hholes, hr.1, ?_, ?_, ?_⟩
    · exact (initialized_rehash ht).trans init
    · exact (packed_rehash ht).trans plain
    · have hl : ht.zendHashRehash.arData.length = c.entries.length := hr.2
      rw [hl, nTableSize_rehash]
      omega
  · rw [if_neg hholes]
    by_cases hmax : ht.nTableSize < HT_MAX_SIZE
    · rw [if_pos hmax]
      have hdouble : ht.nTableSize + ht.nTableSize ≤ 2 ^ 32 := by
        have : HT_MAX_SIZE = 2 ^ 31 := rfl
        omega
      have hr := h.rehash init (List.length_replicate (a := none)) (Nat.le_add_right _ _) hdouble
      rw [with_plain plain] at hr
      right
      refine ⟨_, rfl, hr.1, ?_, ?_, ?_⟩
      · exact (initialized_rehash _).trans init
      · exact (packed_rehash _).trans plain
      · have hpos := h.wf.size_pos
        have hl := hr.2
        rw [nTableSize_rehash]
        change _ < ht.nTableSize + ht.nTableSize
        have hle : c.entries.length ≤ ht.arData.length := by
          rw [← h.entries_eq, length_entries]
          exact List.length_filter_le _ _
        omega
    · rw [if_neg hmax]
      left
      refine ⟨rfl, ?_⟩
      have : HT_MAX_SIZE = 2 ^ 31 := rfl
      omega

theorem take_append_left {ar br : List (Bucket κ ν)} {i : Nat} (h : liveAt ar i = true) :
    (ar ++ br).take i = ar.take i := by
  obtain ⟨p, v, hi, -⟩ := liveAt_iff.mp h
  exact List.take_append_of_le_length (Nat.le_of_lt (List.getElem?_eq_some_iff.mp hi).1)

/-- A new key goes to the end; a pointer that was past the end comes to it. -/
theorem Represents.addToHash [DecidableEq κ] (h : Represents hashVal ht c)
    (init : ht.initialized = true) (plain : ht.packed = false)
    (room : ht.arData.length < ht.nTableSize) {key : κ} (fresh : key ∉ c.entries.keys) (v : ν) :
    Represents hashVal (ht.addToHash (hashVal key) key v) (c.update key v) := by
  let b : Bucket κ ν :=
    ⟨hashVal key, key, some v, (ht.hash[slot ht.hash.length (hashVal key)]?).join⟩
  have hentries : entries (ht.arData ++ [b]) = c.entries.update key v := by
    rw [entries_append, entries_cons_live (v := v) _ rfl, entries_nil, h.entries_eq,
      Table.update_of_not_mem v fresh]
  refine ⟨⟨?_, ?_, ?_, ?_, h.wf.size_pos, h.wf.size_le, ?_, ?_, ?_, ?_, ?_⟩, hentries, ?_⟩
  · change ht.nNumOfElements + 1 = (entries (ht.arData ++ [b])).length
    rw [hentries, Table.update_of_not_mem v fresh, h.wf.count, h.entries_eq]
    simp
  · refine Eq.trans ?_ h.wf.heads
    exact List.length_set
  · intro hf
    change ht.initialized = false at hf
    rw [init] at hf
    cases hf
  · intro hpacked
    change ht.packed = true at hpacked
    rw [plain] at hpacked
    cases hpacked
  · change (ht.arData ++ [b]).length ≤ ht.nTableSize
    rw [List.length_append, List.length_singleton]
    exact room
  · intro p hp hlive
    rcases List.mem_append.mp hp with hp | hp
    · exact h.wf.hashed p hp hlive
    · rw [List.mem_singleton.mp hp]
  · change (entries (ht.arData ++ [b])).keys.Nodup
    rw [hentries]
    exact (c.update key v).nodup
  · intro _
    exact chained_push (h.wf.chained plain) b rfl rfl
  · intro i hi
    change (if ht.nInternalPointer = none then some ht.arData.length else ht.nInternalPointer) =
      some i at hi
    change liveAt (ht.arData ++ [b]) i = true
    cases hptr : ht.nInternalPointer with
    | none =>
      rw [hptr, if_pos rfl, Option.some.injEq] at hi
      rw [← hi]
      simp [liveAt, isLive, b]
    | some k =>
      rw [hptr, if_neg (by simp), Option.some.injEq] at hi
      obtain ⟨p, w, hk, hw⟩ := h.wf.atPointer hptr
      rw [← hi]
      apply liveAt_iff.mpr
      refine ⟨p, w, ?_, hw⟩
      rw [List.getElem?_append_left (List.getElem?_eq_some_iff.mp hk).1, hk]
  · change place (ht.arData ++ [b])
      (if ht.nInternalPointer = none then some ht.arData.length else ht.nInternalPointer) =
      c.position
    have hplace := h.place_eq
    cases hptr : ht.nInternalPointer with
    | none =>
      rw [hptr, place] at hplace
      rw [if_pos rfl, place, List.take_left, hplace]
    | some k =>
      rw [hptr, place] at hplace
      rw [if_neg (by simp), place, take_append_left (h.wf.pointer k hptr), hplace]

section modify
variable {ar : List (Bucket κ ν)} {i : Nat} {p : Bucket κ ν} {f : Bucket κ ν → Bucket κ ν}

/-- Links are read off the bucket alone. -/
theorem links_modify (keeps : ∀ p, (f p).next = p.next) (j : Nat) :
    links (ar.modify i f) j = links ar j := by
  unfold links
  by_cases hj : i = j
  · subst hj
    rw [List.getElem?_modify_eq]
    cases hi : ar[i]? with
    | none => rfl
    | some p => exact keeps p
  · rw [List.getElem?_modify_ne f ar hj]

theorem not_mem_take {v : ν} (nodup : (entries ar).keys.Nodup) (hi : ar[i]? = some p)
    (hv : p.val = some v) : p.key ∉ (entries (ar.take i)).keys := by
  rw [entries_split hi hv, Table.keys_append, Table.keys_cons] at nodup
  intro hm
  exact (List.nodup_append.mp nodup).2.2 _ hm _ List.mem_cons_self rfl

end modify

/-- A value written over keeps the bucket where it is. -/
theorem Represents.overwrite [DecidableEq κ] (h : Represents hashVal ht c) {i : Nat}
    {p : Bucket κ ν} (hi : ht.arData[i]? = some p) (hp : isLive p = true) (v : ν) :
    Represents hashVal { ht with arData := ht.arData.modify i (Bucket.setVal (some v)) }
      (c.update p.key v) := by
  obtain ⟨w, hw⟩ := Option.isSome_iff_exists.mp hp
  have hlt := (List.getElem?_eq_some_iff.mp hi).1
  have hself : (ht.arData.modify i (Bucket.setVal (some v)))[i]? = some (p.setVal (some v)) := by
    rw [List.getElem?_modify_eq, hi]
    rfl
  have hon : ∀ n j, onChain (ht.arData.modify i (Bucket.setVal (some v))) ht.hash.length n j =
      onChain ht.arData ht.hash.length n j := by
    intro n j
    unfold onChain
    by_cases hj : i = j
    · subst hj
      rw [hself, hi, Option.any_some, Option.any_some, hp]
      rfl
    · rw [List.getElem?_modify_ne _ _ hj]
  have hfresh := not_mem_take h.wf.nodup hi hw
  have hentries : entries (ht.arData.modify i (Bucket.setVal (some v))) =
      c.entries.update p.key v := by
    rw [← h.entries_eq, entries_split hi hw, Table.update_middle v hfresh,
      List.modify_eq_take_cons_drop hlt, entries_append, entries_cons_live (v := v) _ rfl]
    obtain ⟨-, rfl⟩ := List.getElem?_eq_some_iff.mp hi
    rfl
  refine ⟨⟨?_, ?_, ?_, h.wf.unchained, h.wf.size_pos, h.wf.size_le, ?_, ?_, ?_, ?_, ?_⟩, hentries,
    ?_⟩
  · change ht.nNumOfElements = (entries (ht.arData.modify i (Bucket.setVal (some v)))).length
    have hm : p.key ∈ c.entries.keys := by
      rw [← h.entries_eq]
      exact Table.mem_keys_of_find? (find?_entries_of_live h.wf.nodup hi hw)
    have hk := congrArg List.length (Table.keys_update_of_mem v hm)
    rw [Table.length_keys, Table.length_keys] at hk
    rw [hentries, hk, h.wf.count, h.entries_eq]
  · exact h.wf.heads
  · intro hf
    obtain ⟨he, -⟩ := h.wf.fresh hf
    rw [he] at hi
    cases hi
  · change (ht.arData.modify i (Bucket.setVal (some v))).length ≤ ht.nTableSize
    rw [List.length_modify]
    exact h.wf.room
  · intro q hq hlive
    obtain ⟨j, hj⟩ := List.mem_iff_getElem?.mp hq
    by_cases hij : i = j
    · subst hij
      rw [hself] at hj
      rw [← Option.some.inj hj]
      exact h.wf.hashed p (List.mem_of_getElem? hi) hp
    · rw [List.getElem?_modify_ne _ _ hij] at hj
      exact h.wf.hashed q (List.mem_of_getElem? hj) hlive
  · change (entries (ht.arData.modify i (Bucket.setVal (some v)))).keys.Nodup
    rw [hentries]
    exact (c.update p.key v).nodup
  · intro plain n hn
    rw [chain_congr (hon n)]
    apply (h.wf.chained plain n hn).congr
    intro j _
    apply links_modify
    intro q
    rfl
  · intro k hk
    obtain ⟨q, u, hq, hu⟩ := h.wf.atPointer hk
    apply liveAt_iff.mpr
    by_cases hik : i = k
    · subst hik
      exact ⟨_, v, hself, rfl⟩
    · exact ⟨q, u, by rw [List.getElem?_modify_ne _ _ hik, hq], hu⟩
  · have hmap :
      (ht.arData.modify i (Bucket.setVal (some v))).map isLive = ht.arData.map isLive := by
      apply List.ext_getElem?
      intro j
      rw [List.getElem?_map, List.getElem?_map]
      by_cases hij : i = j
      · subst hij
        rw [hself, hi, Option.map_some, Option.map_some, hp]
        rfl
      · rw [List.getElem?_modify_ne _ _ hij]
    exact (place_of_live hmap).trans h.place_eq

theorem Represents.realInit (h : Represents hashVal ht c) (init : ht.initialized = false) :
    Represents hashVal ht.zendHashRealInit c := by
  obtain ⟨hnil, hplain⟩ := h.wf.fresh init
  refine ⟨⟨h.wf.count, ?_, ?_, ?_, h.wf.size_pos, h.wf.size_le, h.wf.room, h.wf.hashed, h.wf.nodup,
    ?_, h.wf.pointer⟩, h.entries_eq, h.place_eq⟩
  · change (List.replicate ht.nTableSize none).length =
      if true && !ht.packed then ht.nTableSize else 2
    rw [hplain]
    exact List.length_replicate
  · intro hf
    cases hf
  · intro hpacked
    change ht.packed = true at hpacked
    rw [hplain] at hpacked
    cases hpacked
  · intro _
    change Chained ht.arData (List.replicate ht.nTableSize none)
    rw [hnil]
    exact chained_nil ht.nTableSize

/-- A packed table that gets its chains holds what it held. -/
theorem Represents.packedToHash (h : Represents hashVal ht c) (init : ht.initialized = true) :
    Represents hashVal ht.zendHashPackedToHash c :=
  (h.rehash init (List.length_replicate (a := none)) (Nat.le_refl _) h.wf.size_le).1

/-- A new key is written, unless a table of `2 ^ 30` entries cannot grow. -/
theorem Represents.addWithRoom [DecidableEq κ] (h : Represents hashVal ht c)
    (init : ht.initialized = true) (plain : ht.packed = false) {key : κ}
    (fresh : key ∉ c.entries.keys) (v : ν) :
    ht.addWithRoom (hashVal key) key v = none ∧ 2 ^ 30 ≤ c.entries.length ∨
    ∃ ht', ht.addWithRoom (hashVal key) key v = some ht' ∧ ht'.packed = false ∧
      Represents hashVal ht' (c.update key v) := by
  unfold HashTable.addWithRoom
  by_cases hfull : ht.nTableSize ≤ ht.arData.length
  · rw [if_pos hfull]
    rcases h.doResize init plain hfull with ⟨hn, hbig⟩ | ⟨ht', hs, hr, hinit, hplain, hroom⟩
    · left
      rw [hn]
      exact ⟨rfl, hbig⟩
    · right
      rw [hs]
      exact ⟨_, rfl, hplain, hr.addToHash hinit hplain hroom fresh v⟩
  · right
    rw [if_neg hfull]
    exact ⟨_, rfl, plain, h.addToHash init plain (Nat.lt_of_not_le hfull) fresh v⟩

/-- `zend_hash_update` writes the entry and leaves no table packed, unless one of `2 ^ 30` entries
cannot grow. -/
theorem Represents.update [DecidableEq κ] (h : Represents hashVal ht c) {key : κ}
    (by' : ByChain ht key) (v : ν) :
    ht.zendHashUpdate hashVal key v = none ∧ 2 ^ 30 ≤ c.entries.length ∨
    ∃ ht', ht.zendHashUpdate hashVal key v = some ht' ∧ ht'.packed = false ∧
      Represents hashVal ht' (c.update key v) := by
  unfold zendHashUpdate
  by_cases init : ht.initialized = true
  · rw [if_pos init]
    by_cases hpacked : ht.packed = true
    · rw [if_pos hpacked]
      have hc : key ∉ c.entries.keys := h.entries_eq ▸ by' hpacked
      have hinit : ht.zendHashPackedToHash.initialized = true :=
        (initialized_rehash _).trans init
      exact (h.packedToHash init).addWithRoom hinit (packed_rehash _) hc v
    · have hplain : ht.packed = false := Bool.eq_false_iff.mpr hpacked
      rw [if_neg hpacked]
      by_cases hk : key ∈ (entries ht.arData).keys
      · obtain ⟨i, p, hi, hp, rfl⟩ := exists_bucket hk
        obtain ⟨l₁, l₂, -, hw⟩ := h.wf.walkTo_some hplain hi hp
        rw [zendHashFindBucket, hw]
        exact Or.inr ⟨_, rfl, hplain, h.overwrite hi hp v⟩
      · rw [zendHashFindBucket, h.wf.walkTo_none hk]
        exact h.addWithRoom init hplain (h.entries_eq ▸ hk) v
  · have hf : ht.initialized = false := Bool.eq_false_iff.mpr init
    rw [if_neg init]
    obtain ⟨hnil, hplain⟩ := h.wf.fresh hf
    have hc : key ∉ c.entries.keys := by
      rw [← h.entries_eq, hnil]
      exact List.not_mem_nil
    have hroom : ht.zendHashRealInit.arData.length < ht.zendHashRealInit.nTableSize := by
      change ht.arData.length < ht.nTableSize
      rw [hnil]
      exact h.wf.size_pos
    exact Or.inr ⟨_, rfl, hplain, (h.realInit hf).addToHash rfl hplain hroom hc v⟩

theorem Represents.of_update [DecidableEq κ] (h : Represents hashVal ht c) {key : κ}
    (by' : ByChain ht key) {v : ν} {ht' : HashTable κ ν}
    (hu : ht.zendHashUpdate hashVal key v = some ht') :
    ht'.packed = false ∧ Represents hashVal ht' (c.update key v) := by
  rcases h.update by' v with ⟨hn, -⟩ | ⟨ht₁, hs, hr⟩
  · rw [hn] at hu
    cases hu
  · rw [hs] at hu
    rwa [← Option.some.inj hu]

end HashTable
end Yaf
