import Yaf.Php.HashWrite

namespace Yaf
open Base

namespace HashTable

section holes
variable {κ ν : Type} {ar holes : List (Bucket κ ν)}

theorem liveAt_append_holes (hh : ∀ b ∈ holes, isLive b = false) (i : Nat) :
    liveAt (ar ++ holes) i = liveAt ar i := by
  unfold liveAt
  rcases Nat.lt_or_ge i ar.length with hi | hi
  · rw [List.getElem?_append_left hi]
  · rw [List.getElem?_append_right hi, List.getElem?_eq_none hi, Option.any_none]
    cases hb : holes[i - ar.length]? with
    | none => rfl
    | some b => exact hh b (List.mem_of_getElem? hb)

theorem onChain_append_holes (hh : ∀ b ∈ holes, isLive b = false) (H n i : Nat) :
    onChain (ar ++ holes) H n i = onChain ar H n i := by
  unfold onChain
  rcases Nat.lt_or_ge i ar.length with hi | hi
  · rw [List.getElem?_append_left hi]
  · rw [List.getElem?_append_right hi, List.getElem?_eq_none hi, Option.any_none]
    cases hb : holes[i - ar.length]? with
    | none => rfl
    | some b => simp [hh b (List.mem_of_getElem? hb)]

theorem entries_append_holes (hh : ∀ b ∈ holes, isLive b = false) :
    entries (ar ++ holes) = entries ar := by
  rw [entries_append, entries_holes hh, List.append_nil]

theorem entries_take_append_holes (hh : ∀ b ∈ holes, isLive b = false) (m : Nat) :
    entries ((ar ++ holes).take m) = entries (ar.take m) := by
  rw [List.take_append]
  apply entries_append_holes
  intro b hb
  exact hh b (List.mem_of_mem_take hb)

theorem place_append_holes (hh : ∀ b ∈ holes, isLive b = false) (ptr : Option Nat) :
    place (ar ++ holes) ptr = place ar ptr := by
  cases ptr with
  | none => rw [place, place, entries_append_holes hh]
  | some i => rw [place, place, entries_take_append_holes hh]

/-- Only holes fall out of use. -/
theorem dropHoles_append (ar : List (Bucket κ ν)) :
    ∃ holes, ar = dropHoles ar ++ holes ∧ ∀ b ∈ holes, isLive b = false := by
  refine ⟨ar.rtakeWhile fun p => !isLive p, (List.rdropWhile_append_rtakeWhile ..).symm, ?_⟩
  intro b hb
  simpa using List.mem_rtakeWhile_imp hb

@[simp] theorem length_relink (ar : List (Bucket κ ν)) (prev next : Option Nat) :
    (relink ar prev next).length = ar.length := by
  cases prev with
  | none => rfl
  | some q => exact List.length_modify ..

@[simp] theorem data_relink (ar : List (Bucket κ ν)) (prev next : Option Nat) :
    (relink ar prev next).map Bucket.data = ar.map Bucket.data := by
  cases prev with
  | none => rfl
  | some q =>
    apply List.ext_getElem?
    intro j
    rw [List.getElem?_map, List.getElem?_map]
    by_cases hj : q = j
    · subst hj
      rw [relink, List.getElem?_modify_eq]
      cases ar[q]? <;> rfl
    · rw [relink, List.getElem?_modify_ne _ _ hj]

/-- What is left in use and the holes behind it are the buckets with the one at `idx` undefined. -/
theorem used_append (ar : List (Bucket κ ν)) {idx : Nat} (lt : idx < ar.length) :
    ∃ holes, ar.modify idx (Bucket.setVal none) =
        (used ar idx).modify idx (Bucket.setVal none) ++ holes ∧
      ∀ b ∈ holes, isLive b = false := by
  unfold used
  by_cases hl : ar.length = idx + 1
  · rw [if_pos hl]
    obtain ⟨front, last, rfl⟩ : ∃ front last, ar = front ++ [last] := by
      have hne : ar ≠ [] := List.ne_nil_of_length_pos (Nat.zero_lt_of_lt lt)
      exact ⟨ar.dropLast, ar.getLast hne, (List.dropLast_concat_getLast hne).symm⟩
    have hidx : front.length = idx := by simpa using hl
    obtain ⟨holes, hd, hh⟩ := dropHoles_append front
    have hle : (dropHoles front).length ≤ idx := by
      have := congrArg List.length hd
      rw [List.length_append] at this
      omega
    refine ⟨holes ++ [last.setVal none], ?_, ?_⟩
    · rw [List.dropLast_concat, List.modify_eq_self hle, ← List.append_assoc, ← hd,
        List.modify_eq_take_drop, ← hidx, List.take_left, List.drop_left]
      rfl
    · intro b hb
      rcases List.mem_append.mp hb with hb | hb
      · exact hh b hb
      · rw [List.mem_singleton.mp hb]
        rfl
  · rw [if_neg hl]
    exact ⟨[], by rw [List.append_nil], by simp⟩

end holes

section undefined
variable {κ ν : Type} {ar br : List (Bucket κ ν)} {idx : Nat} {prev next : Option Nat}

/-- The buckets once the one at `idx` is off its chain and undefined, none taken out of use yet. -/
def undefined (ar : List (Bucket κ ν)) (idx : Nat) (prev next : Option Nat) : List (Bucket κ ν) :=
  (relink ar prev next).modify idx (Bucket.setVal none)

theorem data_undefined : (undefined ar idx prev next).map Bucket.data =
    (ar.modify idx (Bucket.setVal none)).map Bucket.data := by
  apply List.ext_getElem?
  intro j
  have hd := congrArg (fun l => l[j]?) (data_relink ar prev next)
  simp only [List.getElem?_map] at hd
  rw [List.getElem?_map, List.getElem?_map, undefined]
  by_cases hj : idx = j
  · subst hj
    rw [List.getElem?_modify_eq, List.getElem?_modify_eq]
    cases ha : ar[idx]? with
    | none =>
      rw [ha, Option.map_none, Option.map_eq_none_iff] at hd
      rw [hd]
    | some p =>
      rw [ha, Option.map_some] at hd
      obtain ⟨q, hq, hdata⟩ := Option.map_eq_some_iff.mp hd
      obtain ⟨hh, hk⟩ := Prod.mk.inj hdata
      obtain ⟨hk, -⟩ := Prod.mk.inj hk
      rw [hq]
      simp [Bucket.data, Bucket.setVal, hh, hk]
  · rw [List.getElem?_modify_ne _ _ hj, List.getElem?_modify_ne _ _ hj]
    exact hd

theorem onChain_of_data (h : ar.map Bucket.data = br.map Bucket.data) (H n i : Nat) :
    onChain ar H n i = onChain br H n i := by
  have hl : ∀ ar : List (Bucket κ ν), onChain ar H n i =
      ((ar.map Bucket.data)[i]?).any fun d => d.2.2.isSome && decide (slot H d.1 = n) := by
    intro ar
    rw [onChain, List.getElem?_map, Option.any_map]
    rfl
  rw [hl, hl, h]

theorem liveAt_modify_none (j : Nat) :
    liveAt (ar.modify idx (Bucket.setVal none)) j = (liveAt ar j && j != idx) := by
  unfold liveAt
  by_cases hj : idx = j
  · subst hj
    rw [bne_self_eq_false, Bool.and_false, List.getElem?_modify_eq]
    cases ar[idx]? <;> rfl
  · rw [bne_iff_ne.mpr (Ne.symm hj), Bool.and_true, List.getElem?_modify_ne _ _ hj]

theorem onChain_modify_none (H n j : Nat) :
    onChain (ar.modify idx (Bucket.setVal none)) H n j = (onChain ar H n j && j != idx) := by
  unfold onChain
  by_cases hj : idx = j
  · subst hj
    rw [bne_self_eq_false, Bool.and_false, List.getElem?_modify_eq]
    cases ar[idx]? <;> rfl
  · rw [bne_iff_ne.mpr (Ne.symm hj), Bool.and_true, List.getElem?_modify_ne _ _ hj]

theorem entries_take_modify_none (ar : List (Bucket κ ν)) (idx : Nat) :
    entries ((ar.modify idx (Bucket.setVal none)).take (idx + 1)) = entries (ar.take idx) := by
  rw [entries_take_holes (Nat.le_succ idx), List.take_modify,
    List.modify_eq_self (List.length_take_le _ _)]
  intro k hk hlt
  have hki : k = idx := by omega
  rw [liveAt_modify_none, hki, bne_self_eq_false, Bool.and_false]

theorem entries_modify_none [DecidableEq κ] {p : Bucket κ ν} {v : ν}
    (nodup : (entries ar).keys.Nodup) (hi : ar[idx]? = some p) (hv : p.val = some v) :
    entries (ar.modify idx (Bucket.setVal none)) = (entries ar).erase p.key := by
  have hlt := (List.getElem?_eq_some_iff.mp hi).1
  rw [entries_split hi hv, Table.erase_middle (not_mem_take nodup hi hv),
    List.modify_eq_take_cons_drop hlt, entries_append, entries_cons_hole _ rfl]

end undefined

variable {κ ν : Type} {hashVal : κ → Nat} {ht : HashTable κ ν} {c : Cursor κ ν}

section place
variable {ar : List (Bucket κ ν)} {idx : Nat} {p : Bucket κ ν} {v : ν}

/-- The place of a pointer elsewhere, once the bucket at `idx` is undefined. -/
theorem place_modify_none [DecidableEq κ] (nodup : (entries ar).keys.Nodup) (hi : ar[idx]? = some p)
    (hv : p.val = some v) {ptr : Option Nat} (live : ∀ k, ptr = some k → liveAt ar k = true)
    (other : ptr ≠ some idx) :
    place (ar.modify idx (Bucket.setVal none)) ptr =
      if (entries ar).rank p.key < place ar ptr then place ar ptr - 1 else place ar ptr := by
  have hrank : (entries ar).rank p.key = (entries (ar.take idx)).length := by
    rw [entries_split hi hv, Table.rank_middle (not_mem_take nodup hi hv)]
  cases ptr with
  | none =>
    have hm : p.key ∈ (entries ar).keys :=
      Table.mem_keys_of_find? (find?_entries_of_live nodup hi hv)
    have hlen := Table.length_erase_of_mem hm
    have hlt := Table.rank_lt hm
    rw [place, place, entries_modify_none nodup hi hv, if_pos hlt]
    omega
  | some k =>
    obtain ⟨q, w, hk, hw⟩ := liveAt_iff.mp (live k rfl)
    have hne : k ≠ idx := by
      rintro rfl
      exact other rfl
    rw [place, place, List.take_modify, hrank]
    rcases Nat.lt_or_gt_of_ne hne with hlt | hlt
    · have hle : (entries (ar.take k)).length ≤ (entries (ar.take idx)).length := by
        have hp := List.take_sublist_take_left (l := ar) (Nat.le_of_lt hlt)
        exact (hp.filterMap _).length_le
      rw [List.modify_eq_self (Nat.le_trans (List.length_take_le _ _) (Nat.le_of_lt hlt)),
        if_neg (Nat.not_lt_of_le hle)]
    · have hki : (ar.take k)[idx]? = some p := by
        rw [List.getElem?_take, if_pos hlt, hi]
      have hnodup : (entries (ar.take k)).keys.Nodup := by
        have hn := nodup
        rw [← List.take_append_drop k ar, entries_append, Table.keys_append] at hn
        exact (List.nodup_append.mp hn).1
      have hm : p.key ∈ (entries (ar.take k)).keys :=
        Table.mem_keys_of_find? (find?_entries_of_live hnodup hki hv)
      have hlen := Table.length_erase_of_mem hm
      have hrk := Table.rank_lt hm
      rw [entries_split hki hv, Table.rank_middle (not_mem_take hnodup hki hv), List.take_take,
        Nat.min_eq_left (Nat.le_of_lt hlt), List.length_append] at hrk
      rw [entries_modify_none hnodup hki hv, if_pos]
      · omega
      · rw [entries_split hki hv, List.take_take, Nat.min_eq_left (Nat.le_of_lt hlt),
          List.length_append]
        exact hrk

end place

section chained
variable {ar holes : List (Bucket κ ν)} {heads : List (Option Nat)} {idx : Nat} {p : Bucket κ ν}
  {l₁ l₂ : List Nat}

theorem links_undefined {prev next : Option Nat} (j : Nat) :
    links (undefined ar idx prev next) j = links (relink ar prev next) j := by
  apply links_modify
  intro q
  rfl

theorem links_relink_ne {q j : Nat} {next : Option Nat} (hj : q ≠ j) :
    links (relink ar (some q) next) j = links ar j := by
  rw [relink, links, List.getElem?_modify_ne _ _ hj, ← links]

theorem links_relink_self {q : Nat} {next : Option Nat} (hq : q < ar.length) :
    links (relink ar (some q) next) q = next := by
  rw [relink, links, List.getElem?_modify_eq, List.getElem?_eq_getElem hq]
  rfl

/-- A bucket taken off its chain leaves every chain whole. -/
theorem chained_undefined (h : Chained ar heads) (hi : ar[idx]? = some p)
    (hc : chain ar heads.length (slot heads.length p.h) = l₁ ++ idx :: l₂) :
    Chained (undefined ar idx l₁.getLast? p.next)
      (if l₁.getLast? = none then heads.set (slot heads.length p.h) p.next else heads) := by
  have hlen : (if l₁.getLast? = none then heads.set (slot heads.length p.h) p.next
      else heads).length = heads.length := by
    split
    · exact List.length_set
    · rfl
  have hlinks : links ar idx = p.next := by rw [links, hi, Option.bind_some]
  intro n hn
  rw [hlen] at hn ⊢
  have hchain : chain (undefined ar idx l₁.getLast? p.next) heads.length n =
      (chain ar heads.length n).filter (· != idx) := by
    apply chain_without
    intro j
    rw [onChain_of_data data_undefined, onChain_modify_none]
  have hlinked := h n hn
  rw [hchain]
  by_cases hs : slot heads.length p.h = n
  · rw [← hs] at hlinked hn ⊢
    have hnodup : (l₁ ++ idx :: l₂).Nodup := hc ▸ nodup_chain
    obtain ⟨hn₁, hn₂, hd⟩ := List.nodup_append.mp hnodup
    have hrest : (chain ar heads.length (slot heads.length p.h)).filter (· != idx) = l₁ ++ l₂ := by
      rw [hc, List.filter_append, List.filter_cons_of_neg (by simp)]
      congr 1
      · apply List.filter_eq_self.mpr
        intro j hj
        exact bne_iff_ne.mpr (hd j hj idx List.mem_cons_self)
      · apply List.filter_eq_self.mpr
        intro j hj
        apply bne_iff_ne.mpr
        rintro rfl
        exact (List.nodup_cons.mp hn₂).1 hj
    rw [hrest]
    rw [hc] at hlinked
    rcases List.eq_nil_or_concat' l₁ with rfl | ⟨l₀, q, rfl⟩
    · rw [List.getLast?_nil, if_pos rfl, List.getElem?_set_self hn, Option.join_some, ← hlinks]
      apply hlinked.dropFirst
      intro j _
      exact links_undefined j
    · rw [List.getLast?_concat, if_neg (by simp), List.append_assoc, List.singleton_append]
      rw [List.append_assoc, List.singleton_append] at hlinked
      have hq : q < ar.length := by
        apply lt_of_mem_chain
        rw [hc]
        exact List.mem_append_left _ (List.mem_append_right _ List.mem_cons_self)
      apply hlinked.skip
      · rw [links_undefined, links_relink_self hq, hlinks]
      · intro j hj
        rw [links_undefined, links_relink_ne]
        rintro rfl
        rcases List.mem_append.mp hj with hj | hj
        · exact (List.nodup_append.mp hn₁).2.2 q hj q List.mem_cons_self rfl
        · exact hd q (by simp) q (List.mem_cons_of_mem _ hj) rfl
  · have hrest : (chain ar heads.length n).filter (· != idx) = chain ar heads.length n := by
      apply List.filter_eq_self.mpr
      intro j hj
      apply bne_iff_ne.mpr
      rintro rfl
      obtain ⟨q, hq, -, hqs⟩ := onChain_iff.mp (mem_chain.mp hj)
      rw [hi] at hq
      rw [← Option.some.inj hq] at hqs
      exact hs hqs
    rw [hrest]
    have hhead : ((if l₁.getLast? = none then heads.set (slot heads.length p.h) p.next
        else heads)[n]?).join = (heads[n]?).join := by
      split
      · rw [List.getElem?_set_ne hs]
      · rfl
    rw [hhead]
    apply hlinked.congr
    intro j hj
    rw [links_undefined]
    cases hl : l₁.getLast? with
    | none => rfl
    | some q =>
      apply links_relink_ne
      rintro rfl
      have hqc : q ∈ chain ar heads.length (slot heads.length p.h) := by
        rw [hc]
        exact List.mem_append_left _ (List.mem_of_getLast? hl)
      obtain ⟨b, hb, -, hbs⟩ := onChain_iff.mp (mem_chain.mp hqc)
      obtain ⟨b', hb', -, hbn⟩ := onChain_iff.mp (mem_chain.mp hj)
      rw [hb] at hb'
      rw [← Option.some.inj hb', hbs] at hbn
      exact hs hbn

/-- Holes at the end are on no chain. -/
theorem chained_of_append_holes (hh : ∀ b ∈ holes, isLive b = false)
    (h : Chained (ar ++ holes) heads) : Chained ar heads := by
  intro n hn
  have hc : chain (ar ++ holes) heads.length n = chain ar heads.length n :=
    chain_congr (onChain_append_holes hh heads.length n)
  have hl := h n hn
  rw [hc] at hl
  apply hl.congr
  intro j hj
  rw [links, links, List.getElem?_append_left (lt_of_mem_chain hj)]

end chained

theorem zendHashDelElEx_eq {idx : Nat} {p : Bucket κ ν} {prev : Option Nat}
    (hi : ht.arData[idx]? = some p) :
    ht.zendHashDelElEx idx prev =
      { ht with
        hash := if prev = none then ht.hash.set (slot ht.hash.length p.h) p.next else ht.hash
        arData := (used (relink ht.arData prev p.next) idx).modify idx (Bucket.setVal none)
        nNumOfElements := ht.nNumOfElements - 1
        nInternalPointer :=
          if ht.nInternalPointer = some idx then
            liveFrom (used (relink ht.arData prev p.next) idx) (idx + 1)
          else ht.nInternalPointer } := by
  rw [zendHashDelElEx, hi]

theorem packed_delElEx (ht : HashTable κ ν) (idx : Nat) (prev : Option Nat) :
    (ht.zendHashDelElEx idx prev).packed = ht.packed := by
  unfold zendHashDelElEx
  split <;> rfl

theorem Represents.delElEx [DecidableEq κ] (h : Represents hashVal ht c) (plain : ht.packed = false)
    {idx : Nat} {p : Bucket κ ν} {l₁ l₂ : List Nat} (hi : ht.arData[idx]? = some p)
    (hp : isLive p = true)
    (hc : chain ht.arData ht.hash.length (slot ht.hash.length p.h) = l₁ ++ idx :: l₂) :
    Represents hashVal (ht.zendHashDelElEx idx l₁.getLast?) (c.erase p.key) := by
  obtain ⟨v, hv⟩ := Option.isSome_iff_exists.mp hp
  have hlt := (List.getElem?_eq_some_iff.mp hi).1
  have hchained := chained_undefined (h.wf.chained plain) hi hc
  have hdata : (undefined ht.arData idx l₁.getLast? p.next).map Bucket.data =
      (ht.arData.modify idx (Bucket.setVal none)).map Bucket.data := data_undefined
  obtain ⟨holes, happend, hh⟩ :=
    used_append (relink ht.arData l₁.getLast? p.next) (by rwa [length_relink])
  rw [zendHashDelElEx_eq hi]
  generalize hu : used (relink ht.arData l₁.getLast? p.next) idx = kept at happend
  change undefined ht.arData idx l₁.getLast? p.next = _ at happend
  rw [happend] at hchained hdata
  generalize hf : kept.modify idx (Bucket.setVal none) = final at happend hchained hdata
  have hentries : entries final = c.entries.erase p.key := by
    rw [← entries_append_holes hh, entries_of_data hdata, entries_modify_none h.wf.nodup hi hv,
      h.entries_eq]
  have hm : p.key ∈ c.entries.keys := by
    rw [← h.entries_eq]
    exact Table.mem_keys_of_find? (find?_entries_of_live h.wf.nodup hi hv)
  have hfrom : liveFrom kept (idx + 1) = liveFrom final (idx + 1) := by
    rw [liveFrom, liveFrom, ← hf, List.drop_modify_of_lt _ _ _ _ (Nat.lt_succ_self idx)]
  have hlive' : ∀ j, liveAt final j = (liveAt ht.arData j && j != idx) := by
    intro j
    rw [← liveAt_append_holes hh, liveAt_of_data hdata, liveAt_modify_none]
  refine ⟨⟨?_, ?_, ?_, ?_, h.wf.size_pos, h.wf.size_le, ?_, ?_, ?_, ?_, ?_⟩, hentries, ?_⟩
  · change ht.nNumOfElements - 1 = (entries final).length
    have hlen := Table.length_erase_of_mem hm
    rw [hentries, h.wf.count, h.entries_eq]
    omega
  · refine Eq.trans ?_ h.wf.heads
    change (if l₁.getLast? = none then ht.hash.set (slot ht.hash.length p.h) p.next
      else ht.hash).length = ht.hash.length
    split
    · exact List.length_set
    · rfl
  · intro hf
    rw [(h.wf.fresh hf).1] at hi
    cases hi
  · intro hpacked
    change ht.packed = true at hpacked
    rw [plain] at hpacked
    cases hpacked
  · have hlen := congrArg List.length hdata
    rw [List.length_map, List.length_map, List.length_append, List.length_modify] at hlen
    exact Nat.le_trans (Nat.le_of_add_right_le (Nat.le_of_eq hlen)) h.wf.room
  · intro q hq hlive
    obtain ⟨j, hj⟩ := List.mem_iff_getElem?.mp hq
    have hlj : liveAt final j = true := by rw [liveAt, hj, Option.any_some, hlive]
    rw [hlive', Bool.and_eq_true, bne_iff_ne] at hlj
    have hd := congrArg (fun l => l[j]?) hdata
    simp only [List.getElem?_map] at hd
    rw [List.getElem?_append_left (List.getElem?_eq_some_iff.mp hj).1, hj,
      List.getElem?_modify_ne _ _ (Ne.symm hlj.2), Option.map_some] at hd
    obtain ⟨b, hb, hbd⟩ := Option.map_eq_some_iff.mp hd.symm
    obtain ⟨hbh, hbk⟩ := Prod.mk.inj hbd
    obtain ⟨hbk, hbv⟩ := Prod.mk.inj hbk
    rw [← hbh, ← hbk]
    apply h.wf.hashed b (List.mem_of_getElem? hb)
    rw [isLive, hbv]
    exact hlive
  · change (entries final).keys.Nodup
    rw [hentries]
    exact (c.erase p.key).nodup
  · intro _
    exact chained_of_append_holes hh hchained
  · intro i hi'
    change (if ht.nInternalPointer = some idx then liveFrom kept (idx + 1)
      else ht.nInternalPointer) = some i at hi'
    change liveAt final i = true
    by_cases hptr : ht.nInternalPointer = some idx
    · rw [if_pos hptr, hfrom] at hi'
      exact (liveFrom_some hi').2.1
    · rw [if_neg hptr] at hi'
      rw [hlive', h.wf.pointer i hi', Bool.true_and, bne_iff_ne]
      rintro rfl
      exact hptr hi'
  · change place final (if ht.nInternalPointer = some idx then liveFrom kept (idx + 1)
      else ht.nInternalPointer) = if c.entries.rank p.key < c.position then c.position - 1
        else c.position
    have hplace := h.place_eq
    by_cases hptr : ht.nInternalPointer = some idx
    · rw [hptr, place] at hplace
      have hrank : c.entries.rank p.key = c.position := by
        rw [← hplace, ← h.entries_eq, entries_split hi hv,
          Table.rank_middle (not_mem_take h.wf.nodup hi hv)]
      rw [if_pos hptr, hfrom, place_liveFrom, ← entries_take_append_holes hh, hrank,
        if_neg (Nat.lt_irrefl _), ← hplace, ← entries_take_modify_none ht.arData idx]
      congr 1
      apply entries_of_data
      rw [List.map_take, List.map_take, hdata]
    · rw [if_neg hptr, ← place_append_holes hh, place_of_data hdata,
        place_modify_none h.wf.nodup hi hv h.wf.pointer hptr, hplace, h.entries_eq]

/-- `zend_hash_del` takes the entry out and moves the pointer off it, or finds nothing to take. -/
theorem Represents.del [DecidableEq κ] (h : Represents hashVal ht c) {key : κ}
    (by' : ByChain ht key) :
    ht.zendHashDel hashVal key = none ∧ key ∉ c.entries.keys ∨
    ∃ ht', ht.zendHashDel hashVal key = some ht' ∧ ht'.packed = false ∧ key ∈ c.entries.keys ∧
      Represents hashVal ht' (c.erase key) := by
  unfold zendHashDel
  by_cases hk : key ∈ (entries ht.arData).keys
  · obtain ⟨idx, p, hi, hp, rfl⟩ := exists_bucket hk
    have hplain := by'.plain hk
    obtain ⟨l₁, l₂, hc, hw⟩ := h.wf.walkTo_some hplain hi hp
    right
    rw [hw]
    exact ⟨_, rfl, (packed_delElEx ht idx _).trans hplain, h.entries_eq ▸ hk,
      h.delElEx hplain hi hp hc⟩
  · left
    rw [h.wf.walkTo_none hk]
    exact ⟨rfl, h.entries_eq ▸ hk⟩

end HashTable
end Yaf
