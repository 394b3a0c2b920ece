import Yaf.Php.HashTable

namespace Yaf
open Base

namespace HashTable

variable {κ ν : Type}

theorem slot_lt {heads : Nat} (h : Nat) (pos : 0 < heads) (le : heads ≤ 2 ^ 32) :
    slot heads h < heads := by
  have hm : (h ||| (2 ^ 32 - heads)) % 2 ^ 32 < 2 ^ 32 := Nat.mod_lt _ (by omega)
  unfold slot
  omega

/-- What a bucket says apart from the chain it is on. -/
def Bucket.data (p : Bucket κ ν) : Nat × κ × Option ν := (p.h, p.key, p.val)

/-- The entries of a table, in the order of their buckets. -/
def entries (ar : List (Bucket κ ν)) : Table κ ν :=
  ar.filterMap fun p => p.val.map fun v => (p.key, v)

/-- How many entries lie before the internal pointer. -/
def place (ar : List (Bucket κ ν)) : Option Nat → Nat
  | none => (entries ar).length
  | some i => (entries (ar.take i)).length

def liveAt (ar : List (Bucket κ ν)) (i : Nat) : Bool := (ar[i]?).any isLive

@[simp] theorem entries_nil : entries ([] : List (Bucket κ ν)) = [] := rfl

@[simp] theorem entries_append (ar br : List (Bucket κ ν)) :
    entries (ar ++ br) = entries ar ++ entries br :=
  List.filterMap_append

theorem entries_cons_live {p : Bucket κ ν} {v : ν} (ar : List (Bucket κ ν)) (h : p.val = some v) :
    entries (p :: ar) = (p.key, v) :: entries ar := by
  simp [entries, h]

theorem entries_cons_hole {p : Bucket κ ν} (ar : List (Bucket κ ν)) (h : isLive p = false) :
    entries (p :: ar) = entries ar := by
  have hv : p.val = none := by simpa [isLive] using h
  simp [entries, hv]

theorem entries_holes {ar : List (Bucket κ ν)} (h : ∀ p ∈ ar, isLive p = false) :
    entries ar = [] := by
  induction ar with
  | nil => rfl
  | cons p ar ih =>
    rw [entries_cons_hole ar (h p List.mem_cons_self)]
    apply ih
    intro q hq
    exact h q (List.mem_cons_of_mem p hq)

theorem length_entries (ar : List (Bucket κ ν)) :
    (entries ar).length = (ar.filter isLive).length := by
  induction ar with
  | nil => rfl
  | cons p ar ih =>
    cases hv : p.val with
    | none =>
      have hp : isLive p = false := by simp [isLive, hv]
      rw [entries_cons_hole ar hp, List.filter_cons_of_neg (by simp [hp]), ih]
    | some v =>
      have hp : isLive p = true := by simp [isLive, hv]
      rw [entries_cons_live ar hv, List.filter_cons_of_pos hp, List.length_cons, List.length_cons,
        ih]

/-- The entries are read off the data alone. -/
theorem entries_of_data {ar br : List (Bucket κ ν)}
    (h : ar.map Bucket.data = br.map Bucket.data) : entries ar = entries br := by
  have he : ∀ ar : List (Bucket κ ν),
      entries ar = (ar.map Bucket.data).filterMap fun d => d.2.2.map fun v => (d.2.1, v) := by
    intro ar
    rw [List.filterMap_map]
    rfl
  rw [he, he, h]

theorem split_at {ar : List (Bucket κ ν)} {i : Nat} {p : Bucket κ ν} (h : ar[i]? = some p) :
    ar = ar.take i ++ p :: ar.drop (i + 1) := by
  obtain ⟨hi, rfl⟩ := List.getElem?_eq_some_iff.mp h
  rw [List.getElem_cons_drop, List.take_append_drop]

theorem entries_split {ar : List (Bucket κ ν)} {i : Nat} {p : Bucket κ ν} {v : ν}
    (h : ar[i]? = some p) (hv : p.val = some v) :
    entries ar = entries (ar.take i) ++ (p.key, v) :: entries (ar.drop (i + 1)) := by
  conv_lhs => rw [split_at h]
  rw [entries_append, entries_cons_live _ hv]

theorem entries_take_succ {ar : List (Bucket κ ν)} {i : Nat} {p : Bucket κ ν} {v : ν}
    (h : ar[i]? = some p) (hv : p.val = some v) :
    entries (ar.take (i + 1)) = entries (ar.take i) ++ [(p.key, v)] := by
  rw [List.take_add_one, h, entries_append, Option.toList_some, entries_cons_live _ hv,
    entries_nil]

theorem liveAt_iff {ar : List (Bucket κ ν)} {i : Nat} :
    liveAt ar i = true ↔ ∃ p v, ar[i]? = some p ∧ p.val = some v := by
  unfold liveAt
  cases h : ar[i]? with
  | none => simp
  | some p => simp [isLive, Option.isSome_iff_exists]

/-- Between two places with holes only between them lie no entries. -/
theorem entries_take_holes {ar : List (Bucket κ ν)} {i j : Nat} (le : i ≤ j)
    (h : ∀ k, i ≤ k → k < j → liveAt ar k = false) :
    entries (ar.take j) = entries (ar.take i) := by
  have hs : ar.take j = ar.take i ++ (ar.take j).drop i := by
    conv_lhs => rw [← List.take_append_drop i (ar.take j), List.take_take, Nat.min_eq_left le]
  rw [hs, entries_append]
  have hnone : entries ((ar.take j).drop i) = [] := by
    apply entries_holes
    intro p hp
    obtain ⟨k, hk⟩ := List.mem_iff_getElem?.mp hp
    rw [List.getElem?_drop, List.getElem?_take] at hk
    split at hk
    · rename_i hlt
      have hd := h (i + k) (Nat.le_add_right i k) hlt
      simpa [liveAt, hk] using hd
    · cases hk
  rw [hnone, List.append_nil]

section liveFrom
variable {ar : List (Bucket κ ν)} {i : Nat}

theorem liveFrom_some {j : Nat} (h : liveFrom ar i = some j) :
    i ≤ j ∧ liveAt ar j = true ∧ ∀ k, i ≤ k → k < j → liveAt ar k = false := by
  unfold liveFrom at h
  obtain ⟨m, hm, rfl⟩ := Option.map_eq_some_iff.mp h
  obtain ⟨hlt, hlive, hbefore⟩ := List.findIdx?_eq_some_iff_getElem.mp hm
  refine ⟨Nat.le_add_left i m, ?_, ?_⟩
  · rw [List.length_drop] at hlt
    rw [List.getElem_drop] at hlive
    have hb : i + m < ar.length := by omega
    rw [Nat.add_comm m i, liveAt, List.getElem?_eq_getElem hb]
    exact hlive
  · intro k hik hkj
    have hb := hbefore (k - i) (by omega)
    rw [List.getElem_drop] at hb
    rw [List.length_drop] at hlt
    have hk : k < ar.length := by omega
    have hki : i + (k - i) = k := by omega
    simpa [liveAt, List.getElem?_eq_getElem hk, hki] using hb

theorem liveFrom_none (h : liveFrom ar i = none) : ∀ k, i ≤ k → liveAt ar k = false := by
  unfold liveFrom at h
  have hn := List.findIdx?_eq_none_iff.mp (Option.map_eq_none_iff.mp h)
  intro k hik
  unfold liveAt
  cases hk : ar[k]? with
  | none => rfl
  | some p =>
    have hki : (ar.drop i)[k - i]? = some p := by
      rw [List.getElem?_drop, Nat.add_sub_cancel' hik, hk]
    simpa using hn p (List.mem_of_getElem? hki)

/-- The pointer set to the next live bucket passes the entries before it and no more. -/
theorem place_liveFrom : place ar (liveFrom ar i) = (entries (ar.take i)).length := by
  cases h : liveFrom ar i with
  | none =>
    have hn := liveFrom_none h
    rcases Nat.le_total ar.length i with hl | hl
    · rw [List.take_of_length_le hl]
      rfl
    · have he := entries_take_holes hl (fun k hk _ => hn k hk)
      rw [List.take_length] at he
      rw [place, he]
  | some j =>
    obtain ⟨hij, -, hb⟩ := liveFrom_some h
    rw [place, entries_take_holes hij hb]

end liveFrom

section chain
variable {ar br : List (Bucket κ ν)} {heads : List (Option Nat)} {H n : Nat}

def onChain (ar : List (Bucket κ ν)) (H n i : Nat) : Bool :=
  (ar[i]?).any fun p => isLive p && decide (slot H p.h = n)

/-- The live buckets of one chain, the newest first. -/
def chain (ar : List (Bucket κ ν)) (H n : Nat) : List Nat :=
  ((List.range ar.length).filter (onChain ar H n)).reverse

/-- Every head starts the chain through the live buckets that belong to it. -/
def Chained (ar : List (Bucket κ ν)) (heads : List (Option Nat)) : Prop :=
  ∀ n < heads.length, Linked (links ar) (heads[n]?).join (chain ar heads.length n)

theorem onChain_iff {i : Nat} :
    onChain ar H n i = true ↔ ∃ p, ar[i]? = some p ∧ isLive p = true ∧ slot H p.h = n := by
  unfold onChain
  cases ar[i]? with
  | none => simp
  | some p => simp

theorem mem_chain {i : Nat} : i ∈ chain ar H n ↔ onChain ar H n i = true := by
  unfold chain
  rw [List.mem_reverse, List.mem_filter, List.mem_range]
  constructor
  · intro h
    exact h.2
  · intro h
    obtain ⟨p, hp, -⟩ := onChain_iff.mp h
    exact ⟨(List.getElem?_eq_some_iff.mp hp).1, h⟩

theorem nodup_chain : (chain ar H n).Nodup :=
  List.nodup_reverse.mpr (List.nodup_range.filter _)

theorem length_chain_le : (chain ar H n).length ≤ ar.length := by
  have h := List.length_filter_le (onChain ar H n) (List.range ar.length)
  rw [List.length_range] at h
  rw [chain, List.length_reverse]
  exact h

theorem chain_eq_range {N : Nat} (le : ar.length ≤ N) :
    chain ar H n = ((List.range N).filter (onChain ar H n)).reverse := by
  obtain ⟨m, rfl⟩ := Nat.exists_eq_add_of_le le
  rw [chain, List.range_add, List.filter_append]
  have hnone : ((List.range m).map (ar.length + ·)).filter (onChain ar H n) = [] := by
    apply List.filter_eq_nil_iff.mpr
    intro i hi
    obtain ⟨k, -, rfl⟩ := List.mem_map.mp hi
    simp [onChain]
  rw [hnone, List.append_nil]

theorem chain_congr (h : ∀ i, onChain br H n i = onChain ar H n i) :
    chain br H n = chain ar H n := by
  rw [chain_eq_range (Nat.le_max_left br.length ar.length),
    chain_eq_range (Nat.le_max_right br.length ar.length)]
  congr 2
  funext i
  exact h i

/-- One bucket gone from the live ones is gone from the chain. -/
theorem chain_without {j : Nat} (h : ∀ i, onChain br H n i = (onChain ar H n i && i != j)) :
    chain br H n = (chain ar H n).filter (· != j) := by
  rw [chain_eq_range (Nat.le_max_left br.length ar.length),
    chain_eq_range (Nat.le_max_right br.length ar.length), List.filter_reverse, List.filter_filter]
  congr 2
  funext i
  rw [h i, Bool.and_comm]

theorem chained_nil (H : Nat) : Chained ([] : List (Bucket κ ν)) (List.replicate H none) := by
  intro n hn
  rw [List.length_replicate] at hn
  simp [chain, hn]

theorem onChain_append_left {i : Nat} (p : Bucket κ ν) (h : i < ar.length) :
    onChain (ar ++ [p]) H n i = onChain ar H n i := by
  rw [onChain, List.getElem?_append_left h, ← onChain]

theorem chain_push (p : Bucket κ ν) (hp : isLive p = true) :
    chain (ar ++ [p]) H n =
      if slot H p.h = n then ar.length :: chain ar H n else chain ar H n := by
  have hold : (List.range ar.length).filter (onChain (ar ++ [p]) H n) =
      (List.range ar.length).filter (onChain ar H n) := by
    apply List.filter_congr
    intro i hi
    exact onChain_append_left p (List.mem_range.mp hi)
  have hnew : onChain (ar ++ [p]) H n ar.length = decide (slot H p.h = n) := by
    simp [onChain, hp]
  rw [chain, List.length_append, List.length_singleton, List.range_succ, List.filter_append, hold,
    List.reverse_append, List.filter_cons, hnew]
  by_cases h : slot H p.h = n <;> simp [h, chain]

theorem links_append_left {i : Nat} (p : Bucket κ ν) (h : i < ar.length) :
    links (ar ++ [p]) i = links ar i := by
  rw [links, List.getElem?_append_left h, ← links]

theorem lt_of_mem_chain {i : Nat} (h : i ∈ chain ar H n) : i < ar.length := by
  obtain ⟨p, hp, -⟩ := onChain_iff.mp (mem_chain.mp h)
  exact (List.getElem?_eq_some_iff.mp hp).1

/-- A live bucket put at the end, in front of its chain. -/
theorem chained_push (h : Chained ar heads) (p : Bucket κ ν) (hp : isLive p = true)
    (hnext : p.next = (heads[slot heads.length p.h]?).join) :
    Chained (ar ++ [p]) (heads.set (slot heads.length p.h) (some ar.length)) := by
  intro n hn
  rw [List.length_set] at hn ⊢
  have hsame : ∀ i ∈ chain ar heads.length n, links (ar ++ [p]) i = links ar i := by
    intro i hi
    exact links_append_left p (lt_of_mem_chain hi)
  rw [chain_push p hp]
  by_cases hs : slot heads.length p.h = n
  · rw [if_pos hs, hs, List.getElem?_set_self hn, Option.join_some]
    apply (h n hn).push hsame
    rw [← hs, ← hnext]
    simp [links]
  · rw [if_neg hs, List.getElem?_set_ne hs]
    exact (h n hn).congr hsame

end chain

end HashTable
end Yaf
