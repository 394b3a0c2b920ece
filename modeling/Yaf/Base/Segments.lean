import Mathlib.Data.List.DropRight

namespace Base
variable {α β : Type}

/-- Cutting commutes with a map that keeps the separator apart. -/
theorem splitOn_map [DecidableEq α] [DecidableEq β] {f : α → β} {a : α} {b : β}
    (hf : ∀ c, f c = b ↔ c = a) (xs : List α) :
    (xs.map f).splitOn b = (xs.splitOn a).map (List.map f) := by
  induction xs with
  | nil => rfl
  | cons c xs ih =>
    rw [List.map_cons, List.splitOn_cons_eq_if_modifyHead, List.splitOn_cons_eq_if_modifyHead, ih]
    by_cases hc : c = a
    · simp [hc, (hf a).mpr rfl]
    · have hb : f c ≠ b := fun he => hc ((hf c).mp he)
      rw [if_neg (by simpa using hb), if_neg (by simpa using hc)]
      cases h : xs.splitOn a with
      | nil => exact absurd h (List.splitOn_ne_nil a xs)
      | cons s ss => rfl

theorem length_splitOn_le [DecidableEq α] (a : α) (xs : List α) :
    (xs.splitOn a).length ≤ xs.length + 1 := by
  induction xs with
  | nil => simp
  | cons c xs ih =>
    rw [List.splitOn_cons_eq_if_modifyHead]
    split
    · simpa using ih
    · rw [List.length_modifyHead, List.length_cons]
      omega

/-- A separator at the front cuts off an empty piece. -/
theorem splitOn_cons_self [DecidableEq α] (a : α) (xs : List α) :
    (a :: xs).splitOn a = [] :: xs.splitOn a := by
  exact List.splitOn_append_cons_self_of_not_mem List.not_mem_nil xs

theorem intercalate_cons_of_ne_nil {s : List α} {ss : List (List α)} (a : α) (hs : ss ≠ []) :
    [a].intercalate (s :: ss) = s ++ a :: [a].intercalate ss := by
  cases ss with
  | nil => exact absurd rfl hs
  | cons t ss => simp [List.intercalate]

theorem not_mem_intercalate {a c : α} {ss : List (List α)} (hca : c ≠ a) (hss : ∀ s ∈ ss, c ∉ s) :
    c ∉ [a].intercalate ss := by
  induction ss with
  | nil => simp [List.intercalate]
  | cons s ss ih =>
    have hs := hss s List.mem_cons_self
    by_cases hnil : ss = []
    · simpa [hnil, List.intercalate] using hs
    · have hrest := ih fun t ht => hss t (List.mem_cons_of_mem _ ht)
      rw [intercalate_cons_of_ne_nil a hnil]
      simp [hs, hca, hrest]

/-- Cutting at one separator and joining with another replaces it. -/
theorem intercalate_splitOn_replace [DecidableEq α] (a b : α) (xs : List α) :
    [b].intercalate (xs.splitOn a) = xs.map fun c => if c = a then b else c := by
  induction xs with
  | nil => rfl
  | cons c xs ih =>
    rw [List.splitOn_cons_eq_if_modifyHead, List.map_cons]
    have hn := List.splitOn_ne_nil a xs
    by_cases hc : c = a
    · rw [if_pos (by simpa using hc), if_pos hc, intercalate_cons_of_ne_nil b hn, ih]
      rfl
    · rw [if_neg (by simpa using hc), if_neg hc, ← ih]
      cases h : xs.splitOn a with
      | nil => exact absurd h hn
      | cons s ss =>
        cases ss with
        | nil => simp
        | cons t ss => simp [List.intercalate]

/-- Every piece but the last with a separator behind it, and then the last. -/
theorem flatMap_dropLast_append (b : α) {ss : List (List α)} (hs : ss ≠ []) :
    (ss.dropLast.flatMap fun s => s ++ [b]) ++ ss.getLast?.getD [] = [b].intercalate ss := by
  induction ss with
  | nil => exact absurd rfl hs
  | cons s ss ih =>
    cases ss with
    | nil => simp
    | cons t ss =>
      rw [intercalate_cons_of_ne_nil b (by simp), ← ih (by simp)]
      simp

theorem mem_of_mem_splitOn [DecidableEq α] {a c : α} {xs s : List α} (hs : s ∈ xs.splitOn a)
    (hc : c ∈ s) : c ∈ xs := by
  induction xs generalizing s with
  | nil =>
    rw [List.splitOn_nil, List.mem_singleton] at hs
    exact hs ▸ hc
  | cons d xs ih =>
    rw [List.splitOn_cons_eq_if_modifyHead] at hs
    cases h : xs.splitOn a with
    | nil => exact absurd h (List.splitOn_ne_nil a xs)
    | cons t ts =>
      rw [h] at hs ih
      split at hs
      · rcases List.mem_cons.mp hs with rfl | hs
        · simp at hc
        · exact List.mem_cons_of_mem _ (ih hs hc)
      · rcases List.mem_cons.mp hs with rfl | hs
        · rcases List.mem_cons.mp hc with rfl | hc
          · exact List.mem_cons_self
          · exact List.mem_cons_of_mem _ (ih List.mem_cons_self hc)
        · exact List.mem_cons_of_mem _ (ih (List.mem_cons_of_mem _ hs) hc)

theorem exists_mem_splitOn [DecidableEq α] {a c : α} {xs : List α} (hca : c ≠ a) (hc : c ∈ xs) :
    ∃ s ∈ xs.splitOn a, c ∈ s := by
  rw [← show [a].intercalate (xs.splitOn a) = xs from List.intercalate_splitOn a] at hc
  generalize xs.splitOn a = ss at hc
  induction ss with
  | nil => simp [List.intercalate] at hc
  | cons s ss ih =>
    by_cases hss : ss = []
    · subst hss
      exact ⟨s, List.mem_cons_self, by simpa [List.intercalate] using hc⟩
    · rw [intercalate_cons_of_ne_nil a hss, List.mem_append, List.mem_cons] at hc
      rcases hc with hc | hc | hc
      · exact ⟨s, List.mem_cons_self, hc⟩
      · exact absurd hc hca
      · obtain ⟨t, ht, hct⟩ := ih hc
        exact ⟨t, List.mem_cons_of_mem _ ht, hct⟩

/-- No piece holds the separator. -/
theorem not_mem_of_mem_splitOn [DecidableEq α] {a : α} {xs s : List α} (hs : s ∈ xs.splitOn a) :
    a ∉ s := by
  induction xs generalizing s with
  | nil =>
    rw [List.splitOn_nil, List.mem_singleton] at hs
    simp [hs]
  | cons c xs ih =>
    rw [List.splitOn_cons_eq_if_modifyHead] at hs
    cases h : xs.splitOn a with
    | nil => exact absurd h (List.splitOn_ne_nil a xs)
    | cons t ts =>
      rw [h] at hs ih
      split at hs
      · rcases List.mem_cons.mp hs with rfl | hs
        · simp
        · exact ih hs
      · rename_i hc
        rcases List.mem_cons.mp hs with rfl | hs
        · have ht := ih List.mem_cons_self
          have hca : ¬a = c := fun he => hc (by simp [he])
          simp [hca, ht]
        · exact ih (List.mem_cons_of_mem _ hs)

/-- The pieces of two texts, the last piece of the one joined to the first of the other. -/
theorem splitOn_append [DecidableEq α] (a : α) (xs ys : List α) :
    ∃ init last head tail, xs.splitOn a = init ++ [last] ∧ ys.splitOn a = head :: tail ∧
      (xs ++ ys).splitOn a = init ++ (last ++ head) :: tail := by
  induction xs with
  | nil =>
    cases h : ys.splitOn a with
    | nil => exact absurd h (List.splitOn_ne_nil a ys)
    | cons t ts => exact ⟨[], [], t, ts, by simp, rfl, by simp [h]⟩
  | cons c xs ih =>
    obtain ⟨init, last, head, tail, hxs, hys, happ⟩ := ih
    rw [List.cons_append, List.splitOn_cons_eq_if_modifyHead, List.splitOn_cons_eq_if_modifyHead,
      hxs, happ]
    by_cases hc : (c == a) = true
    · exact ⟨[] :: init, last, head, tail, by simp [hc], hys, by simp [hc]⟩
    · rw [if_neg hc, if_neg hc]
      cases init with
      | nil => exact ⟨[], c :: last, head, tail, by simp, hys, by simp⟩
      | cons i is => exact ⟨(c :: i) :: is, last, head, tail, by simp, hys, by simp⟩

/-- A piece stands at the start of the text or behind a separator. -/
theorem exists_of_mem_splitOn [DecidableEq α] {a : α} {xs p : List α} (hp : p ∈ xs.splitOn a) :
    ∃ front rest, xs = front ++ p ++ rest ∧ (front = [] ∨ ∃ q, front = q ++ [a]) := by
  rw [← show [a].intercalate (xs.splitOn a) = xs from List.intercalate_splitOn a]
  generalize xs.splitOn a = ss at hp ⊢
  induction ss with
  | nil => cases hp
  | cons s ss ih =>
    by_cases hss : ss = []
    · subst hss
      obtain rfl := List.mem_singleton.mp hp
      exact ⟨[], [], by simp [List.intercalate], Or.inl rfl⟩
    · rw [intercalate_cons_of_ne_nil a hss]
      rcases List.mem_cons.mp hp with rfl | hp
      · exact ⟨[], a :: [a].intercalate ss, rfl, Or.inl rfl⟩
      · obtain ⟨front, rest, hsplit, hfront⟩ := ih hp
        refine ⟨s ++ a :: front, rest, by simp [hsplit], Or.inr ?_⟩
        rcases hfront with rfl | ⟨q, rfl⟩
        · exact ⟨s, rfl⟩
        · exact ⟨s ++ a :: q, by simp⟩

/-- The pieces of a prefix are prefixes of pieces. -/
theorem splitOn_of_prefix [DecidableEq α] {a : α} {xs ys p : List α} (hxy : xs <+: ys)
    (hp : p ∈ xs.splitOn a) : ∃ q ∈ ys.splitOn a, p <+: q := by
  obtain ⟨zs, rfl⟩ := hxy
  obtain ⟨init, last, head, tail, hxs, -, happ⟩ := splitOn_append a xs zs
  rw [hxs, List.mem_append, List.mem_singleton] at hp
  rw [happ]
  rcases hp with hp | rfl
  · exact ⟨p, List.mem_append_left _ hp, List.prefix_rfl⟩
  · exact ⟨p ++ head, by simp, List.prefix_append _ _⟩

/-- A text without the separator that starts a text starts its first piece. -/
theorem prefix_of_prefix_sep {a : α} {d s u : List α} (h : d <+: s ++ a :: u) (ha : a ∉ d) :
    d <+: s := by
  have hs : s ++ [a] <+: s ++ a :: u := ⟨u, by simp⟩
  rcases List.prefix_or_prefix_of_prefix h hs with h | h
  · rcases List.prefix_concat_iff.mp h with rfl | h
    · simp at ha
    · exact h
  · exact absurd (h.subset (by simp)) ha

end Base
