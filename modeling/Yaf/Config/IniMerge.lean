import Yaf.Base.Checked
import Yaf.Base.HeapReach
import Yaf.Config.IniCopy

namespace Yaf
open Base Heap

variable {h h' : IniHeap} {R : List (Val Bytes)} {P : List Addr} {d src : Addr} {ds ss : Content}
  {copy copy' : IniHeap → Addr → Addr → Option IniHeap}

/-- A turn merges two tables into a new one, or shares the value and copies nothing. -/
theorem deepCopyEntry_cases {k : Key} {w : Val Bytes}
    (hc : deepCopyEntry copy d h (k, w) = some h') :
    (∃ pzval dstpzval h₁ h₂, w = .ref pzval ∧ h.slot? d k = some (.ref dstpzval) ∧
      copy h.alloc.2 h.alloc.1 dstpzval = some h₁ ∧ copy h₁ h.alloc.1 pzval = some h₂ ∧
      h' = h₂.put d k (.ref h.alloc.1)) ∨
    h' = (h.addRef w).put d k w ∧ ∀ copy', deepCopyEntry copy' d h (k, w) = some h' := by
  cases w with
  | scalar s =>
    obtain rfl := Option.some.inj hc
    exact Or.inr ⟨rfl, fun _ => rfl⟩
  | ref pzval =>
    cases hs : h.slot? d k with
    | none =>
      simp only [deepCopyEntry, hs, Option.some.injEq] at hc
      exact Or.inr ⟨hc.symm, fun _ => by simp [deepCopyEntry, hs, hc]⟩
    | some v =>
      cases v with
      | scalar s =>
        simp only [deepCopyEntry, hs, Option.some.injEq] at hc
        exact Or.inr ⟨hc.symm, fun _ => by simp [deepCopyEntry, hs, hc]⟩
      | ref dstpzval =>
        simp only [deepCopyEntry, hs] at hc
        obtain ⟨h₁, hcopy, hc⟩ := Option.bind_eq_some_iff.mp hc
        obtain ⟨h₂, hcopy', hc⟩ := Option.bind_eq_some_iff.mp hc
        exact Or.inl ⟨pzval, dstpzval, h₁, h₂, rfl, rfl, hcopy, hcopy', (Option.some.inj hc).symm⟩

/-- The new table of a turn was not there, so what is copied into it leaves the others alone. -/
theorem deepCopyEntry_spares (hcopy : ∀ {h h' d src}, copy h d src = some h' → Spares h h' d)
    {p : Key × Val Bytes} (hc : deepCopyEntry copy d h p = some h') : Spares h h' d := by
  obtain ⟨k, w⟩ := p
  rcases deepCopyEntry_cases hc with ⟨pzval, dstpzval, h₁, h₂, _, _, hc₁, hc₂, rfl⟩ | ⟨rfl, _⟩
  · have hnew := (spares_alloc h d).fresh (hcopy hc₁) (Nat.le_refl _)
    exact (hnew.fresh (hcopy hc₂) (Nat.le_refl _)).trans (spares_put h₂ d k _)
  · exact (spares_addRef h w d).trans (spares_put _ d k w)

theorem deepCopySection_spares (fuel : Nat) :
    ∀ {h h' : IniHeap} {d src : Addr}, deepCopySection fuel h d src = some h' → Spares h h' d := by
  induction fuel with
  | zero => exact fun hc => absurd hc (by simp [deepCopySection])
  | succ fuel ih =>
    intro h h' d src hc
    cases ht : h.table? src with
    | none => simp [deepCopySection, ht] at hc
    | some t =>
      simp only [deepCopySection, ht] at hc
      exact foldlM_some_induct (Q := fun h h' => Spares h h' d) (fun h => .refl h d) .trans
        (fun hturn => deepCopyEntry_spares ih hturn) hc

theorem deepCopyEntry_mono
    (hcopy : ∀ {h h' d src}, copy h d src = some h' → copy' h d src = some h')
    {p : Key × Val Bytes} (hc : deepCopyEntry copy d h p = some h') :
    deepCopyEntry copy' d h p = some h' := by
  obtain ⟨k, w⟩ := p
  rcases deepCopyEntry_cases hc with ⟨pzval, dstpzval, h₁, h₂, rfl, hs, hc₁, hc₂, rfl⟩ | ⟨_, hall⟩
  · simp [deepCopyEntry, hs, hcopy hc₁, hcopy hc₂]
  · exact hall copy'

/-- More fuel gives the same result. -/
theorem deepCopySection_mono (n : Nat) :
    ∀ {m : Nat} {h h' : IniHeap} {d src : Addr}, n ≤ m →
      deepCopySection n h d src = some h' → deepCopySection m h d src = some h' := by
  induction n with
  | zero => exact fun _ hc => absurd hc (by simp [deepCopySection])
  | succ n ih =>
    intro m h h' d src hle hc
    obtain ⟨m, rfl⟩ := Nat.exists_eq_add_of_lt hle
    cases ht : h.table? src with
    | none => simp [deepCopySection, ht] at hc
    | some t =>
      simp only [deepCopySection, ht] at hc ⊢
      exact foldlM_some_mono (fun hturn => deepCopyEntry_mono (ih (by omega)) hturn) hc

/-- What copying `src` into `dst` leaves: the merge, the source with all below it, all that the
other holders see, and no table that was there with other entries. -/
structure SectionCopied (h h' : IniHeap) (R : List (Val Bytes)) (P : List Addr) (dst src : Addr)
    (merged : Content) : Prop where
  focus : Focus h' R P dst merged
  source : ∀ a, Reach h src a → h'.table? a = h.table? a
  outside : ∀ a, Outside h R P dst a → h'.table? a = h.table? a
  spared : ∀ a t, a ≠ dst → h.table? a = some t → h'.table? a = some t ∨ h'.table? a = none

theorem deepCopySection_copied (f : Focus h R P d ds) (ho : Outside h R P d src)
    (hr : h.reads (.node ss) (.ref src) = true) :
    ∃ h', (∀ fuel, h.size ≤ fuel → deepCopySection fuel h d src = some h') ∧
      SectionCopied h h' R P d src (Nest.mergeTable ds ss) ∧ Frame h h' R P d := by
  obtain ⟨h', hc, hb⟩ := deepCopySection_spec f ho hr
  have hs := deepCopySection_spares h.size hc
  refine ⟨h', fun fuel hle => deepCopySection_mono h.size hle hc, ?_, hb.frame⟩
  exact ⟨hb.focus, fun a ha => hb.frame.outside a (ho.reach ha), hb.frame.outside,
    fun a t hd ht => hs.kept_or_freed ht hd⟩

/-- Copying a section returns and leaves the right-biased merge in `dst`. Every other table that
was there is as it was, or given back when nothing but `dst` held it. Done again, it changes
nothing. -/
theorem section_merge_twice :
    Nest.RightBiased (Nest.mergeTable : Content → Content → Content) ∧
    ∀ (h : IniHeap) (R : List (Val Bytes)) (P : List Addr) (dst src : Addr) (ds ss : Content),
      Focus h R P dst ds → Outside h R P dst src → h.reads (.node ss) (.ref src) = true →
      ∃ h₁ h₂,
        (∀ fuel, h.size ≤ fuel → deepCopySection fuel h dst src = some h₁) ∧
        SectionCopied h h₁ R P dst src (Nest.mergeTable ds ss) ∧
        (∀ fuel, h₁.size ≤ fuel → deepCopySection fuel h₁ dst src = some h₂) ∧
        SectionCopied h₁ h₂ R P dst src (Nest.mergeTable ds ss) := by
  refine ⟨Nest.rightBiased_mergeTable, fun h R P dst src ds ss f ho hr => ?_⟩
  obtain ⟨h₁, hc₁, hm₁, fr⟩ := deepCopySection_copied f ho hr
  have ho₁ : Outside h₁ R P dst src := fr.step ho
  have hr₁ : h₁.reads (.node ss) (.ref src) = true :=
    fr.reads (fun a ha => Val.ref.inj ha ▸ ho) hr
  obtain ⟨h₂, hc₂, hm₂, _⟩ := deepCopySection_copied hm₁.focus ho₁ hr₁
  have hk : (Nest.node ss).Keyed := f.sound.reads_keyed _ _ hr
  rw [Nest.mergeTable_again ds hk] at hm₂
  exact ⟨h₁, h₂, hc₁, hm₁, hc₂, hm₂⟩

/-- Two sections that share a table: `dst` has it under `db`, `src` under `list`. -/
def sharedSections : IniHeap where
  cells := [
    some ⟨1, [(.name (lit "db"), .ref 2), (.name (lit "x"), .scalar (lit "1"))]⟩,
    some ⟨1, [(.name (lit "list"), .ref 2), (.name (lit "db"), .ref 3)]⟩,
    some ⟨2, [(.name (lit "host"), .scalar (lit "a"))]⟩,
    some ⟨1, [(.name (lit "port"), .scalar (lit "b"))]⟩]

theorem sound_sharedSections : Sound sharedSections [.ref 0, .ref 1] := by
  have hcounted : ∀ a < 4, sharedSections.refs a + rootRefs [(.ref 0 : Val Bytes), .ref 1] a ≤
      sharedSections.rc a := by decide
  have hkeyed : ∀ a < 4, ∀ t ∈ sharedSections.table? a, (Table.keys t).Nodup := by decide
  refine ⟨fun a => ?_, fun a t ht => ?_⟩
  · by_cases ha : a < 4
    · exact hcounted a ha
    · -- nothing points behind the last cell
      obtain ⟨b, rfl⟩ := Nat.exists_eq_add_of_le' (Nat.le_of_not_lt ha)
      simp [refs, rootRefs, sharedSections, cellRefs, tableRefs, Val.holds]
  · obtain ⟨c, hc, _⟩ := cell?_of_table? ht
    exact hkeyed a (lt_size hc) t ht

/-- The table under `db` is merged into a new one and the shared one is left to `list`. -/
theorem section_merge_twice_shared :
    ∃ h₁ h₂, deepCopySection 4 sharedSections 0 1 = some h₁ ∧
      h₁.reads (.node [
        (.name (lit "db"), .node [(.name (lit "host"), .leaf (lit "a")),
          (.name (lit "port"), .leaf (lit "b"))]),
        (.name (lit "x"), .leaf (lit "1")),
        (.name (lit "list"), .node [(.name (lit "host"), .leaf (lit "a"))])]) (.ref 0) = true ∧
      h₁.table? 2 = sharedSections.table? 2 ∧
      deepCopySection h₁.size h₁ 0 1 = some h₂ ∧ h₂.table? 2 = sharedSections.table? 2 := by
  have f : Focus sharedSections [.ref 0, .ref 1] [] 0 [
      (.name (lit "db"), .node [(.name (lit "host"), .leaf (lit "a"))]),
      (.name (lit "x"), .leaf (lit "1"))] :=
    ⟨sound_sharedSections, ⟨rfl, by simp, Or.inl (by simp), trivial⟩, by decide⟩
  have ho : Outside sharedSections [.ref 0, .ref 1] [] 0 1 := .root (by simp) (by simp)
  obtain ⟨h₁, h₂, hc₁, hm₁, hc₂, hm₂⟩ := section_merge_twice.2 sharedSections [.ref 0, .ref 1] []
    0 1 _ [(.name (lit "list"), .node [(.name (lit "host"), .leaf (lit "a"))]),
      (.name (lit "db"), .node [(.name (lit "port"), .leaf (lit "b"))])] f ho (by decide)
  have hr : Reach sharedSections 1 2 := .child .refl rfl List.mem_cons_self
  have h2 := hm₁.source 2 hr
  have hr₁ : Reach h₁ 1 2 := .child .refl (hm₁.source 1 .refl) List.mem_cons_self
  exact ⟨h₁, h₂, hc₁ 4 (Nat.le_refl _), hm₁.focus.reads, h2, hc₂ _ (Nat.le_refl _),
    (hm₂.source 2 hr₁).trans h2⟩

end Yaf
