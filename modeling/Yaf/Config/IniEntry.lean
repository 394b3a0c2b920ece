import Yaf.Config.IniGet

namespace Yaf
open Base Heap IniSpec

/-- The path a key names: its segments, compared as the symbol table compares them. -/
def keyPath (key : Bytes) : List Key := (key.splitOn dot).map symtableKey

/-- Neither path is the beginning of the other. -/
def Apart (path other : List Key) : Prop := ¬path <+: other ∧ ¬other <+: path

theorem Apart.symm {path other : List Key} (h : Apart path other) : Apart other path := ⟨h.2, h.1⟩

/-- The value is found under the key, and apart from the key all is as it was. -/
structure TakesEffect (key value : Bytes) (es es' : Content) : Prop where
  found : Nest.at? (keyPath key) (.node es') = some (.leaf value)
  apart : ∀ path, Apart path (keyPath key) →
    Nest.at? path (.node es') = Nest.at? path (.node es)

/-- No map stands under the key. A key that a NUL cuts must have the value already, and nothing
may be left to write where the cut key leads. -/
structure EntryFits (key value : Bytes) (es : Content) : Prop where
  plain : NUL ∉ key → ∀ e, Nest.at? (keyPath key) (.node es) ≠ some (.node e)
  cut : NUL ∈ key → Nest.at? (keyPath key) (.node es) = some (.leaf value) ∧
    (Nest.at? (segments key) (.node es) = some (.leaf value) ∨
      ∃ e, Nest.at? (segments key) (.node es) = some (.node e))

/-- `ENTRY` callbacks on one table, in a row. -/
def runEntries (d : Addr) (entries : List (Bytes × Bytes)) (h : IniHeap) : Option IniHeap :=
  entries.foldlM (fun h e => simpleParserCb h d (.entry e.1 (some e.2))) h

/-- The entry takes effect, and it stays so while nothing is written at the key or below it. -/
def EntryWins (h : IniHeap) (d : Addr) (es : Content) (key value : Bytes) : Prop :=
  ∃ h' es', simpleParserCb h d (.entry key (some value)) = some h' ∧
    h'.reads (.node es') (.ref d) = true ∧ TakesEffect key value es es' ∧
      ∀ later : List (Bytes × Bytes), (∀ e ∈ later, ¬keyPath key <+: segments e.1) →
        ∃ h₁ es₁, runEntries d later h' = some h₁ ∧ h₁.reads (.node es₁) (.ref d) = true ∧
          Nest.at? (keyPath key) (.node es₁) = some (.leaf value)

section
variable {path written : List Key} {value : Bytes}

/-- Off the path of an assignment nothing changes. -/
theorem at?_assign_apart :
    ∀ {path : List Key} {d : Content}, Apart path written →
      Nest.at? path (.node (assign written value d)) = Nest.at? path (.node d) := by
  induction written with
  | nil => exact fun h => absurd List.nil_prefix h.2
  | cons k written ih =>
    intro path d hapart
    obtain ⟨j, path, rfl⟩ := List.exists_cons_of_ne_nil (l := path) (by
      intro h
      exact hapart.1 (h ▸ List.nil_prefix))
    by_cases hj : j = k
    · subst hj
      cases written with
      | nil => exact absurd (by simp) hapart.2
      | cons seg written =>
        have hrest : Apart path (seg :: written) :=
          ⟨fun h => hapart.1 (List.prefix_cons_inj j |>.mpr h),
            fun h => hapart.2 (List.prefix_cons_inj j |>.mpr h)⟩
        have hne : path ≠ [] := by
          intro h
          exact hrest.1 (h ▸ List.nil_prefix)
        rw [Nest.at?_node, assign, Table.find?_update_self, Option.bind_some, ih hrest]
        apply Option.ext
        intro u
        exact at?_tableAt hne
    · rw [Nest.at?_node, find?_assign_other hj, ← Nest.at?_node]

/-- Nothing is left to do where the value is already, and nothing is done to a map. -/
theorem assign_same :
    ∀ {d : Content}, (Nest.at? written (.node d) = some (.leaf value) ∨
      ∃ e, Nest.at? written (.node d) = some (.node e)) → assign written value d = d := by
  induction written with
  | nil => exact fun _ => rfl
  | cons k written ih =>
    intro d h
    cases written with
    | nil =>
      rw [Nest.at?_single] at h
      rw [assign]
      split
      · rfl
      · rename_i hno
        rcases h with h | ⟨e, h⟩
        · exact Table.update_find? h
        · exact absurd h (hno e)
    | cons seg written =>
      rw [← at?_tableAt (by simp)] at h
      simp only [← at?_tableAt (List.cons_ne_nil seg written)] at h
      rw [assign, ih h]
      cases hd : Table.find? d k with
      | none => simp [tableAt, hd] at h
      | some u =>
        cases u with
        | leaf s => simp [tableAt, hd] at h
        | node e =>
          rw [tableAt_of_find? hd]
          exact Table.update_find? hd

/-- Only maps stand above a value. -/
theorem node_above {s : Bytes} {rest : List Key} {d : Content} (hne : rest ≠ [])
    (hd : Nest.at? (path ++ rest) (.node d) = some (.leaf s)) :
    ∃ e, Nest.at? path (.node d) = some (.node e) := by
  obtain ⟨k, rest, rfl⟩ := List.exists_cons_of_ne_nil hne
  rw [Nest.at?_append] at hd
  cases hp : Nest.at? path (.node d) with
  | none => simp [hp] at hd
  | some u =>
    cases u with
    | leaf s => simp [hp] at hd
    | node e => exact ⟨e, rfl⟩

/-- A value stays while nothing is written at its place or below. -/
theorem at?_assign_keeps {s : Bytes} {d : Content} (hd : Nest.at? path (.node d) = some (.leaf s))
    (hnot : ¬path <+: written) :
    Nest.at? path (.node (assign written value d)) = some (.leaf s) := by
  by_cases hfront : written <+: path
  · obtain ⟨rest, rfl⟩ := hfront
    have hne : rest ≠ [] := by
      intro h
      exact hnot (by simp [h])
    rw [assign_same (Or.inr (node_above hne hd)), hd]
  · rw [at?_assign_apart ⟨hnot, hfront⟩, hd]

end

/-- The cut key does not reach the segment with the NUL. -/
theorem keyPath_not_front {key : Bytes} (hn : NUL ∈ key) : ¬keyPath key <+: segments key := by
  intro h
  obtain ⟨seg, hseg, hnul⟩ := exists_mem_splitOn (show NUL ≠ dot by decide) hn
  obtain ⟨t, ht, heq⟩ := List.mem_map.mp (h.subset (List.mem_map_of_mem hseg))
  exact (mem_strtok ht).2.1 (symtableKey_inj heq ▸ hnul)

theorem Dotted.keyPath_eq {key : Bytes} (hk : Dotted key) (hn : NUL ∉ key) :
    keyPath key = segments key := by
  rw [keyPath, segments, hk.strtok hn]

/-- The value ends up at the path of a cut key: a map stood there, or that path and the path of the
whole key are apart. -/
theorem TakesEffect.cut_apart {key value : Bytes} {es : Content} (hn : NUL ∈ key)
    (h : TakesEffect key value es (assign (segments key) value es))
    (hmap : ¬∃ e, Nest.at? (segments key) (.node es) = some (.node e)) :
    Apart (segments key) (keyPath key) ∧
      Nest.at? (segments key) (.node (assign (segments key) value es)) = some (.leaf value) := by
  have hnot := keyPath_not_front hn
  have hne : segments key ≠ [] := by
    intro hnil
    exact hmap ⟨es, by rw [hnil, Nest.at?_nil]⟩
  have hself := at?_assign_self (d := es) value hne (fun e he => hmap ⟨e, he⟩)
  refine ⟨⟨fun hfront => ?_, hnot⟩, hself⟩
  obtain ⟨rest, hrest⟩ := hfront
  have hrne : rest ≠ [] := by
    intro hnil
    rw [hnil, List.append_nil] at hrest
    exact hnot (hrest ▸ List.prefix_rfl)
  have hfound := h.found
  rw [← hrest] at hfound
  obtain ⟨e, he⟩ := node_above hrne hfound
  rw [hself] at he
  cases he

theorem takesEffect_cut_iff {key : Bytes} (hn : NUL ∈ key) (value : Bytes) (es : Content) :
    TakesEffect key value es (assign (segments key) value es) ↔
      Nest.at? (keyPath key) (.node es) = some (.leaf value) ∧
        (Nest.at? (segments key) (.node es) = some (.leaf value) ∨
          ∃ e, Nest.at? (segments key) (.node es) = some (.node e)) := by
  constructor
  · intro h
    have hfound := h.found
    by_cases hmap : ∃ e, Nest.at? (segments key) (.node es) = some (.node e)
    · rw [assign_same (Or.inr hmap)] at hfound
      exact ⟨hfound, Or.inr hmap⟩
    · obtain ⟨hapart, hself⟩ := h.cut_apart hn hmap
      rw [at?_assign_apart hapart.symm] at hfound
      exact ⟨hfound, Or.inl ((h.apart _ hapart).symm.trans hself)⟩
  · intro h
    obtain ⟨hfound, hsame⟩ := h
    rw [assign_same hsame]
    exact ⟨hfound, fun _ _ => rfl⟩

theorem takesEffect_plain_iff {key : Bytes} (hk : Dotted key) (hn : NUL ∉ key) (value : Bytes)
    (es : Content) :
    TakesEffect key value es (assign (segments key) value es) ↔
      ∀ e, Nest.at? (keyPath key) (.node es) ≠ some (.node e) := by
  have hpath := hk.keyPath_eq hn
  have hne := hk.segments_ne_nil hn
  constructor
  · intro h e he
    rw [hpath] at he
    obtain ⟨e', he'⟩ : ∃ e', Nest.at? (segments key)
        (.node (assign (segments key) value es)) = some (.node e') := node_at?_assign he
    have hfound := h.found
    rw [hpath, he'] at hfound
    cases hfound
  · intro hno
    rw [← hpath] at hne ⊢
    exact ⟨at?_assign_self value hne hno, fun path hapart => at?_assign_apart hapart⟩

theorem takesEffect_iff {key : Bytes} (hk : Dotted key) (value : Bytes) (es : Content) :
    TakesEffect key value es (assign (segments key) value es) ↔ EntryFits key value es := by
  by_cases hn : NUL ∈ key
  · rw [takesEffect_cut_iff hn]
    exact ⟨fun h => ⟨fun h' => absurd hn h', fun _ => h⟩, fun h => h.cut hn⟩
  · rw [takesEffect_plain_iff hk hn]
    exact ⟨fun h => ⟨fun _ => h, fun h' => absurd h' hn⟩, fun h => h.plain hn⟩

section
variable {h : IniHeap} {R : List (Val Bytes)} {P : List Addr} {d : Addr} {es : Content}

/-- A run of entries keeps a value no entry is written at or below. -/
theorem runEntries_keeps {path : List Key} {s : Bytes} (later : List (Bytes × Bytes))
    (hl : ∀ e ∈ later, ¬path <+: segments e.1) :
    ∀ {h : IniHeap} {es : Content}, Focus h R P d es →
      Nest.at? path (.node es) = some (.leaf s) →
        ∃ h₁ es₁, runEntries d later h = some h₁ ∧ Focus h₁ R P d es₁ ∧
          Nest.at? path (.node es₁) = some (.leaf s) := by
  induction later with
  | nil => exact fun f hat => ⟨_, _, rfl, f, hat⟩
  | cons e later ih =>
    intro h es f hat
    have f' := (simpleEntry_spec (segments e.1) e.2 f).focus
    have hat' : Nest.at? path (.node (assign (segments e.1) e.2 es)) = some (.leaf s) :=
      at?_assign_keeps hat (hl e (by simp))
    obtain ⟨h₁, es₁, hrun, f₁, hat₁⟩ :=
      ih (fun e' he' => hl e' (List.mem_cons_of_mem _ he')) f' hat'
    exact ⟨h₁, es₁, by rw [← hrun]; rfl, f₁, hat₁⟩

theorem entry_wins_iff (f : Focus h R P d es) {key : Bytes} (hk : Dotted key) (value : Bytes) :
    EntryWins h d es key value ↔ EntryFits key value es := by
  have f' := (simpleEntry_spec (segments key) value f).focus
  rw [← takesEffect_iff hk]
  constructor
  · intro ⟨h', es', hstep, hr, heffect, _⟩
    obtain rfl : simpleEntry h d (segments key) value = h' := Option.some.inj hstep
    obtain hsame := reads_unique _ _ _ f'.reads hr
    obtain rfl := Nest.node.inj hsame
    exact heffect
  · intro heffect
    refine ⟨_, _, rfl, f'.reads, heffect, fun later hl => ?_⟩
    obtain ⟨h₁, es₁, hrun, f₁, hat⟩ := runEntries_keeps later hl f' heffect.found
    exact ⟨h₁, es₁, hrun, f₁.reads, hat⟩

end

theorem entry_wins_in_new_section :
    EntryWins iniStart.heap iniStart.arr [] (lit "db.host") (lit "localhost") := by
  apply (entry_wins_iff loads_start.focus (by decide) (lit "localhost")).mpr
  constructor
  · intro _ e he
    obtain ⟨k, path, hpath⟩ : ∃ k path, keyPath (lit "db.host") = k :: path :=
      List.exists_cons_of_ne_nil (by simp [keyPath, List.splitOn_ne_nil])
    simp [hpath] at he
  · intro hn
    exact absurd hn (by decide)

/-- Behind `a.b = 1` the entry `a = 2` is dropped. -/
theorem entry_over_map_dropped :
    let db := simpleEntry iniStart.heap iniStart.arr (segments (lit "a.b")) (lit "1")
    let es := assign (segments (lit "a.b")) (lit "1") []
    db.reads (.node es) (.ref iniStart.arr) = true ∧
      ¬EntryWins db iniStart.arr es (lit "a") (lit "2") := by
  intro db es
  have f : Focus db [.ref iniStart.arr] [] iniStart.arr es :=
    (simpleEntry_spec (segments (lit "a.b")) (lit "1") loads_start.focus).focus
  refine ⟨f.reads, fun h => ?_⟩
  obtain ⟨h', es', hstep, hr, heffect, -⟩ := h
  obtain rfl : simpleEntry db iniStart.arr (segments (lit "a")) (lit "2") = h' :=
    Option.some.inj hstep
  have f' := (simpleEntry_spec (segments (lit "a")) (lit "2") f).focus
  obtain rfl := Nest.node.inj (reads_unique _ _ _ f'.reads hr)
  have hpath : keyPath (lit "a") = segments (lit "a") := by decide
  obtain ⟨e, he⟩ : ∃ e, Nest.at? (segments (lit "a")) (.node es) = some (.node e) := by
    have hsplit : segments (lit "a.b") = segments (lit "a") ++ [symtableKey (lit "b")] := by
      decide
    show ∃ e, Nest.at? (segments (lit "a")) (.node (assign (segments (lit "a.b")) _ [])) = _
    rw [hsplit]
    exact node_at?_assign_below
  obtain ⟨e', he'⟩ : ∃ e', Nest.at? (segments (lit "a"))
      (.node (assign (segments (lit "a")) (lit "2") es)) = some (.node e') := node_at?_assign he
  have hfound := heffect.found
  rw [hpath, he'] at hfound
  cases hfound

end Yaf
