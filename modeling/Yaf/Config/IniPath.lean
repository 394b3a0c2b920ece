import Yaf.Config.IniSpec

namespace Yaf
open Base

namespace IniSpec

theorem at?_tableAt {k : Key} {d : Content} {path : List Key} {u : Nest Key Bytes}
    (hne : path ≠ []) :
    Nest.at? path (.node (tableAt d k)) = some u ↔ Nest.at? (k :: path) (.node d) = some u := by
  obtain ⟨j, path, rfl⟩ := List.exists_cons_of_ne_nil hne
  rw [tableAt, Nest.at?_node k]
  rcases Table.find? d k with _ | s | e <;> simp

theorem find?_assign_other {k j : Key} (hj : j ≠ k) (written : List Key) (value : Bytes)
    (d : Content) : Table.find? (assign (k :: written) value d) j = Table.find? d j := by
  cases written with
  | nil =>
    simp only [assign]
    split
    · rfl
    · exact Table.find?_update_other _ _ hj
  | cons seg written => exact Table.find?_update_other _ _ hj

/-- The value is found where it was assigned, unless a table was in the way. -/
theorem at?_assign_self {path : List Key} (value : Bytes) :
    ∀ {d : Content}, path ≠ [] → (∀ e, Nest.at? path (.node d) ≠ some (.node e)) →
      Nest.at? path (.node (assign path value d)) = some (.leaf value) := by
  induction path with
  | nil => exact fun hne => absurd rfl hne
  | cons k path ih =>
    intro d _ hno
    cases path with
    | nil =>
      simp only [assign]
      split
      · rename_i e he
        exact absurd (by simp [he]) (hno e)
      · simp
    | cons seg path =>
      simp only [assign, Nest.at?_node k, Table.find?_update_self, Option.bind_some]
      apply ih (by simp)
      intro e he
      exact hno e ((at?_tableAt (by simp)).mp he)

/-- A table at a path was there before, or the assignment went through it. -/
theorem node_of_at?_assign {value : Bytes} {written : List Key} :
    ∀ {path : List Key} {d e : Content}, path ≠ [] →
      Nest.at? path (.node (assign written value d)) = some (.node e) →
      (∃ e', Nest.at? path (.node d) = some (.node e')) ∨ path <+: written ∧ path ≠ written := by
  induction written with
  | nil => exact fun _ hat => Or.inl ⟨_, hat⟩
  | cons k written ih =>
    intro path d e hne hat
    obtain ⟨j, path, rfl⟩ := List.exists_cons_of_ne_nil hne
    by_cases hj : j = k
    · subst hj
      cases written with
      | nil =>
        simp only [assign] at hat
        split at hat
        · exact Or.inl ⟨e, hat⟩
        · cases path <;> simp at hat
      | cons seg written =>
        simp only [assign, Nest.at?_node, Table.find?_update_self, Option.bind_some] at hat
        by_cases hp : path = []
        · subst hp
          exact Or.inr ⟨by simp, by simp⟩
        · rcases ih hp hat with ⟨e', he'⟩ | ⟨hpre, hneq⟩
          · exact Or.inl ⟨e', (at?_tableAt hp).mp he'⟩
          · exact Or.inr ⟨List.prefix_cons_inj j |>.mpr hpre, by simpa using hneq⟩
    · rw [Nest.at?_node, find?_assign_other hj] at hat
      exact Or.inl ⟨e, by rw [Nest.at?_node, hat]⟩

/-- A table stays one, whatever is assigned. -/
theorem node_at?_assign {value : Bytes} {written : List Key} :
    ∀ {path : List Key} {d e : Content}, Nest.at? path (.node d) = some (.node e) →
      ∃ e', Nest.at? path (.node (assign written value d)) = some (.node e') := by
  induction written with
  | nil => exact fun hat => ⟨_, hat⟩
  | cons k written ih =>
    intro path d e hat
    cases path with
    | nil => exact ⟨_, Nest.at?_nil _⟩
    | cons j path =>
      by_cases hj : j = k
      · subst hj
        cases written with
        | nil =>
          simp only [assign]
          split
          · exact ⟨e, hat⟩
          · rename_i hno
            rw [Nest.at?_node] at hat
            rcases hd : Table.find? d j with _ | s | e'
            · simp [hd] at hat
            · rw [hd] at hat
              cases path <;> simp at hat
            · exact absurd hd (hno e')
        | cons seg written =>
          simp only [assign, Nest.at?_node, Table.find?_update_self, Option.bind_some]
          by_cases hp : path = []
          · subst hp
            exact ⟨_, Nest.at?_nil _⟩
          · exact ih ((at?_tableAt hp).mpr hat)
      · exact ⟨e, by rw [Nest.at?_node, find?_assign_other hj, ← Nest.at?_node, hat]⟩

/-- An assignment below a path makes a table there. -/
theorem node_at?_assign_below {value : Bytes} {seg : Key} {below : List Key} {path : List Key} :
    ∀ {d : Content}, ∃ e,
      Nest.at? path (.node (assign (path ++ seg :: below) value d)) = some (.node e) := by
  induction path with
  | nil => exact ⟨_, Nest.at?_nil _⟩
  | cons k path ih =>
    intro d
    obtain ⟨seg', rest, hrest⟩ := List.exists_cons_of_ne_nil
      (show path ++ seg :: below ≠ [] by simp)
    obtain ⟨e, he⟩ := ih (d := tableAt d k)
    refine ⟨e, ?_⟩
    rw [hrest] at he
    simpa [hrest, assign] using he

/-- From nothing, a value is found only where it was assigned. -/
theorem at?_assign_nil {value s : Bytes} {written : List Key} :
    ∀ {path : List Key}, Nest.at? path (.node (assign written value [])) = some (.leaf s) →
      path = written := by
  induction written with
  | nil =>
    intro path hat
    cases path <;> simp [assign] at hat
  | cons k written ih =>
    intro path hat
    cases path with
    | nil => simp at hat
    | cons j path =>
      by_cases hj : j = k
      · subst hj
        cases written with
        | nil => cases path <;> simp_all [assign]
        | cons seg written =>
          simp only [assign, Nest.at?_node, Table.find?_update_self, Option.bind_some] at hat
          rw [ih hat]
      · simp [find?_assign_other hj] at hat

end IniSpec

end Yaf
