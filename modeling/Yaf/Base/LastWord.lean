import Mathlib.Data.List.Induction

namespace Base
variable {α : Type} {sets clears : α → Prop}

/-- Some element sets, and none behind it clears. -/
def LastWord (sets clears : α → Prop) (xs : List α) : Prop :=
  ∃ before x after, xs = before ++ x :: after ∧ sets x ∧ ∀ later ∈ after, ¬clears later

theorem not_lastWord_nil : ¬LastWord sets clears [] := by
  intro h
  obtain ⟨before, x, after, hxs, -⟩ := h
  simp at hxs

/-- What the last element means for it. -/
theorem lastWord_concat (xs : List α) (x : α) :
    LastWord sets clears (xs ++ [x]) ↔ sets x ∨ LastWord sets clears xs ∧ ¬clears x := by
  constructor
  · intro h
    obtain ⟨before, setting, after, hxs, hsets, hlater⟩ := h
    cases after using List.reverseRecOn with
    | nil =>
      obtain ⟨-, hlast⟩ := List.append_inj' hxs rfl
      obtain rfl := (List.cons.inj hlast).1
      exact Or.inl hsets
    | append_singleton after last _ =>
      have hshape : xs ++ [x] = (before ++ setting :: after) ++ [last] := by
        rw [hxs]
        simp
      obtain ⟨hfront, hlast⟩ := List.append_inj' hshape rfl
      obtain rfl := (List.cons.inj hlast).1
      refine Or.inr ⟨⟨before, setting, after, hfront, hsets, ?_⟩, hlater _ (by simp)⟩
      intro later hin
      exact hlater later (by simp [hin])
  · intro h
    rcases h with hsets | ⟨hword, hkept⟩
    · exact ⟨xs, x, [], rfl, hsets, by simp⟩
    · obtain ⟨before, setting, after, rfl, hsets, hlater⟩ := hword
      refine ⟨before, setting, after ++ [x], by simp, hsets, ?_⟩
      intro later hin
      rcases List.mem_append.mp hin with hin | hin
      · exact hlater later hin
      · exact List.mem_singleton.mp hin ▸ hkept

end Base
