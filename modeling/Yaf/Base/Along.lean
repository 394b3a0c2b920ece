import Mathlib.Data.List.Basic

namespace Base
variable {α : Type}

/-- Each element meets a condition on what came before it. -/
def Along (C : List α → α → Prop) (hist xs : List α) : Prop :=
  ∀ before x after, xs = before ++ x :: after → C (hist ++ before) x

variable {C : List α → α → Prop} {hist xs ys : List α}

theorem Along.left (h : Along C hist (xs ++ ys)) : Along C hist xs := by
  intro before x after hxs
  exact h before x (after ++ ys) (by rw [hxs, List.append_assoc, List.cons_append])

theorem Along.right (h : Along C hist (xs ++ ys)) : Along C (hist ++ xs) ys := by
  intro before x after hys
  rw [List.append_assoc]
  exact h (xs ++ before) x after (by rw [hys, List.append_assoc])

/-- The first element comes behind the history alone. -/
theorem Along.head {x : α} (h : Along C hist (x :: xs)) : C hist x := by
  have hx := h [] x xs rfl
  rwa [List.append_nil] at hx

/-- A condition that does not look back. -/
theorem along_of_forall {D : α → Prop} (h : ∀ x ∈ xs, D x) : Along (fun _ => D) hist xs := by
  intro before x after hxs
  exact h x (hxs ▸ List.mem_append_right before List.mem_cons_self)

/-- A condition that looks back to the end of the history only. -/
theorem Along.behind (h : Along C [] xs) :
    Along (fun past => C (past.drop hist.length)) hist xs := by
  intro before x after hxs
  rw [List.drop_left]
  exact h before x after hxs

end Base
