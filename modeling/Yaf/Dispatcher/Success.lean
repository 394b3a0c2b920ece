import Yaf.Dispatcher.Dispatch

namespace Yaf
open Base Base.Run

section
variable {γ : Type} {call : Calls γ}

/-- A call that has a result leaves no exception. -/
theorem userCall_settles (site : Site) (w : World γ) :
    Meets (userCall call site) w (fun ret w' => ret.isSome = true → w'.pending = false)
      fun _ _ => True := by
  refine meets_after _ fun php w₀ => ?_
  split
  · simp
  · refine meets_after _ fun ret w₁ => ?_
    simp only [getPhp, Yaf.record, meets_bind, meets_get, meets_pure, meets_modify]
    split
    · simp
    · rename_i h
      intro _
      simpa [World.pending, World.record] using h

theorem callWithParameters_settles (ce : ClassEntry) (object : Nat) (method : Bytes)
    (names : List Bytes) (w : World γ) :
    Meets (callWithParameters call ce object method names) w
      (fun ret w' => ret.isSome = true → w'.pending = false) fun _ _ => True := by
  refine meets_after _ fun request w₀ => ?_
  split
  · trivial
  · exact userCall_settles _ _

theorem renderAction_settles (ce : ClassEntry) (executor : Nat) (action : Bytes)
    (response : Nat) {w : World γ} (hw : w.pending = false) :
    Meets (renderAction call ce executor action response) w
      (fun b w' => b = true → w'.pending = false) fun _ _ => True := by
  simp only [renderAction, readProperty, getPhp, meets_bind, meets_get, meets_pure]
  split
  · split
    · rw [meets_bind]
      refine (userCall_settles _ w).mono (fun ret w₁ h₁ => ?_) fun _ _ _ => trivial
      split
      · simp
      · simp
      · unfold responseAppend
        split <;> simpa [updatePhp, World.update, World.pending] using h₁
      · simpa using h₁
    · rw [meets_bind]
      refine (userCall_settles _ w).mono (fun ret w₁ h₁ => ?_) fun _ _ _ => trivial
      split
      · simp
      · simp
      · simpa using h₁
  · simpa using hw

theorem afterAction_settles (ce : ClassEntry) (executor : Nat) (action : Bytes)
    (response : Nat) {ret : Option Zval} {w : World γ}
    (hw : ret.isSome = true → w.pending = false) :
    Meets (afterAction call ce executor action response ret) w
      (fun b w' => b = true → w'.pending = false) fun _ _ => True := by
  unfold afterAction
  split
  · simp
  · simpa using hw
  · exact renderAction_settles _ _ _ _ (hw rfl)

/-- An action is called and its result looked at. -/
theorem callThenAfter_settles (ce : ClassEntry) (executor : Nat) (method action : Bytes)
    (names : List Bytes) (response : Nat) (w : World γ) :
    Meets (callWithParameters call ce executor method names >>=
        afterAction call ce executor action response) w
      (fun b w' => b = true → w'.pending = false) fun _ _ => True := by
  rw [meets_bind]
  exact (callWithParameters_settles ce executor method names w).mono
    (fun _ _ h => afterAction_settles ce executor action response h) fun _ _ _ => trivial

theorem runActionClass_settles (entry : HandleEntry) (ce : ClassEntry) (controller : Nat)
    (action : Bytes) (response view : Nat) (w : World γ) :
    Meets (runActionClass call entry ce controller action response view) w
      (fun b w' => b = true → w'.pending = false) fun _ _ => True := by
  unfold runActionClass
  split
  · simp
  · refine meets_after _ fun executor _ => meets_after _ fun _ _ => meets_after _ fun php _ => ?_
    refine meets_after _ fun _ _ => meets_after _ fun _ _ => ?_
    exact callThenAfter_settles ce executor (lit "execute") action _ response _

theorem runAction_settles (entry : HandleEntry) (appDir : Bytes) (ce : ClassEntry)
    (controller : Nat) (defModule : Bool) (response view : Nat) (w : World γ) :
    Meets (runAction call entry appDir ce controller defModule response view) w
      (fun b w' => b = true → w'.pending = false) fun _ _ => True := by
  refine meets_after _ fun php _ => meets_after _ fun _ _ => meets_after _ fun _ w₀ => ?_
  split
  · dsimp only
    split
    · exact callThenAfter_settles ce controller _ _ _ response _
    · refine meets_after _ fun actionCe w₁ => ?_
      split
      · simp
      · exact runActionClass_settles entry _ controller _ response view w₁
  · trivial

/-- A handle call that succeeds leaves no exception. -/
theorem handle_settles (response view fuel : Nat) (w : World γ) :
    Meets (handle call response view fuel) w (fun b w' => b = true → w'.pending = false)
      fun _ _ => True := by
  have hfails : ∀ (type : YafErr) (message : Bytes) (w : World γ),
      Meets (triggerError call type message >>= fun _ => (pure false : Exec γ Bool)) w
        (fun b w' => b = true → w'.pending = false) fun _ _ => True :=
    fun type message w => meets_after _ fun _ _ => by simp
  induction fuel generalizing w with
  | zero => trivial
  | succ fuel ih =>
    refine meets_after _ fun _ _ => meets_after _ fun php _ => meets_after _ fun _ w₀ => ?_
    split
    · exact hfails _ _ _
    split
    · exact hfails _ _ _
    split
    · exact hfails _ _ _
    split
    · exact hfails _ _ _
    refine meets_after _ fun ce w₁ => ?_
    split
    · simp
    refine meets_after _ fun _ _ => meets_after _ fun self _ => meets_after _ fun _ _ => ?_
    refine meets_after _ fun php' w₂ => ?_
    split
    · simp
    split
    · exact ih w₂
    · exact runAction_settles _ _ _ self _ response view w₂

end

end Yaf
