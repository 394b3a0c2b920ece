import Yaf.Dispatcher.Trail

namespace Yaf
open Base Base.Run

/-- What handle calls and the exception handler leave in the log. -/
inductive HandlerEvent : Event → Prop where
  | handle {e : Event} (h : HandleEvent e) : HandlerEvent e
  | body (names : Names) : HandlerEvent (.handlerBody names)
  | dispatch (failed : Option Thrown) (names : Names) (defaultModule : Bytes) :
      HandlerEvent (.handlerDispatch failed names defaultModule)

/-- What is left between the phases of a dispatch. -/
inductive InnerEvent : Event → Prop where
  | called (site : Site) (before after : Request) (defaults : DefaultNames) (threw : Bool) :
      InnerEvent (.called site before after defaults threw)
  | handler {e : Event} (h : HandlerEvent e) : InnerEvent e

section
variable {γ : Type} {R : World γ → World γ → Prop} {Ev : Event → Prop} {call : Calls γ}
  {fuel : Nat}

section
variable (t : Trail R Ev) (hu : ∀ site, Within R (userCall call site))
  (he : ∀ e, HandlerEvent e → Ev e)
include t hu he

theorem handlerHandle_within {failed : Option Thrown} {response view : Nat} :
    Within R (handlerHandle call fuel failed response view) :=
  t.read fun _ => t.bind (t.log (he _ (.dispatch ..))) fun _ =>
    handle_closed t.closed hu fun e h => he e (.handle h)

theorem handlerDispatches_within {response view : Nat} :
    Within R (handlerDispatches call fuel response view) := by
  refine t.bind (handlerHandle_within t hu he) fun handled => t.read fun php => ?_
  split
  · split
    · refine t.bind (t.update fun _ => rfl) fun _ => ?_
      exact t.bind (handlerHandle_within t hu he) fun _ => t.pure _
    · exact t.pure _
  · exact t.pure _

theorem handlerBody_within {thrown : Thrown} {response : Nat} :
    Within R (handlerBody call fuel thrown response) := by
  refine t.read fun php => t.bind (t.log (he _ (.body _))) fun _ => ?_
  refine t.bind (t.update fun _ => rfl) fun _ => ?_
  refine t.bind (dispatcherInitView_closed t.closed.frames) fun view => ?_
  exact t.bind (handlerDispatches_within t hu he) fun _ => t.update fun _ => rfl

theorem exceptionHandler_within (hf : ∀ w, R w { w with inException := true }) {response : Nat} :
    Within R (exceptionHandler call fuel response) := by
  refine t.bind (within_get t.toChains) fun w => ?_
  split
  · exact t.pure _
  split
  · exact t.pure _
  · exact t.bind (fun w => hf w) fun _ => handlerBody_within t hu he

end

variable (t : Trail R Ev) (hu : ∀ site, Within R (userCall call site))
  (he : ∀ e, HandleEvent e → Ev e) (hp : ∀ run, Ev (.phase run))
  (hn : ∀ limit, Ev (.nestingError limit))
  (hh : ∀ response, Within R (exceptionHandler call fuel response))
include t

theorem exceptionHandleNoret_within
    (hh : ∀ response, Within R (exceptionHandler call fuel response))
    {response : Nat} : Within R (exceptionHandleNoret call fuel response) := by
  refine t.read fun php => ?_
  split
  · exact t.pure _
  · split
    · exact hh _
    · exact t.pure _

theorem within_inner {α β : Type} {m : Exec γ α} {f : α → DispatchExec γ β} (hm : Within R m)
    (hf : ∀ a, Within R (f a)) : Within R (within m >>= f) :=
  within_bind t.toChains (within_lift _ hm) hf

theorem within_null {α : Type} : Within R (Run.stop .null : DispatchExec γ α) :=
  within_stop t.toChains _

theorem phase_within (hp : ∀ run, Ev (.phase run)) {p : Phase} {m : Exec γ Bool}
    (hm : Within R m) : Within R (phase p m) := by
  intro w
  have hw := hm w
  unfold phase
  cases hr : m w with
  | mk r w' =>
    rw [hr] at hw
    cases r with
    | ok b => exact t.trans hw (t.record _ _ (hp _))
    | error e => exact t.trans hw (t.record _ _ (hp _))

theorem exceptionHandle_within (hh : ∀ response, Within R (exceptionHandler call fuel response))
    {response : Nat} : Within R (exceptionHandle call fuel response) := by
  refine within_inner t t.get fun php => ?_
  split
  · refine within_inner t (exceptionHandleNoret_within t hh) fun _ => ?_
    exact within_null t
  · exact within_pure t.toChains _

include hu hp hh

theorem hookPhase_within {hook : Hook} {response : Nat} :
    Within R (hookPhase call fuel hook response) :=
  within_inner t (phase_within t hp (pluginHandle_closed t.closed.frames hu)) fun _ =>
    exceptionHandle_within t hh

theorem routePhase_within {response : Nat} : Within R (routePhase call fuel response) := by
  refine within_inner t (phase_within t hp ?_) fun routed => ?_
  · exact dispatcherRoute_closed t.closed.frames hu fun _ => t.update fun _ => rfl
  split
  · exact within_pure t.toChains _
  · refine within_inner t (triggerError_closed t.closed.frames hu) fun _ => ?_
    exact within_inner t (exceptionHandleNoret_within t hh) fun _ => within_null t

include he

theorem handlePhase_within {response view : Nat} :
    Within R (handlePhase call fuel response view) := by
  refine within_inner t (phase_within t hp (handle_closed t.closed hu he)) fun handled => ?_
  split
  · exact within_pure t.toChains _
  · exact within_bind t.toChains (exceptionHandle_within t hh) fun _ => within_null t

theorem dispatchTurn_within {response view : Nat} :
    Within R (dispatchTurn call fuel response view) := by
  refine within_bind t.toChains (hookPhase_within t hu hp hh) fun _ => ?_
  refine within_bind t.toChains (handlePhase_within t hu he hp hh) fun _ => ?_
  exact within_inner t (t.update fun _ => rfl) fun _ => hookPhase_within t hu hp hh

/-- The loop keeps what each of its turns keeps. -/
theorem dispatchLoop_within {response view left : Nat} :
    Within R (dispatchLoop call fuel response view left) := by
  induction left with
  | zero =>
    exact within_bind t.toChains (dispatchTurn_within t hu he hp hh) fun _ =>
      within_pure t.toChains _
  | succ left ih =>
    refine within_bind t.toChains (dispatchTurn_within t hu he hp hh) fun _ => ?_
    refine within_inner t (getRequest_closed t.closed.frames) fun request => ?_
    split
    · exact within_pure t.toChains _
    · exact ih

omit he in
theorem routeRequest_within {response : Nat} : Within R (routeRequest call fuel response) := by
  refine within_inner t (getRequest_closed t.closed.frames) fun request => ?_
  split
  · exact within_lift _ (t.update fun _ => rfl)
  · refine within_bind t.toChains (hookPhase_within t hu hp hh) fun _ => ?_
    refine within_bind t.toChains (routePhase_within t hu hp hh) fun _ => ?_
    refine within_inner t (t.update fun _ => rfl) fun _ => ?_
    refine within_bind t.toChains (hookPhase_within t hu hp hh) fun _ => ?_
    exact within_lift _ (t.update fun _ => rfl)

include hn

omit he hp in
theorem finishDispatch_within {response left : Nat} :
    Within R (finishDispatch call fuel response left) := by
  refine within_inner t t.get fun php => ?_
  split
  · refine within_inner t (t.log (hn _)) fun _ => ?_
    refine within_inner t (triggerError_closed t.closed.frames hu) fun _ => ?_
    exact within_inner t (exceptionHandleNoret_within t hh) fun _ => within_null t
  · split
    · exact within_pure t.toChains _
    · refine within_inner t (t.update fun _ => rfl) fun _ => ?_
      refine within_inner t (t.update fun _ => rfl) fun _ => ?_
      exact within_pure t.toChains _

theorem dispatchBody_within : Within R (dispatchBody call fuel) := by
  refine within_inner t t.get fun start => ?_
  refine within_inner t (responseInstance_closed t.closed) fun response => ?_
  split
  · refine within_bind t.toChains (routeRequest_within t hu hp hh) fun _ => ?_
    refine within_bind t.toChains (hookPhase_within t hu hp hh) fun _ => ?_
    refine within_inner t (dispatcherInitView_closed t.closed.frames) fun view => ?_
    refine within_bind t.toChains (dispatchLoop_within t hu he hp hh) fun left => ?_
    refine within_bind t.toChains (hookPhase_within t hu hp hh) fun _ => ?_
    exact finishDispatch_within t hu hn hh
  · exact within_inner t (triggerError_closed t.closed.frames hu) fun _ => within_null t

end

section
variable {γ : Type} {R : World γ → World γ → Prop} {Ev : Event → Prop}

/-- PHP code does anything to the PHP state. -/
theorem runScript_within (t : Trail R Ev) (ha : ∀ w p, R w { w with php := p })
    {nested : Exec γ (Option Nat)} (hn : Within R nested) (s : Script γ) :
    Within R (runScript nested s) := by
  induction s with
  | done ret => exact t.pure _
  | exit => exact t.stop _
  | step f next ih =>
    have hstep : Within R (updatePhp f) := fun w => ha w _
    exact t.bind hstep fun _ => t.read fun php => ih php
  | dispatch next ih => exact t.bind hn fun response => ih response

/-- What every dispatch keeps when its calls do, every call keeps. -/
theorem callAt_within (t : Trail R Ev) (ha : ∀ w p, R w { w with php := p })
    {app : Site → Script γ} {fuel : Nat}
    (hd : ∀ call : Calls γ, (∀ site, Within R (call site)) → Within R (dispatch call fuel))
    (room : Nat) (site : Site) : Within R (callAt app fuel room site) := by
  induction room generalizing site with
  | zero => exact runScript_within t ha (t.stop _) _
  | succ room ih => exact runScript_within t ha (hd _ ih) _

theorem phpRequest_within (t : Trail R Ev) (ha : ∀ w p, R w { w with php := p })
    {app : Site → Script γ} {fuel : Nat}
    (hd : ∀ call : Calls γ, (∀ site, Within R (call site)) → Within R (dispatch call fuel))
    (room : Nat) (main : Script γ) : Within R (phpRequest app fuel room main) :=
  runScript_within t ha (hd _ (callAt_within t ha hd room)) main

/-- A dispatch is its body one level deeper. -/
theorem dispatch_within {call : Calls γ} {fuel : Nat} {S : World γ → World γ → Prop}
    (hb : Within R (dispatchBody call fuel))
    (hdepth : ∀ w w', R { w with depth := w.depth + 1 } w' → S w { w' with depth := w.depth }) :
    Within S (dispatch call fuel) := by
  intro w
  have hw := hdepth w _ (hb { w with depth := w.depth + 1 })
  unfold dispatch
  cases hr : dispatchBody call fuel { w with depth := w.depth + 1 } with
  | mk r w' =>
    rw [hr] at hw
    cases r with
    | ok response => exact hw
    | error e => cases e <;> exact hw

end

end Yaf
