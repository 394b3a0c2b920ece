import Yaf.Dispatcher.Runs

namespace Yaf
open Base Base.Run

def Event.ofHandler : Event → Bool
  | .handlerBody _ => true
  | .handlerDispatch .. => true
  | _ => false

/-- The events of the exception handler in a log. -/
def handlerEvents (log : List (Nat × Event)) : List Event :=
  (log.map Prod.snd).filter Event.ofHandler

/-- One run of the handler: its body, one handle call, and a second one only after the first has
failed for want of a controller, with the module set back to the default. -/
inductive HandlerRun : List Event → Prop where
  | entered (names : Names) : HandlerRun [.handlerBody names]
  | dispatched (names : Names) (target : Names) (defaultModule : Bytes) :
      HandlerRun [.handlerBody names, .handlerDispatch none target defaultModule]
  | fellBack (names : Names) (target : Names) (defaultModule : Bytes) (failed : Thrown)
      (second : Names) (secondDefault : Bytes) (hf : failed.isNotfoundController = true)
      (hm : second.module = .string secondDefault) :
      HandlerRun [.handlerBody names, .handlerDispatch none target defaultModule,
        .handlerDispatch (some failed) second secondDefault]

section
variable {γ : Type}

def World.handlerTrace (w : World γ) : List Event := handlerEvents w.log

theorem handlerTrace_record (w : World γ) (e : Event) :
    (w.record e).handlerTrace =
      if e.ofHandler then w.handlerTrace ++ [e] else w.handlerTrace := by
  simp only [World.handlerTrace, handlerEvents, World.record, List.map_append, List.map_cons,
    List.map_nil, List.filter_append]
  split <;> simp_all

/-- Once the flag is up it stays up and the handler does nothing more. -/
def Locked (w w' : World γ) : Prop :=
  w.inException = true → w'.inException = true ∧ w'.handlerTrace = w.handlerTrace

/-- A run that starts with the flag down enters the handler at most once, and then leaves it up. -/
def Once (w w' : World γ) : Prop :=
  Locked w w' ∧ (w.inException = false →
    w'.inException = false ∧ w'.handlerTrace = w.handlerTrace ∨
    w'.inException = true ∧ ∃ es, HandlerRun es ∧ w'.handlerTrace = w.handlerTrace ++ es)

theorem once_trail :
    Trail (Once : World γ → World γ → Prop) fun e => e.ofHandler = false where
  refl w := ⟨fun h => ⟨h, rfl⟩, fun h => .inl ⟨h, rfl⟩⟩
  trans := by
    rintro u v w ⟨hlock, hfree⟩ ⟨hlock', hfree'⟩
    constructor
    · intro h
      obtain ⟨hv, htv⟩ := hlock h
      obtain ⟨hw, htw⟩ := hlock' hv
      exact ⟨hw, htw.trans htv⟩
    · intro h
      rcases hfree h with ⟨hv, htv⟩ | ⟨hv, es, hes, htv⟩
      · rcases hfree' hv with ⟨hw, htw⟩ | ⟨hw, es, hes, htw⟩
        · exact .inl ⟨hw, htw.trans htv⟩
        · exact .inr ⟨hw, es, hes, by rw [htw, htv]⟩
      · obtain ⟨hw, htw⟩ := hlock' hv
        exact .inr ⟨hw, es, hes, htw.trans htv⟩
  php w p _ := ⟨fun h => ⟨h, rfl⟩, fun h => .inl ⟨h, rfl⟩⟩
  record w e he := by
    have htrace : (w.record e).handlerTrace = w.handlerTrace := by
      rw [handlerTrace_record, he]
      rfl
    exact ⟨fun h => ⟨h, htrace⟩, fun h => .inl ⟨h, htrace⟩⟩

theorem HandleEvent.not_ofHandler {e : Event} (h : HandleEvent e) : e.ofHandler = false := by
  cases h <;> rfl

variable {call : Calls γ} {fuel : Nat}

/-- Under the flag a handle call of the handler leaves its own event and no other. -/
theorem handlerHandle_traced (hu : ∀ site, Within Once (userCall call site))
    (failed : Option Thrown) (response view : Nat) {w : World γ} (hw : w.inException = true) :
    let es := [Event.handlerDispatch failed w.php.request.names w.php.dispatcher.defaults.module]
    Meets (handlerHandle call fuel failed response view) w
      (fun _ w' => w'.inException = true ∧ w'.handlerTrace = w.handlerTrace ++ es)
      fun _ w' => w'.inException = true ∧ w'.handlerTrace = w.handlerTrace ++ es := by
  intro es
  have hhandle : Within Once (handle call response view fuel) :=
    handle_closed once_trail.closed hu fun e h => h.not_ofHandler
  have hrecord := handlerTrace_record w
    (.handlerDispatch failed w.php.request.names w.php.dispatcher.defaults.module)
  have hlock : ∀ w', Once (w.record
      (.handlerDispatch failed w.php.request.names w.php.dispatcher.defaults.module)) w' →
      w'.inException = true ∧ w'.handlerTrace = w.handlerTrace ++ es := by
    intro w' h
    obtain ⟨hflag, htrace⟩ := h.1 hw
    exact ⟨hflag, by rw [htrace, hrecord]; rfl⟩
  simp only [handlerHandle, getPhp, Yaf.record, meets_bind, meets_get, meets_pure, meets_modify]
  exact (hhandle.meets _).mono (fun _ => hlock) fun _ => hlock

/-- Under the flag the handler dispatches once or twice. -/
theorem handlerDispatches_traced (hu : ∀ site, Within Once (userCall call site))
    (response view : Nat) {w : World γ} (hw : w.inException = true) :
    let Q : World γ → Prop := fun w' => w'.inException = true ∧
      ∃ ds, (∀ names, HandlerRun (.handlerBody names :: ds)) ∧
        w'.handlerTrace = w.handlerTrace ++ ds
    Meets (handlerDispatches call fuel response view) w (fun _ => Q) fun _ => Q := by
  intro Q
  have hfirst : ∀ w' : World γ, w'.inException = true ∧ w'.handlerTrace = w.handlerTrace ++
      [.handlerDispatch none w.php.request.names w.php.dispatcher.defaults.module] → Q w' :=
    fun w' h => ⟨h.1, _, fun names => .dispatched names _ _, h.2⟩
  simp only [handlerDispatches, meets_bind]
  refine (handlerHandle_traced hu none response view hw).mono (fun handled w₁ h₁ => ?_)
    fun _ _ => hfirst _
  simp only [getPhp, meets_bind, meets_get, meets_pure]
  split
  · rename_i failed _
    split
    · rename_i hf
      -- the fallback: the second handle call follows the first
      simp only [updatePhp, meets_bind, meets_modify, meets_pure]
      have hback : ∀ w' : World γ, w'.inException = true ∧
          w'.handlerTrace = (w₁.update aimAtDefaultModule).handlerTrace ++
            [.handlerDispatch (some failed) (w₁.update aimAtDefaultModule).php.request.names
              (w₁.update aimAtDefaultModule).php.dispatcher.defaults.module] → Q w' := by
        rintro w' ⟨hflag, htrace⟩
        have htarget : (w₁.update aimAtDefaultModule).php.request.names.module =
            .string (w₁.update aimAtDefaultModule).php.dispatcher.defaults.module := by
          simp [World.update, aimAtDefaultModule, Php.request, Php.setRequest, Request.names]
        have hup : (w₁.update aimAtDefaultModule).handlerTrace = w₁.handlerTrace := rfl
        rw [hup, h₁.2, List.append_assoc] at htrace
        exact ⟨hflag, _, fun names => .fellBack names _ _ failed _ _ hf htarget, htrace⟩
      have hsecond : Meets (handlerHandle call fuel (some failed) response view)
          (w₁.update aimAtDefaultModule) _ _ :=
        handlerHandle_traced hu (some failed) response view h₁.1
      exact hsecond.mono (fun _ => hback) fun _ => hback
    · exact hfirst _ h₁
  · exact hfirst _ h₁

/-- The body of the handler, entered under the flag. -/
theorem handlerBody_traced (hu : ∀ site, Within Once (userCall call site)) (thrown : Thrown)
    (response : Nat) {w : World γ} (hw : w.inException = true) :
    let Q : World γ → Prop := fun w' =>
      w'.inException = true ∧ ∃ es, HandlerRun es ∧ w'.handlerTrace = w.handlerTrace ++ es
    Meets (handlerBody call fuel thrown response) w (fun _ => Q) fun _ => Q := by
  intro Q
  have htrace := handlerTrace_record w (.handlerBody w.php.request.names)
  simp only [handlerBody, getPhp, Yaf.record, updatePhp, meets_bind, meets_get, meets_pure,
    meets_modify]
  have hview : Within Once (dispatcherInitView : Exec γ Nat) :=
    dispatcherInitView_closed once_trail.closed.frames
  have hlock : ∀ w₁, Once ((w.record (.handlerBody w.php.request.names)).update
      (aimAtError thrown)) w₁ →
      w₁.inException = true ∧
        w₁.handlerTrace = w.handlerTrace ++ [.handlerBody w.php.request.names] := by
    intro w₁ h
    obtain ⟨hflag, hview⟩ := h.1 hw
    exact ⟨hflag, hview.trans htrace⟩
  refine (hview.meets _).mono (fun view w₁ h₁ => ?_) fun _ w₁ h₁ =>
    ⟨(hlock w₁ h₁).1, _, .entered _, (hlock w₁ h₁).2⟩
  obtain ⟨hflag, htrace₁⟩ := hlock w₁ h₁
  have hdone : ∀ w₂ : World γ, (w₂.inException = true ∧
      ∃ ds, (∀ names, HandlerRun (.handlerBody names :: ds)) ∧
        w₂.handlerTrace = w₁.handlerTrace ++ ds) → Q w₂ := by
    rintro w₂ ⟨hflag₂, ds, hds, htrace₂⟩
    exact ⟨hflag₂, _, hds w.php.request.names, by rw [htrace₂, htrace₁, List.append_assoc]; rfl⟩
  refine (handlerDispatches_traced hu response view hflag).mono (fun _ w₂ h₂ => ?_)
    fun _ w₂ h₂ => hdone w₂ h₂
  exact hdone w₂ h₂

theorem exceptionHandler_once (hu : ∀ site, Within Once (userCall call site)) (response : Nat) :
    Within Once (exceptionHandler call fuel response) := by
  have t := once_trail (γ := γ)
  refine Within.of_meets fun w => ?_
  simp only [exceptionHandler, meets_bind, meets_get]
  split
  · exact t.refl w
  by_cases hflag : w.inException = true
  · rw [if_pos hflag]
    exact t.refl w
  · rw [if_neg hflag, meets_bind, meets_modify]
    have hlock : ∀ w' : World γ, (w'.inException = true ∧ ∃ es, HandlerRun es ∧
        w'.handlerTrace = w.handlerTrace ++ es) → Once w w' :=
      fun w' h => ⟨fun hup => absurd hup hflag, fun _ => .inr h⟩
    exact (handlerBody_traced hu _ response rfl).mono (fun _ => hlock) fun _ => hlock

theorem dispatch_once (hc : ∀ site, Within Once (call site)) :
    Within Once (dispatch call fuel) := by
  have hu : ∀ site, Within Once (userCall call site) :=
    userCall_closed once_trail.closed.frames hc fun _ _ _ _ _ => rfl
  refine dispatch_within (R := Once) ?_ fun w w' h => h
  exact dispatchBody_within once_trail hu (fun e h => h.not_ofHandler) (fun _ => rfl)
    (fun _ => rfl) fun _ => exceptionHandler_once hu _

/-- Over a whole PHP request, with all its dispatches one after and in another, the exception
handler runs at most once. -/
theorem one_handler_run (app : Site → Script γ) (fuel room : Nat) (main : Script γ)
    (php : Php γ) :
    let es := handlerEvents (phpRequest app fuel room main (.start php)).2.log
    es = [] ∨ HandlerRun es := by
  intro es
  have h : Once (.start php) (phpRequest app fuel room main (.start php)).2 :=
    phpRequest_within once_trail
      (fun _ _ => ⟨fun h => ⟨h, rfl⟩, fun h => .inl ⟨h, rfl⟩⟩) (fun _ => dispatch_once) room main _
  rcases h.2 rfl with ⟨_, htrace⟩ | ⟨_, es', hes', htrace⟩
  · exact .inl htrace
  · have he : es = es' := htrace
    exact .inr (he ▸ hes')

end

end Yaf
