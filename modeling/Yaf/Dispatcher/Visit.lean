import Yaf.Dispatcher.Handle

namespace Yaf
open Base Base.Run

/-- What a call of `yaf_dispatcher_handle` has in hand when its controller is constructed. -/
structure Made where
  entry : HandleEntry
  appDir : Bytes
  module : Bytes
  controller : Bytes
  ce : ClassEntry
  self : Nat

/-- The flag `is_def_module`. -/
def Made.defModule (made : Made) : Bool := made.entry.defaultModule == made.module

/-- An action that was called: on which object, under which name, what it returned, and the state
before and behind the call. -/
structure Visit (γ : Type) where
  made : Made
  ce : ClassEntry
  executor : Nat
  action : Bytes
  ret : Option Zval
  before : Php γ
  after : Php γ

/-- The method an action is looked up as. -/
def actionMethod (action : Bytes) : Bytes := (cstr action ++ lit "action").map toLower

section
variable {γ : Type} (call : Calls γ)

/-- The controller of an entry is loaded and constructed, behind the checks of the names. -/
def openController (response view : Nat) (entry : HandleEntry) : Exec γ (Option Made) :=
  match entry.directory with
  | none => do
    triggerError call .startupFailed (lit "Yaf_Dispatcher requires Yaf_Application" ++
      lit "(which set the application.directory) to be initialized first")
    pure none
  | some appDir =>
    match entry.names.module.text? with
    | none => do
      triggerError call .dispatchFailed (lit "Unexcepted a empty module name")
      pure none
    | some module =>
      if !applicationIsModuleName entry.modules module then do
        triggerError call .notfoundModule (lit "There is no module " ++ cstr module)
        pure none
      else
        match entry.names.controller.text? with
        | none => do
          triggerError call .dispatchFailed (lit "Unexcepted a empty controller name")
          pure none
        | some controller => do
          let ce ← getController call entry appDir module controller
            (entry.defaultModule == module)
          match ce with
          | none => pure none
          | some ce => do
            record (.newController entry ce.name)
            let self ← objectInit ce
            controllerConstruct call ce self response view
            pure (some ⟨entry, appDir, module, controller, ce, self⟩)

/-- `yaf_dispatcher_handle` up to where `init` has run. -/
def makeController (response view : Nat) : Exec γ (Option Made) := do
  setDispatched true
  let php ← getPhp
  record (.enterHandle (handleEntry php))
  openController call response view (handleEntry php)

/-- The views directory is published and the controller told its name. The result is the module
that goes to `yaf_dispatcher_get_action`. -/
def announce (made : Made) : Exec γ Zval := do
  let php ← getPhp
  let target := php.requests made.entry.request
  publishViews made.appDir target.module made.defModule
  setProperty made.self (lit "_name") target.controller
  pure target.module

/-- The executor is called. -/
def callExecutor (made : Made) (ce : ClassEntry) (executor : Nat) (method action : Bytes)
    (names : List Bytes) : Exec γ (Option (Visit γ)) := do
  let before ← getPhp
  let ret ← callWithParameters call ce executor method names
  let after ← getPhp
  pure (some ⟨made, ce, executor, action, ret, before, after⟩)

/-- An action that is a class of its own is constructed and called. -/
def callActionClass (response view : Nat) (made : Made) (ce : ClassEntry) (action : Bytes) :
    Exec γ (Option (Visit γ)) :=
  match Table.find? ce.functionTable (lit "execute") with
  | none => pure none
  | some names => do
    let executor ← objectInit ce
    controllerConstruct call ce executor response view
    let php ← getPhp
    setProperty executor (lit "_name") (php.requests made.entry.request).controller
    setProperty executor (lit "_controller") (.object made.self)
    callExecutor call made ce executor (lit "execute") action names

/-- The action of this name is looked up and called. -/
def callNamed (response view : Nat) (made : Made) (module : Zval) :
    Zval → Exec γ (Option (Visit γ))
  | .string action =>
    match Table.find? made.ce.functionTable (actionMethod action) with
    | some names => callExecutor call made made.ce made.self (actionMethod action) action names
    | none => do
      let ce ← getAction call made.appDir made.ce made.self module made.defModule action
      match ce with
      | none => pure none
      | some ce => callActionClass call response view made ce action
  | _ => Run.stop .fault

def callAction (response view : Nat) (made : Made) (module : Zval) :
    Exec γ (Option (Visit γ)) := do
  let php ← getPhp
  callNamed call response view made module php.request.action

/-- `yaf_dispatcher_handle` up to where its action has returned. -/
def handleVisit (response view : Nat) : Nat → Exec γ (Option (Visit γ))
  | 0 => Run.stop .stack
  | fuel + 1 => do
    let made ← makeController call response view
    match made with
    | none => pure none
    | some made => do
      let php ← getPhp
      if php.exception.isSome then pure none
      else if !php.request.dispatched then handleVisit response view fuel
      else do
        let module ← announce made
        callAction call response view made module

/-- The end of `yaf_dispatcher_handle`. -/
def afterVisit (response : Nat) : Option (Visit γ) → Exec γ Bool
  | none => pure false
  | some visit => afterAction call visit.ce visit.executor visit.action response visit.ret

/-- It goes on from the state it has read. -/
theorem read_run {β : Type} (f : Php γ → Exec γ β) (w : World γ) :
    (getPhp >>= f) w = f w.php w := rfl

theorem meets_read {β : Type} {f : Php γ → Exec γ β} {w : World γ} {Q : β → World γ → Prop}
    {E : Stop → World γ → Prop} : Meets (getPhp >>= f) w Q E ↔ Meets (f w.php) w Q E := Iff.rfl

theorem callExecutor_bind (response : Nat) (made : Made) (ce : ClassEntry) (executor : Nat)
    (method action : Bytes) (names : List Bytes) :
    callExecutor call made ce executor method action names >>= afterVisit call response =
      callWithParameters call ce executor method names >>=
        afterAction call ce executor action response := by
  simp only [callExecutor, bind_bind, pure_bind_eq, afterVisit]
  rfl

theorem callActionClass_bind (response view : Nat) (made : Made) (ce : ClassEntry)
    (action : Bytes) :
    callActionClass call response view made ce action >>= afterVisit call response =
      runActionClass call made.entry ce made.self action response view := by
  unfold callActionClass runActionClass
  cases Table.find? ce.functionTable (lit "execute") with
  | none => rfl
  | some names => simp only [bind_bind, callExecutor_bind]

/-- What is read behind the announcement of the views and the name. -/
theorem announced_read {appDir : Bytes} {module : Zval} {defModule : Bool} {object : Nat}
    {name : Bytes} {value : Zval} {f : Zval → Exec γ Bool} (w : World γ) :
    (publishViews appDir module defModule >>= fun _ => setProperty object name value >>= fun _ =>
        getPhp >>= fun php => f php.request.action) w =
      (publishViews appDir module defModule >>= fun _ => setProperty object name value >>= fun _ =>
        f w.php.request.action) w := by
  cases defModule with
  | true => rfl
  | false => cases module <;> rfl

/-- `runAction` is the announcement, the call and what follows the call. -/
theorem runAction_eq (response view : Nat) (made : Made) :
    runAction call made.entry made.appDir made.ce made.self made.defModule response view =
      (announce made >>= callAction call response view made) >>= afterVisit call response := by
  funext w
  simp only [announce, callAction, bind_bind, pure_bind_eq]
  rw [read_run]
  unfold runAction
  rw [read_run]
  refine Eq.trans ?_ (announced_read (f := fun action =>
    callNamed call response view made _ action >>= afterVisit call response) w).symm
  refine congrFun (bind_congr fun _ => bind_congr fun _ => ?_) w
  cases w.php.request.action with
  | string action =>
    dsimp only [callNamed, actionMethod]
    cases Table.find? made.ce.functionTable ((cstr action ++ lit "action").map toLower) with
    | some names => rw [callExecutor_bind]
    | none =>
      rw [bind_bind]
      refine bind_congr fun ce => ?_
      cases ce with
      | none => rfl
      | some ce => exact (callActionClass_bind call response view made ce action).symm
  | _ => rfl

/-- Handling is the visit and what follows it. -/
theorem handle_eq_visit (response view fuel : Nat) :
    handle call response view fuel =
      handleVisit call response view fuel >>= afterVisit call response := by
  induction fuel with
  | zero => rfl
  | succ fuel ih =>
    unfold handle handleVisit makeController openController
    simp only [bind_bind]
    refine bind_congr fun _ => bind_congr fun php => bind_congr fun _ => ?_
    cases (handleEntry php).directory with
    | none => simp only [bind_bind]; rfl
    | some appDir =>
      dsimp only
      cases (handleEntry php).names.module.text? with
      | none => simp only [bind_bind]; rfl
      | some module =>
        dsimp only
        cases applicationIsModuleName (handleEntry php).modules module with
        | false => simp only [Bool.not_false, ↓reduceIte, bind_bind]; rfl
        | true =>
          simp only [Bool.not_true, Bool.false_eq_true, ↓reduceIte]
          cases (handleEntry php).names.controller.text? with
          | none => simp only [bind_bind]; rfl
          | some controller =>
            simp only [bind_bind]
            refine bind_congr fun ce => ?_
            cases ce with
            | none => rfl
            | some ce =>
              simp only [bind_bind, pure_bind_eq]
              refine bind_congr fun _ => bind_congr fun self => bind_congr fun _ => ?_
              refine bind_congr fun php' => ?_
              split
              · rfl
              split
              · exact ih
              · exact runAction_eq call response view
                  ⟨handleEntry php, appDir, module, controller, ce, self⟩

end

end Yaf
