import Yaf.Dispatcher.Handle

namespace Yaf
open Base

/-- How a dispatch ends before its end: it returns NULL, or the whole run stops. -/
inductive Exit where
  | null
  | stop (s : Stop)

/-- The text `%ld` gives for a number. -/
def longText (n : Int) : Bytes := lit (toString n)

section
variable {γ : Type} (call : Calls γ) (fuel : Nat)

/-- The handler aims the request at the error controller and takes the exception off. -/
def aimAtError (thrown : Thrown) (php : Php γ) : Php γ :=
  let request := php.request
  { php.setRequest { request with
      module := match request.module.text? with
        | none => .string php.dispatcher.defaults.module
        | some _ => request.module
      controller := .string (lit "Error")
      action := .string (lit "error")
      exception := some thrown.object
      params := Table.update request.params (.name (lit "exception")) (.object thrown.object)
      dispatched := false } with
    exception := none }

/-- The error catcher of the default module is aimed at instead. -/
def aimAtDefaultModule (php : Php γ) : Php γ :=
  { php.setRequest { php.request with module := .string php.dispatcher.defaults.module } with
    exception := none }

/-- A handle call of the exception handler. `failed` is what the call before it ended with. -/
def handlerHandle (failed : Option Thrown) (response view : Nat) : Exec γ Bool := do
  let php ← getPhp
  record (.handlerDispatch failed php.request.names php.dispatcher.defaults.module)
  handle call response view fuel

/-- The error controller is dispatched, and the one of the default module when that one is not
found. -/
def handlerDispatches (response view : Nat) : Exec γ Unit := do
  let handled ← handlerHandle call fuel none response view
  let php ← getPhp
  match handled, php.exception with
  | false, some failed =>
    if failed.isNotfoundController then
      updatePhp aimAtDefaultModule
      let _ ← handlerHandle call fuel (some failed) response view
      pure ()
    else pure ()
  | _, _ => pure ()

/-- `yaf_dispatcher_exception_handler` behind its guard. -/
def handlerBody (thrown : Thrown) (response : Nat) : Exec γ Unit := do
  let php ← getPhp
  record (.handlerBody php.request.names)
  updatePhp (aimAtError thrown)
  let view ← dispatcherInitView
  handlerDispatches call fuel response view
  responseSend response

/-- `yaf_dispatcher_exception_handler`. -/
def exceptionHandler (response : Nat) : Exec γ Unit := do
  let w ← Run.get
  match w.php.exception with
  | none => pure ()
  | some thrown =>
    if w.inException then pure ()
    else
      Run.modify fun w => { w with inException := true }
      handlerBody call fuel thrown response

/-- The macro `YAF_EXCEPTION_HANDLE_NORET`. -/
def exceptionHandleNoret (response : Nat) : Exec γ Unit := do
  let php ← getPhp
  match php.exception with
  | none => pure ()
  | some thrown =>
    if php.globals.catchException && thrown.isException then exceptionHandler call fuel response
    else pure ()

/-- A route object is asked for its answer: a built-in class decides by itself. -/
def callRoute (key : Key) (route : RouteObject) : Exec γ (Option Zval) := do
  let php ← getPhp
  if php.exception.isSome then pure none
  else
    match route with
    | .user object => userCall call (.route key object)
    | .builtin route =>
      match route.route php.routeEnv php.request with
      | none => Run.stop .fault
      | some (ok, request) => do
        updateRequest fun _ => request
        pure (some (.bool ok))

/-- What `zend_update_property_string` and its sibling for numbers store of a key. -/
def Key.stored : Key → Key
  | .name key => .name (cstr key)
  | .index idx => .index idx

def setCurrentRoute (key : Key) : Exec γ Unit :=
  updatePhp fun php =>
    match php.dispatcher.router with
    | .builtin router =>
      { php with dispatcher := { php.dispatcher with
          router := .builtin { router with currentRoute := some key.stored } } }
    | _ => php

/-- The loop of `yaf_router_route`: the first route that answers true is the one. -/
def routerRoute : List (Key × RouteObject) → Exec γ Bool
  | [] => pure false
  | (key, route) :: routes => do
    let ret ← callRoute call key route
    match ret with
    | some (.bool true) => do
      setCurrentRoute key
      updateRequest fun request => { request with routed := true }
      pure true
    | _ => routerRoute routes

/-- `yaf_dispatcher_route`. The routes are tried from the last one on; the answer of the built-in
router makes no difference. -/
def dispatcherRoute : Exec γ Bool := do
  let php ← getPhp
  match php.dispatcher.router with
  | .null => pure false
  | .builtin router => do
    let _ ← routerRoute call router.routes.reverse
    pure true
  | .user object => do
    let ret ← userCall call (.router object)
    match ret with
    | some (.bool true) => pure true
    | _ => do
      triggerError call .routeFailed (lit "Routing request faild")
      pure false

/-- The loop of `YAF_PLUGIN_HANDLE`. -/
def callPlugins (hook : Hook) (response : Nat) : List Plugin → Exec γ Unit
  | [] => pure ()
  | plugin :: plugins => do
    if hook.method ∈ plugin.functionTable then
      let _ ← userCall call (.hook plugin hook response)
      callPlugins hook response plugins
    else callPlugins hook response plugins

theorem callPlugins_cons (hook : Hook) (response : Nat) (plugin : Plugin) (plugins : List Plugin) :
    callPlugins call hook response (plugin :: plugins) =
      if hook.method ∈ plugin.functionTable then
        userCall call (.hook plugin hook response) >>= fun _ =>
          callPlugins call hook response plugins
      else callPlugins call hook response plugins := rfl

/-- The macro `YAF_PLUGIN_HANDLE`. -/
def pluginHandle (hook : Hook) (response : Nat) : Exec γ Bool := do
  let php ← getPhp
  callPlugins call hook response (php.dispatcher.plugins.getD [])
  pure true

/-- A phase leaves its end in the log. -/
def phase (p : Phase) (m : Exec γ Bool) : Exec γ Bool := fun w =>
  match m w with
  | (.ok b, w') => (.ok b, w'.record (.phase ⟨p, some ⟨b, w'.pending, w'.dispatched⟩⟩))
  | (.error e, w') => (.error e, w'.record (.phase ⟨p, none⟩))

theorem meets_phase {p : Phase} {m : Exec γ Bool} {w : World γ} {Q : Bool → World γ → Prop}
    {E : Stop → World γ → Prop} :
    Run.Meets (phase p m) w Q E ↔
      Run.Meets m w
        (fun b w' => Q b (w'.record (.phase ⟨p, some ⟨b, w'.pending, w'.dispatched⟩⟩)))
        fun e w' => E e (w'.record (.phase ⟨p, none⟩)) := by
  unfold Run.Meets phase
  cases m w with
  | mk r w' => cases r <;> rfl

/-- Code of a dispatch, which may return NULL at any point. -/
abbrev DispatchExec (γ : Type) := Run (World γ) Exit

/-- A call from a dispatch. -/
def within {α : Type} (m : Exec γ α) : DispatchExec γ α := Run.lift .stop m

/-- The macro `YAF_EXCEPTION_HANDLE`: it returns from the dispatch. -/
def exceptionHandle (response : Nat) : DispatchExec γ Unit := do
  let php ← within getPhp
  if php.exception.isSome then
    within (exceptionHandleNoret call fuel response)
    Run.stop .null
  else pure ()

def hookPhase (hook : Hook) (response : Nat) : DispatchExec γ Unit := do
  let _ ← within (phase (.hook hook) (pluginHandle call hook response))
  exceptionHandle call fuel response

def routePhase (response : Nat) : DispatchExec γ Unit := do
  let routed ← within (phase .route (dispatcherRoute call))
  if routed then pure ()
  else
    within (triggerError call .routeFailed (lit "Routing request failed"))
    within (exceptionHandleNoret call fuel response)
    Run.stop .null

def handlePhase (response view : Nat) : DispatchExec γ Unit := do
  let handled ← within (phase .handle (handle call response view fuel))
  if handled then pure ()
  else
    exceptionHandle call fuel response
    Run.stop .null

/-- One turn of the dispatch loop. -/
def dispatchTurn (response view : Nat) : DispatchExec γ Unit := do
  hookPhase call fuel .preDispatch response
  handlePhase call fuel response view
  within fixDefault
  hookPhase call fuel .postDispatch response

/-- The dispatch loop. The argument is what `nesting` holds once the turn has counted itself down;
the result is what it holds when the loop is left. -/
def dispatchLoop (response view : Nat) : Nat → DispatchExec γ Nat
  | 0 => do
    dispatchTurn call fuel response view
    pure 0
  | left + 1 => do
    dispatchTurn call fuel response view
    let request ← within getRequest
    if request.dispatched then pure (left + 1) else dispatchLoop response view left

/-- `nesting` after the first `--nesting`: a 32-bit unsigned counter. -/
@[irreducible] def firstLeft (forwardLimit : Int) : Nat :=
  ((forwardLimit % 2 ^ 32).toNat + (2 ^ 32 - 1)) % 2 ^ 32

/-- The request is routed, unless it was before. -/
def routeRequest (response : Nat) : DispatchExec γ Unit := do
  let request ← within getRequest
  if request.routed then within fixDefault
  else
    hookPhase call fuel .routerStartup response
    routePhase call fuel response
    within fixDefault
    hookPhase call fuel .routerShutdown response
    within (updateRequest fun request => { request with routed := true })

/-- The end of a dispatch whose loop was left with this much `nesting`. -/
def finishDispatch (response left : Nat) : DispatchExec γ Nat := do
  let php ← within getPhp
  if left = 0 ∧ php.request.dispatched = false then
    within (record (.nestingError php.globals.forwardLimit))
    within (triggerError call .dispatchFailed
      (lit "The max dispatch nesting " ++ longText php.globals.forwardLimit ++
        lit " was reached"))
    within (exceptionHandleNoret call fuel response)
    Run.stop .null
  else
    if php.dispatcher.returnResponse then pure response
    else
      within (responseSend response)
      within (responseClearBody response)
      pure response

/-- `yaf_dispatcher_dispatch`. -/
def dispatchBody : DispatchExec γ Nat := do
  let start ← within getPhp
  let response ← within responseInstance
  if start.dispatcher.requestIsObject then
    routeRequest call fuel response
    hookPhase call fuel .dispatchLoopStartup response
    let view ← within dispatcherInitView
    let left ← dispatchLoop call fuel response view (firstLeft start.globals.forwardLimit)
    hookPhase call fuel .dispatchLoopShutdown response
    finishDispatch call fuel response left
  else
    within (triggerError call .typeError (lit "Expect a Yaf_Request_Abstract instance"))
    Run.stop .null

/-- A whole dispatch, one level deeper than the code that calls it: the response, or NULL. -/
def dispatch : Exec γ (Option Nat) := fun w =>
  match dispatchBody call fuel { w with depth := w.depth + 1 } with
  | (.ok response, w') => (.ok (some response), { w' with depth := w.depth })
  | (.error .null, w') => (.ok none, { w' with depth := w.depth })
  | (.error (.stop s), w') => (.error s, { w' with depth := w.depth })

end

/-- A piece of PHP code: it changes what it can reach, dispatches, and returns or exits. -/
inductive Script (γ : Type) where
  | done (ret : Option Zval)
  | exit
  | step (f : Php γ → Php γ) (next : Php γ → Script γ)
  | dispatch (next : Option Nat → Script γ)

/-- PHP code runs, with this for the dispatches it makes. -/
def runScript {γ : Type} (nested : Exec γ (Option Nat)) : Script γ → Exec γ (Option Zval)
  | .done ret => pure ret
  | .exit => Run.stop .exit
  | .step f next => do
    updatePhp f
    let php ← getPhp
    runScript nested (next php)
  | .dispatch next => do
    let response ← nested
    runScript nested (next response)

/-- The calls of an application, with room on the stack for this many dispatches one in another. -/
def callAt {γ : Type} (app : Site → Script γ) (fuel : Nat) : Nat → Calls γ
  | 0, site => runScript (Run.stop .stack) (app site)
  | room + 1, site => runScript (dispatch (callAt app fuel room) fuel) (app site)

/-- One PHP request: its main script runs from start to end. -/
def phpRequest {γ : Type} (app : Site → Script γ) (fuel room : Nat) (main : Script γ) :
    Exec γ (Option Zval) :=
  runScript (dispatch (callAt app fuel room) fuel) main

end Yaf
