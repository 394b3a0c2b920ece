import Yaf.Dispatcher.Engine

namespace Yaf
open Base

/-- The class name of a controller or an action, with its affix. -/
def affixedClass (globals : Globals) (name affix : Bytes) : Bytes :=
  if globals.nameSuffix then cstr name ++ cstr globals.nameSeparator ++ affix
  else affix ++ cstr globals.nameSeparator ++ cstr name

/-- The directory the script of an action is looked for in, in compatible mode. -/
def actionsDirectory (appDir module : Bytes) (defModule : Bool) : Bytes :=
  if defModule then cstr appDir ++ slash :: lit "actions"
  else cstr appDir ++ slash :: lit "modules" ++ slash :: cstr module ++ slash :: lit "actions"

def viewsDirectory (appDir module : Bytes) (defModule : Bool) : Bytes :=
  if defModule then cstr appDir ++ slash :: lit "views"
  else cstr appDir ++ slash :: lit "modules" ++ slash :: cstr module ++ slash :: lit "views"

def upperFirst : Bytes → Bytes
  | [] => []
  | c :: s => toUpper c :: s

/-- `yaf_dispatcher_get_call_parameters`: the slots, with those it leaves unset, and the count.
The second search is a comparison for equality again; what it ends on decides whether to go on. -/
def callParameters (params : Table Key Zval) : List Bytes → List (Option Zval) × Nat
  | [] => ([], 0)
  | name :: names =>
    match Table.find? params (.name name) with
    | some value =>
      let (slots, count) := callParameters params names
      (some value :: slots, count + 1)
    | none =>
      if params = [] then ([], 0)
      else
        let (slots, count) := callParameters params names
        (none :: slots, count)

/-- The arguments of the call: as many slots as were counted. -/
def callArguments (params : Table Key Zval) (names : List Bytes) : Option (List Zval) :=
  let (slots, count) := callParameters params names
  (slots.take count).mapM id

/-- The property decides about rendering when it is there, the dispatcher when it is not. -/
def autoRender (render : Option Zval) (dispatcher : Bool) : Bool :=
  match render with
  | none => dispatcher
  | some (.bool b) => b
  | some (.long n) => n ≠ 0
  | some _ => false

/-- The module at the entry, when it is one of the declared modules. -/
def HandleEntry.gate (entry : HandleEntry) : Option Bytes :=
  match entry.names.module.text? with
  | none => none
  | some module => if applicationIsModuleName entry.modules module then some module else none

section
variable {γ : Type} (call : Calls γ)

/-- `yaf_dispatcher_get_controller`. A class that is there already is not asked for its parent. -/
def getController (entry : HandleEntry) (appDir module controller : Bytes) (defModule : Bool) :
    Exec γ (Option ClassEntry) := do
  let php ← getPhp
  let name := affixedClass php.globals controller (lit "Controller")
  match Table.find? php.classTable (name.map toLower) with
  | some ce => pure (some ce)
  | none => do
    let directory := controllersDirectory appDir module defModule
    let path := autoloadPath php.globals.lowcasePath php.globals.ext directory controller
    record (.openScript entry directory path)
    let loaded ← loaderImport call path
    if loaded then
      let php ← getPhp
      match Table.find? php.classTable (name.map toLower) with
      | some ce =>
        if ce.isController then pure (some ce)
        else do
          triggerError call .typeError
            (lit "Controller must be an instance of Yaf_Controller_Abstract")
          pure none
      | none => do
        triggerError call .autoloadFailed
          (lit "Could not find class " ++ name ++ lit " in controller script " ++ path)
        pure none
    else do
      let php ← getPhp
      triggerError call .notfoundController
        (lit "Failed opening controller script " ++ path ++ lit ": " ++ php.strerror)
      pure none

/-- `yaf_controller_construct`. An action has no `init`. -/
def controllerConstruct (ce : ClassEntry) (self response view : Nat) : Exec γ Unit := do
  let php ← getPhp
  setProperty self (lit "_request") (.object php.dispatcher.request)
  setProperty self (lit "_response") (.object response)
  setProperty self (lit "_module") php.request.module
  setProperty self (lit "_view") (.object view)
  if !ce.isAction && (Table.find? ce.functionTable (lit "init")).isSome then
    let _ ← userCall call (.method ce self (lit "init") [])
    pure ()
  else pure ()

/-- A class that must be an action. -/
def actionClass (class_ : Bytes) (ce : ClassEntry) : Exec γ (Option ClassEntry) := do
  if ce.isAction then pure (some ce)
  else
    triggerError call .typeError
      (lit "Action " ++ class_ ++ lit " must extends from Yaf_Action_Abstract")
    pure none

/-- The first part of `yaf_dispatcher_get_action`, for a controller with an `actions` array. -/
def getMappedAction (appDir : Bytes) (controllerName : Bytes) (actionsMap : Table Key Zval)
    (action : Bytes) : Exec γ (Option ClassEntry) := do
  let php ← getPhp
  let class_ := affixedClass php.globals (upperFirst action) (lit "Action")
  match Table.find? php.classTable (class_.map toLower) with
  | some ce => actionClass call class_ ce
  | none =>
    match Table.find? actionsMap (.name action) with
    | some (.string script) => do
      let path := cstr appDir ++ slash :: cstr script
      let loaded ← loaderImport call path
      if loaded then
        let php ← getPhp
        match Table.find? php.classTable (class_.map toLower) with
        | some ce => actionClass call class_ ce
        | none => do
          triggerError call .notfoundAction
            (lit "Could not find action " ++ class_ ++ lit " in " ++ path)
          pure none
      else do
        let php ← getPhp
        triggerError call .notfoundAction
          (lit "Failed opening action script " ++ path ++ lit ": " ++ php.strerror)
        pure none
    | some _ => Run.stop .fault
    | none => do
      triggerError call .notfoundAction
        (lit "There is no method " ++ cstr action ++ lit "Action in " ++ controllerName ++
          lit "::$actions")
      pure none

/-- The second part, for compatible mode: the action has a script of its own. -/
def getCompatibleAction (appDir module : Bytes) (defModule : Bool) (action : Bytes) :
    Exec γ (Option ClassEntry) := do
  let php ← getPhp
  let actionUpper := raiseAfter (upperFirst action)
  let class_ := affixedClass php.globals actionUpper (lit "Action")
  match Table.find? php.classTable (class_.map toLower) with
  | some ce => pure (some ce)
  | none => do
    let directory := actionsDirectory appDir module defModule
    let path := autoloadPath php.globals.lowcasePath php.globals.ext directory actionUpper
    let loaded ← loaderImport call path
    if loaded then
      let php ← getPhp
      match Table.find? php.classTable (class_.map toLower) with
      | some ce =>
        if ce.isAction then pure (some ce)
        else do
          triggerError call .typeError (lit "Action must be an instance of Yaf_Action_Abstract")
          pure none
      | none => do
        triggerError call .autoloadFailed
          (lit "Could find class " ++ class_ ++ lit " in action script " ++ path)
        pure none
    else do
      let php ← getPhp
      triggerError call .notfoundAction
        (lit "Failed opening action script " ++ path ++ lit ": " ++ php.strerror)
      pure none

/-- `yaf_dispatcher_get_action`. -/
def getAction (appDir : Bytes) (ce : ClassEntry) (controller : Nat) (module : Zval)
    (defModule : Bool) (action : Bytes) : Exec γ (Option ClassEntry) := do
  let actions ← readProperty controller (lit "actions")
  match actions with
  | some (.array actionsMap) => getMappedAction call appDir ce.name actionsMap action
  | _ => do
    let php ← getPhp
    if php.globals.stCompatible then
      match module with
      | .string m => getCompatibleAction call appDir m defModule action
      | _ => if defModule then getCompatibleAction call appDir [] true action else Run.stop .fault
    else do
      triggerError call .notfoundAction
        (lit "There is no method " ++ cstr action ++ lit "Action in " ++ ce.name)
      pure none

/-- A method called with the parameters of the request it has names for. -/
def callWithParameters (ce : ClassEntry) (object : Nat) (method : Bytes) (names : List Bytes) :
    Exec γ (Option Zval) := do
  let request ← getRequest
  match callArguments request.params names with
  | none => Run.stop .fault
  | some args => userCall call (.method ce object method args)

/-- The end of `yaf_dispatcher_handle`: the executor renders or displays its view. -/
def renderAction (ce : ClassEntry) (executor : Nat) (action : Bytes) (response : Nat) :
    Exec γ Bool := do
  let render ← readProperty executor (lit "yafAutoRender")
  let php ← getPhp
  if autoRender render php.dispatcher.autoRender then
    if !php.dispatcher.instantlyFlush then
      let ret ← userCall call (.method ce executor (lit "render") [.string action])
      match ret with
      | none => pure false
      | some (.bool false) => pure false
      | some (.string body) => do
        responseAppend response body
        pure true
      | some _ => pure true
    else
      let ret ← userCall call (.method ce executor (lit "display") [.string action])
      match ret with
      | none => pure false
      | some (.bool false) => pure false
      | some _ => pure true
  else pure true

/-- An executor has run: no result fails, `false` ends without rendering. -/
def afterAction (ce : ClassEntry) (executor : Nat) (action : Bytes) (response : Nat)
    (ret : Option Zval) : Exec γ Bool :=
  match ret with
  | none => pure false
  | some (.bool false) => pure true
  | some _ => renderAction call ce executor action response

/-- The views directory is published in the globals. The module is read again: `init` may have set
it. -/
def publishViews (appDir : Bytes) (module : Zval) (defModule : Bool) : Exec γ Unit :=
  let publish (directory : Bytes) := updatePhp fun php =>
    { php with globals := { php.globals with viewDirectory := some directory } }
  match defModule, module with
  | true, _ => publish (viewsDirectory appDir [] true)
  | false, .string m => publish (viewsDirectory appDir m false)
  | false, _ => Run.stop .fault

/-- An action that is a class of its own. -/
def runActionClass (entry : HandleEntry) (ce : ClassEntry) (controller : Nat) (action : Bytes)
    (response view : Nat) : Exec γ Bool :=
  match Table.find? ce.functionTable (lit "execute") with
  | none => pure false
  | some names => do
    let executor ← objectInit ce
    controllerConstruct call ce executor response view
    let php ← getPhp
    setProperty executor (lit "_name") (php.requests entry.request).controller
    setProperty executor (lit "_controller") (.object controller)
    let ret ← callWithParameters call ce executor (lit "execute") names
    afterAction call ce executor action response ret

/-- The action of a constructed controller: a method of it or a class of its own. -/
def runAction (entry : HandleEntry) (appDir : Bytes) (ce : ClassEntry) (controller : Nat)
    (defModule : Bool) (response view : Nat) : Exec γ Bool := do
  let php ← getPhp
  let target := php.requests entry.request
  publishViews appDir target.module defModule
  setProperty controller (lit "_name") target.controller
  match php.request.action with
  | .string action =>
    let funcName := (cstr action ++ lit "action").map toLower
    match Table.find? ce.functionTable funcName with
    | some names => do
      let ret ← callWithParameters call ce controller funcName names
      afterAction call ce controller action response ret
    | none => do
      let actionCe ← getAction call appDir ce controller target.module defModule action
      match actionCe with
      | none => pure false
      | some actionCe =>
        runActionClass call entry actionCe controller action response view
  | _ => Run.stop .fault

/-- What `yaf_dispatcher_handle` goes by. -/
def handleEntry (php : Php γ) : HandleEntry where
  request := php.dispatcher.request
  names := php.request.names
  directory := php.globals.directory
  modules := php.modules
  defaultModule := php.dispatcher.defaults.module

/-- `yaf_dispatcher_handle`. It enters itself again when `init` forwarded. -/
def handle (response view : Nat) : Nat → Exec γ Bool
  | 0 => Run.stop .stack
  | fuel + 1 => do
    setDispatched true
    let php ← getPhp
    let entry := handleEntry php
    record (.enterHandle entry)
    match entry.directory with
    | none => do
      triggerError call .startupFailed (lit "Yaf_Dispatcher requires Yaf_Application" ++
        lit "(which set the application.directory) to be initialized first")
      pure false
    | some appDir =>
      match entry.names.module.text? with
      | none => do
        triggerError call .dispatchFailed (lit "Unexcepted a empty module name")
        pure false
      | some module =>
        if !applicationIsModuleName entry.modules module then do
          triggerError call .notfoundModule (lit "There is no module " ++ cstr module)
          pure false
        else
          match entry.names.controller.text? with
          | none => do
            triggerError call .dispatchFailed (lit "Unexcepted a empty controller name")
            pure false
          | some controller => do
            let defModule := entry.defaultModule == module
            let ce ← getController call entry appDir module controller defModule
            match ce with
            | none => pure false
            | some ce => do
              record (.newController entry ce.name)
              let self ← objectInit ce
              controllerConstruct call ce self response view
              let php ← getPhp
              if php.exception.isSome then pure false
              else if !php.request.dispatched then handle response view fuel
              else runAction call entry appDir ce self defModule response view

end

end Yaf
