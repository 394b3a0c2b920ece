import Yaf.Dispatcher.World

namespace Yaf
open Base

/-- A run of the extension's code. -/
abbrev Exec (γ : Type) := Run (World γ) Stop

/-- How a piece of PHP code runs when it is called; a call may fail and have no result. -/
abbrev Calls (γ : Type) := Site → Exec γ (Option Zval)

section
variable {γ : Type}

def getPhp : Exec γ (Php γ) := do
  let w ← Run.get
  pure w.php

def updatePhp (f : Php γ → Php γ) : Exec γ Unit := Run.modify fun w => w.update f

def record (e : Event) : Exec γ Unit := Run.modify fun w => w.record e

def getRequest : Exec γ Request := do
  let php ← getPhp
  pure php.request

def updateRequest (f : Request → Request) : Exec γ Unit :=
  updatePhp fun php => php.setRequest (f php.request)

def setDispatched (flag : Bool) : Exec γ Unit :=
  updateRequest fun request => { request with dispatched := flag }

/-- `zend_throw_exception`: what was pending is chained behind the new exception. -/
def throwObject (message : Bytes) (code : Nat) (isException isNotfoundController : Bool) :
    Exec γ Unit :=
  updatePhp fun php =>
    { php with
      exception := some ⟨php.nextObject, message, code, isException, isNotfoundController⟩
      nextObject := php.nextObject + 1 }

variable (call : Calls γ)

/-- A call of PHP code: refused while an exception is pending, without a result when it leaves
one. -/
def userCall (site : Site) : Exec γ (Option Zval) := do
  let php ← getPhp
  if php.exception.isSome then pure none
  else
    let ret ← call site
    let php' ← getPhp
    record (.called site php.request php'.request php'.dispatcher.defaults
      php'.exception.isSome)
    if php'.exception.isSome then pure none else pure ret

def clearException : Exec γ Unit := updatePhp fun php => { php with exception := none }

/-- `zend_exception_error`: the exception is taken off and written out by its `__tostring`. What
that throws is dropped as well. -/
def exceptionError : Exec γ Unit := do
  let php ← getPhp
  match php.exception with
  | none => pure ()
  | some thrown => do
    clearException
    let _ ← userCall call (.toText thrown)
    clearException

def setErrorHandler (installed : Bool) : Exec γ Unit :=
  updatePhp fun php => { php with hasErrorHandler := installed }

/-- `php_error_docref` with `E_RECOVERABLE_ERROR`: fatal unless an error handler takes it, which is
not installed while it runs. A pending exception is over with the error. -/
def recoverableError (trigger : Trigger) : Exec γ Unit := do
  exceptionError call
  let php ← getPhp
  if php.hasErrorHandler then
    setErrorHandler false
    let ret ← userCall call (.errorHandler trigger)
    setErrorHandler true
    match ret with
    | some (.bool false) => Run.stop .exit
    | some _ => pure ()
    | none => do
      let php ← getPhp
      if php.exception.isSome then pure () else Run.stop .exit
  else Run.stop .exit

/-- `yaf_trigger_error`. -/
def triggerError (type : YafErr) (message : Bytes) : Exec γ Unit := do
  let php ← getPhp
  if php.globals.throwException then
    throwObject message type.code true (type = .notfoundController)
  else
    match php.application with
    | none => Run.stop .fault
    | some app =>
      updatePhp fun php =>
        { php with application := some { app with lastError := some ⟨type, message⟩ } }
      recoverableError call ⟨type, message⟩

/-- `yaf_loader_import`. A script that does not compile leaves a parse error, which is not an
`Exception`. -/
def loaderImport (path : Bytes) : Exec γ Bool := do
  let php ← getPhp
  match php.files (cstr path) with
  | .missing => pure false
  | .broken => do
    throwObject (lit "syntax error") 0 false false
    pure false
  | .script => do
    let _ ← userCall call (.script path)
    pure true

/-- `object_init_ex`. An abstract class leaves no object, and the caller goes on without one. -/
def objectInit (ce : ClassEntry) : Exec γ Nat := do
  if ce.isAbstract then Run.stop .fault
  else
    let php ← getPhp
    updatePhp fun php =>
      { php with
        objects := fun o => if o = php.nextObject then ce.properties else php.objects o
        nextObject := php.nextObject + 1 }
    pure php.nextObject

def setProperty (object : Nat) (name : Bytes) (value : Zval) : Exec γ Unit :=
  updatePhp fun php => php.setProperty object name value

/-- `zend_read_property`, with nothing for the uninitialized value. -/
def readProperty (object : Nat) (name : Bytes) : Exec γ (Option Zval) := do
  let php ← getPhp
  pure (Table.find? (php.objects object) name)

/-- `yaf_response_instance`. -/
def responseInstance : Exec γ Nat := do
  let php ← getPhp
  updatePhp fun php =>
    { php with
      bodies := fun o => if o = php.nextObject then [] else php.bodies o
      nextObject := php.nextObject + 1 }
  pure php.nextObject

/-- `yaf_response_alter_body` with `YAF_RESPONSE_APPEND` on the default segment. -/
def responseAppend (response : Nat) (body : Bytes) : Exec γ Unit :=
  if body = [] then pure ()
  else
    updatePhp fun php =>
      let old := match Table.find? (php.bodies response) (.name (lit "content")) with
        | some (.string s) => s
        | _ => []
      { php with bodies := fun o =>
          if o = response then
            Table.update (php.bodies response) (.name (lit "content")) (.string (old ++ body))
          else php.bodies o }

/-- `yaf_response_send` writes the segments out. -/
def responseSend (response : Nat) : Exec γ Unit :=
  updatePhp fun php =>
    { php with output := php.output ++ (php.bodies response).flatMap fun p =>
        match p.2 with
        | .string s => s
        | _ => [] }

def responseClearBody (response : Nat) : Exec γ Unit :=
  updatePhp fun php =>
    { php with bodies := fun o => if o = response then [] else php.bodies o }

/-- `yaf_dispatcher_init_view`, without a templates directory: the simple view is always made. -/
def dispatcherInitView : Exec γ Nat := do
  let php ← getPhp
  match php.dispatcher.view with
  | some view => pure view
  | none => do
    updatePhp fun php =>
      { php with
        dispatcher := { php.dispatcher with view := some php.nextObject }
        nextObject := php.nextObject + 1 }
    pure php.nextObject

def fixDefault : Exec γ Unit :=
  updatePhp fun php =>
    php.setRequest (dispatcherFixDefault php.dispatcher.defaults php.request)

end

/-- `Yaf_Controller_Abstract::forward` on a request. A string or an array in the last place decides
which names the arguments are; they are stored as they come. -/
def controllerForward (request : Request) : List Zval → Option Request
  | [action] =>
    match action with
    | .string _ => some { request with action := action, dispatched := false }
    | _ => none
  | [controller, action] =>
    match action with
    | .string _ =>
      some { request with controller := controller, action := action, dispatched := false }
    | .array args =>
      some { request with
        action := controller
        params := Table.merge request.params args
        dispatched := false }
    | _ => none
  | [module, controller, action] =>
    match action with
    | .string _ =>
      some { request with
        module := module
        controller := controller
        action := action
        dispatched := false }
    | .array args =>
      some { request with
        controller := module
        action := controller
        params := Table.merge request.params args
        dispatched := false }
    | _ => none
  | [module, controller, action, args] =>
    match args with
    | .array args =>
      some { request with
        module := module
        controller := controller
        action := action
        params := Table.merge request.params args
        dispatched := false }
    | _ => none
  | _ => none

end Yaf
