import Yaf.Base.Run
import Yaf.Dispatcher.Names
import Yaf.Dispatcher.ScriptPath
import Yaf.Exception

namespace Yaf
open Base

/-- The plugin hooks of one dispatch. -/
inductive Hook where
  | routerStartup
  | routerShutdown
  | dispatchLoopStartup
  | preDispatch
  | postDispatch
  | dispatchLoopShutdown
  deriving DecidableEq, Repr

/-- The method a hook looks up. -/
def Hook.method : Hook → Bytes
  | routerStartup => lit "routerstartup"
  | routerShutdown => lit "routershutdown"
  | dispatchLoopStartup => lit "dispatchloopstartup"
  | preDispatch => lit "predispatch"
  | postDispatch => lit "postdispatch"
  | dispatchLoopShutdown => lit "dispatchloopshutdown"

structure Plugin where
  object : Nat
  functionTable : List Bytes
  deriving DecidableEq, Repr

/-- A class of the class table. A method is listed with the names of its parameters. -/
structure ClassEntry where
  name : Bytes
  isAbstract : Bool
  isController : Bool
  isAction : Bool
  functionTable : Table Bytes (List Bytes)
  properties : Table Bytes Zval

/-- A thrown object, by what is asked about its class. -/
structure Thrown where
  object : Nat
  message : Bytes
  code : Nat
  isException : Bool
  isNotfoundController : Bool
  deriving DecidableEq, Repr

/-- A route of the router; a user-defined one is called. -/
inductive RouteObject where
  | builtin (route : BuiltinRoute)
  | user (object : Nat)

structure Router where
  routes : Table Key RouteObject
  currentRoute : Option Key

/-- The `_router` property of the dispatcher. -/
inductive RouterSlot where
  | null
  | builtin (router : Router)
  | user (object : Nat)

structure Dispatcher where
  defaults : DefaultNames
  /-- The request in the `_request` slot, when there is an object in it. -/
  request : Nat
  requestIsObject : Bool
  plugins : Option (List Plugin)
  router : RouterSlot
  view : Option Nat
  autoRender : Bool
  returnResponse : Bool
  instantlyFlush : Bool

/-- The module globals the dispatcher reads and writes. -/
structure Globals where
  directory : Option Bytes
  ext : Bytes
  lowcasePath : Bool
  nameSuffix : Bool
  nameSeparator : Bytes
  actionPrefer : Bool
  stCompatible : Bool
  forwardLimit : Int
  throwException : Bool
  catchException : Bool
  viewDirectory : Option Bytes

structure Application where
  modules : List Bytes
  lastError : Option Trigger

/-- What an import finds at a path. -/
inductive ScriptFile where
  | missing
  | broken
  | script
  deriving DecidableEq, Repr

/-- The state PHP code can touch. `γ` is the application's own. -/
structure Php (γ : Type) where
  globals : Globals
  application : Option Application
  dispatcher : Dispatcher
  requests : Nat → Request
  objects : Nat → Table Bytes Zval
  bodies : Nat → Table Key Zval
  nextObject : Nat
  classTable : Table Bytes ClassEntry
  files : Bytes → ScriptFile
  strerror : Bytes
  hasErrorHandler : Bool
  get : Table Key Zval
  pregMatch : PregMatch
  output : Bytes
  exception : Option Thrown
  user : γ

namespace Php
variable {γ : Type}

def request (php : Php γ) : Request := php.requests php.dispatcher.request

def setRequest (php : Php γ) (request : Request) : Php γ :=
  { php with requests := fun r => if r = php.dispatcher.request then request else php.requests r }

def modules (php : Php γ) : List Bytes := (php.application.map Application.modules).getD []

def routeEnv (php : Php γ) : RouteEnv :=
  ⟨php.modules, php.globals.actionPrefer, php.get, php.pregMatch⟩

def setProperty (php : Php γ) (object : Nat) (name : Bytes) (value : Zval) : Php γ :=
  { php with objects := fun o =>
      if o = object then Table.update (php.objects object) name value else php.objects o }

@[simp] theorem request_setRequest (php : Php γ) (r : Request) :
    (php.setRequest r).request = r := by
  simp [request, setRequest]

theorem setRequest_setRequest (php : Php γ) (r r' : Request) :
    (php.setRequest r).setRequest r' = php.setRequest r' := by
  simp only [setRequest]
  congr
  funext i
  split <;> rfl

theorem setRequest_request (php : Php γ) : php.setRequest php.request = php := by
  have h : (fun r => if r = php.dispatcher.request then php.request else php.requests r) =
      php.requests := by
    funext r
    split
    · rename_i hr
      rw [hr]
      rfl
    · rfl
  rw [setRequest, h]

end Php

/-- A piece of PHP code the dispatcher runs. -/
inductive Site where
  | hook (plugin : Plugin) (hook : Hook) (response : Nat)
  | route (key : Key) (object : Nat)
  | router (object : Nat)
  | script (path : Bytes)
  | method (ce : ClassEntry) (this : Nat) (name : Bytes) (args : List Zval)
  | errorHandler (trigger : Trigger)
  | toText (thrown : Thrown)

inductive Phase where
  | hook (hook : Hook)
  | route
  | handle
  deriving DecidableEq, Repr

/-- How a phase ended: what it returned, and the state it left. -/
structure PhaseEnd where
  ok : Bool
  pending : Bool
  dispatched : Bool
  deriving DecidableEq, Repr

/-- A phase of a dispatch, with its end unless the process ended in it. -/
structure PhaseRun where
  phase : Phase
  ended : Option PhaseEnd
  deriving DecidableEq, Repr

/-- What `yaf_dispatcher_handle` finds when it is entered. -/
structure HandleEntry where
  request : Nat
  names : Names
  directory : Option Bytes
  modules : List Bytes
  defaultModule : Bytes

/-- What a run leaves in its log. -/
inductive Event where
  | phase (run : PhaseRun)
  | called (site : Site) (before after : Request) (defaults : DefaultNames) (threw : Bool)
  | enterHandle (entry : HandleEntry)
  | openScript (entry : HandleEntry) (directory path : Bytes)
  | newController (entry : HandleEntry) (name : Bytes)
  | handlerBody (names : Names)
  | handlerDispatch (failed : Option Thrown) (names : Names) (defaultModule : Bytes)
  | nestingError (limit : Int)

/-- The whole state. PHP code reaches the first field only. -/
structure World (γ : Type) where
  php : Php γ
  inException : Bool
  depth : Nat
  log : List (Nat × Event)

/-- Why a run ends before its end: `exit` and fatal errors, an undefined read of the extension, or
no stack left. -/
inductive Stop where
  | exit
  | fault
  | stack
  deriving DecidableEq, Repr

namespace World
variable {γ : Type}

def pending (w : World γ) : Bool := w.php.exception.isSome

def dispatched (w : World γ) : Bool := w.php.request.dispatched

def record (w : World γ) (e : Event) : World γ := { w with log := w.log ++ [(w.depth, e)] }

def update (w : World γ) (f : Php γ → Php γ) : World γ := { w with php := f w.php }

/-- A PHP request starts with the flag down and an empty log. -/
def start (php : Php γ) : World γ := ⟨php, false, 0, []⟩

end World

end Yaf
