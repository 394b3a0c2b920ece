import Yaf.Php.Bytes

namespace Yaf

/-- The error types of the extension; each names one built-in exception class. -/
inductive YafErr where
  | startupFailed
  | routeFailed
  | dispatchFailed
  | notfoundModule
  | notfoundController
  | notfoundAction
  | notfoundView
  | callFailed
  | autoloadFailed
  | typeError
  deriving DecidableEq, Repr

def YafErr.code : YafErr → Nat
  | startupFailed => 512
  | routeFailed => 513
  | dispatchFailed => 514
  | notfoundModule => 515
  | notfoundController => 516
  | notfoundAction => 517
  | notfoundView => 518
  | callFailed => 519
  | autoloadFailed => 520
  | typeError => 521

/-- What `yaf_trigger_error` is called with. -/
structure Trigger where
  type : YafErr
  message : Bytes
  deriving DecidableEq, Repr

/-- How the work of some code ends. `halted` is a request that is over: `exit`, a fatal error, or a
name read through a null pointer. `unfinished` is work that is still going on. -/
inductive Ending (ε : Type) where
  | finished
  | thrown (e : ε)
  | halted
  | unfinished
  deriving DecidableEq, Repr

end Yaf
