import Yaf.Base.Slots
import Yaf.Config.Simple
import Yaf.Response

namespace Yaf
open Base

/-- A value of the engine other than an array. -/
inductive Scalar where
  | null
  | bool (b : Bool)
  | long (n : Int)
  | double (bits : UInt64)
  | string (s : Bytes)
  | object (handle : Nat)
  deriving DecidableEq, Repr

/-- Who holds a value: a variable, the array property of an object, or the stack of a statement. -/
inductive Holder where
  | var (x : Nat)
  | property (handle : Nat)
  | temp
  deriving DecidableEq, Repr

inductive Kind where
  | config (readonly : Bool)
  | request
  | response
  deriving DecidableEq, Repr

/-- What a program sees of the engine: arrays with their counts, the objects made so far, and the
internal pointers of the arrays. -/
structure Store where
  memory : Slots Holder Key Scalar
  objects : List Kind
  pointers : Table Addr Nat

inductive Source where
  | scalar (s : Scalar)
  | var (x : Nat)
  deriving DecidableEq, Repr

inductive ConfigCall where
  | get (name : Option Bytes)
  | toArray
  | set (name : Bytes) (value : Source)
  | isset (name : Bytes)
  | offsetUnset (name : Bytes)
  | count
  | rewind
  | current
  | next
  | key
  | valid
  | readonly
  deriving DecidableEq, Repr

inductive RequestCall where
  | setParam (name : Bytes) (value : Source)
  | setParams (values : Nat)
  | getParams
  deriving DecidableEq, Repr

inductive ResponseCall where
  | alterBody (name : Option Bytes) (body : Bytes) (flag : BodyFlag)
  | clearBody (name : Bytes)
  | getBody
  deriving DecidableEq, Repr

/-- A statement of a program. The result of a call goes to a variable. -/
inductive Statement where
  | assign (x : Nat) (value : Source)
  | newArray (x : Nat)
  | write (x : Nat) (k : Key) (value : Source)
  | unset (x : Nat)
  | newConfig (values : Nat) (readonly : Option Bool)
  | newRequest (params : Option Nat)
  | newResponse
  | destroy (o : Nat)
  | config (x o : Nat) (call : ConfigCall)
  | request (x o : Nat) (call : RequestCall)
  | response (x o : Nat) (call : ResponseCall)
  deriving DecidableEq, Repr

namespace Store

def start : Store := ⟨⟨⟨[]⟩, []⟩, [], []⟩

/-- A variable that was never set is null. -/
def value (s : Store) : Source → Val Scalar
  | .scalar x => .scalar x
  | .var x => (s.memory.at? (.var x)).getD (.scalar .null)

/-- The array a holder has. -/
def table? (s : Store) (i : Holder) : Option Addr :=
  match s.memory.at? i with
  | some (.ref a) => some a
  | _ => none

def slot? (s : Store) (a : Addr) (k : Key) : Option (Val Scalar) := s.memory.heap.slot? a k

def share (s : Store) (i : Holder) (v : Val Scalar) : Store :=
  { s with memory := s.memory.share i v }

def put (s : Store) (a : Addr) (k : Key) (v : Val Scalar) : Store :=
  { s with memory := s.memory.put a k v }

def erase (s : Store) (a : Addr) (k : Key) : Store := { s with memory := s.memory.erase a k }

/-- `yaf_config_simple_instance` on a new object: the array is taken as it is. -/
def configSimpleInstance (s : Store) (values : Addr) (readonly : Bool) : Store × Nat :=
  ({ s with
      memory := s.memory.share (.property s.objects.length) (.ref values)
      objects := s.objects ++ [.config readonly] },
    s.objects.length)

/-- What a reader gives back: `yaf_config_simple_format` for an array, anything else as it is. -/
def configSimpleFormat (s : Store) (readonly : Bool) : Val Scalar → Store × Val Scalar
  | .ref pzval =>
    let (s, ret) := s.configSimpleInstance pzval readonly
    (s, .scalar (.object ret))
  | .scalar x => (s, .scalar x)

/-- The internal pointer of an array, and the entry it is on. -/
def pointer (s : Store) (a : Addr) : Nat := (Table.find? s.pointers a).getD 0

def entries (s : Store) (a : Addr) : Table Key (Val Scalar) := (s.memory.heap.table? a).getD []

def currentEntry (s : Store) (a : Addr) : Option (Key × Val Scalar) := (s.entries a)[s.pointer a]?

def keyValue : Key → Scalar
  | .index i => .long i
  | .name s => .string s

/-- The methods of `Yaf_Config_Simple` on the object `o` over the array `a`, with the result. -/
def configCall (s : Store) (o : Nat) (a : Addr) (readonly : Bool) : ConfigCall → Store × Val Scalar
  | .get none => (s, .scalar (.object o))
  | .get (some name) =>
    match s.slot? a (numericKey name) with
    | none => (s, .scalar (.bool false))
    | some pzval => s.configSimpleFormat readonly pzval
  | .toArray => (s, .ref a)
  | .set name value =>
    if readonly then (s, .scalar (.bool false))
    else (s.put a (.name name) (s.value value), .scalar (.bool true))
  | .isset name => (s, .scalar (.bool (s.slot? a (.name name)).isSome))
  | .offsetUnset name =>
    if readonly then (s, .scalar (.bool false))
    else if (s.slot? a (.name name)).isSome then (s.erase a (.name name), .scalar (.bool true))
    else (s, .scalar (.bool false))
  | .count => (s, .scalar (.long (s.entries a).length))
  | .rewind => ({ s with pointers := Table.update s.pointers a 0 }, .scalar .null)
  | .current =>
    match s.currentEntry a with
    | none => (s, .scalar (.bool false))
    | some p => s.configSimpleFormat readonly p.2
  | .next =>
    ({ s with pointers := Table.update s.pointers a (min (s.pointer a + 1) (s.entries a).length) },
      .scalar (.bool true))
  | .key =>
    match s.currentEntry a with
    | none => (s, .scalar (.bool false))
    | some p => (s, .scalar (keyValue p.1))
  | .valid => (s, .scalar (.bool (s.currentEntry a).isSome))
  | .readonly => (s, .scalar (.bool readonly))

/-- `setParam` and `getParams` on the object `o` over the array `a`. -/
def requestCall (s : Store) (o : Nat) (a : Addr) : RequestCall → Store × Val Scalar
  | .setParam name value => (s.put a (.name name) (s.value value), .scalar (.object o))
  | .setParams values =>
    match s.table? (.var values) with
    | none => (s, .scalar .null)
    | some b =>
      ({ s with memory := s.memory.copy a (s.entries b) }, .scalar (.object o))
  | .getParams => (s, .ref a)

/-- The body methods of a response. A segment that holds no string is used as one. -/
def responseCall (s : Store) (o : Nat) (a : Addr) : ResponseCall → Option (Store × Val Scalar)
  | .alterBody name body flag =>
    if body = [] then some (s, .scalar (.object o))
    else
      match s.slot? a (.name (name.getD defaultBody)) with
      | none =>
        some (s.put a (.name (name.getD defaultBody)) (.scalar (.string body)),
          .scalar (.object o))
      | some (.scalar (.string obody)) =>
        some (s.put a (.name (name.getD defaultBody)) (.scalar (.string (flag.combine obody body))),
          .scalar (.object o))
      | some _ => none
  | .clearBody name => some (s.erase a (.name name), .scalar (.object o))
  | .getBody => some (s, .ref a)

/-- One statement. `none` stands for a call on nothing or on an object of another class, and for
undefined behaviour. -/
def step (s : Store) : Statement → Option Store
  | .assign x value => some (s.share (.var x) (s.value value))
  | .newArray x => some { s with memory := s.memory.fresh (.var x) }
  | .write x k value =>
    match s.table? (.var x) with
    | none => none
    | some a =>
      let s := s.share .temp (s.value value)
      let v := s.memory.at? .temp
      some { s with memory := (s.memory.assignAt (.var x) a k (v.getD (.scalar .null))).drop .temp }
  | .unset x => some { s with memory := s.memory.drop (.var x) }
  | .newConfig values readonly =>
    match s.table? (.var values) with
    | none => some s
    | some a => some (s.configSimpleInstance a (readonly.getD false)).1
  | .newRequest none =>
    some { s with
      memory := s.memory.fresh (.property s.objects.length)
      objects := s.objects ++ [.request] }
  | .newRequest (some params) =>
    match s.table? (.var params) with
    | none => none
    | some a =>
      some { s with
        memory := s.memory.share (.property s.objects.length) (.ref a)
        objects := s.objects ++ [.request] }
  | .newResponse =>
    some { s with
      memory := s.memory.fresh (.property s.objects.length)
      objects := s.objects ++ [.response] }
  | .destroy o => some { s with memory := s.memory.drop (.property o) }
  | .config x o call =>
    match s.objects[o]?, s.table? (.property o) with
    | some (.config readonly), some a =>
      let (s, ret) := s.configCall o a readonly call
      some (s.share (.var x) ret)
    | _, _ => none
  | .request x o call =>
    match s.objects[o]?, s.table? (.property o) with
    | some .request, some a =>
      let (s, ret) := s.requestCall o a call
      some (s.share (.var x) ret)
    | _, _ => none
  | .response x o call =>
    match s.objects[o]?, s.table? (.property o) with
    | some .response, some a => do
      let (s, ret) ← s.responseCall o a call
      some (s.share (.var x) ret)
    | _, _ => none

def run (s : Store) (statements : List Statement) : Option Store := statements.foldlM step s

/-- Whether a call writes into the array `a` of its object in place. -/
def configWrites (s : Store) (a : Addr) (readonly : Bool) : ConfigCall → Bool
  | .set _ _ => !readonly
  | .offsetUnset name => !readonly && (s.slot? a (.name name)).isSome
  | _ => false

def requestWrites (s : Store) : RequestCall → Bool
  | .setParam _ _ => true
  | .setParams values => (s.table? (.var values)).isSome
  | .getParams => false

def responseWrites (s : Store) (a : Addr) : ResponseCall → Bool
  | .alterBody _ body _ => body ≠ []
  | .clearBody name => (s.slot? a (.name name)).isSome
  | .getBody => false

/-- The array a statement of the extension writes into in place. -/
def writesInto (s : Store) : Statement → Option Addr
  | .config _ o call =>
    match s.objects[o]? with
    | some (.config readonly) => (s.table? (.property o)).filter (s.configWrites · readonly call)
    | _ => none
  | .request _ o call => (s.table? (.property o)).filter fun _ => s.requestWrites call
  | .response _ o call => (s.table? (.property o)).filter (s.responseWrites · call)
  | _ => none

/-- A statement that writes in place finds its array held once. -/
def stepUnshared (s : Store) (st : Statement) : Bool :=
  (s.writesInto st).all fun a => s.memory.heap.rc a = 1

def unshared (s : Store) : List Statement → Bool
  | [] => true
  | st :: sts => s.stepUnshared st && (s.step st).all (unshared · sts)

end Store

/-- The calls that may change what their object holds. -/
def ConfigCall.changes : ConfigCall → Bool
  | .set _ _ => true
  | .offsetUnset _ => true
  | _ => false

def RequestCall.changes : RequestCall → Bool
  | .getParams => false
  | _ => true

def ResponseCall.changes : ResponseCall → Bool
  | .getBody => false
  | _ => true

/-- The holders a statement is about: what it assigns, and the object of a call that writes. -/
def Statement.touches (i : Holder) : Statement → Bool
  | .assign x _ => i = .var x
  | .newArray x => i = .var x
  | .write x _ _ => i = .var x || i = .temp
  | .unset x => i = .var x
  | .newConfig _ _ => false
  | .newRequest _ => false
  | .newResponse => false
  | .destroy o => i = .property o
  | .config x o call => i = .var x || (call.changes && i = .property o)
  | .request x o call => i = .var x || (call.changes && i = .property o)
  | .response x o call => i = .var x || (call.changes && i = .property o)

end Yaf
