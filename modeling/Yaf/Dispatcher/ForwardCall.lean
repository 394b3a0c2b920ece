import Yaf.Dispatcher.Engine

namespace Yaf
open Base

/-- An argument of `forward`: a value, or the very array the request has its parameters in, which
`getParams` gives out. -/
inductive ForwardArg where
  | value (v : Zval)
  | ownParams

/-- What `forward` finds: the request, whether the property of the controller holds one, whether its
parameters are an array, how many holders a counted value among them has, and whether the engine
checks the arguments against their hints, as it does unless the call comes from `call_user_func`. -/
structure ForwardState where
  request : Request
  isRequest : Bool
  paramsIsArray : Bool
  refcount : Key → Option Nat
  hinted : Bool

inductive ForwardAnswer where
  | returned (b : Bool)
  | null
  | typeError
  deriving DecidableEq

/-- How a call ends. The freed keys are those of values that are still among the parameters. -/
structure Forwarded where
  answer : ForwardAnswer
  warning : Option Bytes
  request : Request
  freed : List Key

namespace ForwardState

variable (s : ForwardState)

def zval : ForwardArg → Zval
  | .value v => v
  | .ownParams => .array s.request.params

def isString (arg : ForwardArg) : Bool := (s.zval arg).isString

def array? (arg : ForwardArg) : Option (Table Key Zval) :=
  match s.zval arg with
  | .array t => some t
  | _ => none

def refuse (warning : Option Bytes) : Option Forwarded :=
  some ⟨.returned false, warning, s.request, []⟩

/-- `zend_hash_copy` into the parameters. A value that is written over is released before the new
one is counted, also when it is the new one itself. -/
def copyParams (arg : ForwardArg) (t : Table Key Zval) : Option (Request × List Key) :=
  if s.paramsIsArray then
    some ({ s.request with params := Table.merge s.request.params t },
      match arg with
      | .value _ => []
      | .ownParams => (Table.keys t).filter fun k => s.refcount k = some 1)
  else none

/-- `yaf_request_set_dispatched`, and the answer true. -/
def accept (request : Request) (freed : List Key) : Option Forwarded :=
  some ⟨.returned true, none, { request with dispatched := false }, freed⟩

/-- The switch over the number of arguments, write by write. `none` stands for parameters that are
merged into but are no array. -/
def branch : List ForwardArg → Option Forwarded
  | [module] =>
    if s.isString module then accept { s.request with action := s.zval module } []
    else s.refuse (some (lit "Expect a string action name"))
  | [module, controller] =>
    if s.isString controller then
      let request := { s.request with controller := s.zval module }
      accept { request with action := s.zval controller } []
    else
      match s.array? controller with
      | some t => do
        let (request, freed) ← s.copyParams controller t
        accept { request with action := s.zval module } freed
      | none => s.refuse none
  | [module, controller, action] =>
    if s.isString action then
      let request := { s.request with module := s.zval module }
      let request := { request with controller := s.zval controller }
      accept { request with action := s.zval action } []
    else
      match s.array? action with
      | some t => do
        let (request, freed) ← s.copyParams action t
        let request := { request with controller := s.zval module }
        accept { request with action := s.zval controller } freed
      | none => s.refuse none
  | [module, controller, action, args] =>
    match s.array? args with
    | some t => do
      let (request, freed) ← s.copyParams args t
      let request := { request with module := s.zval module }
      let request := { request with controller := s.zval controller }
      accept { request with action := s.zval action } freed
    | none => s.refuse (some (lit "Parameters must be an array"))
  | _ => none

/-- The fourth argument is hinted to be an array or null. -/
def againstHint (args : List ForwardArg) : Bool :=
  match args[3]?.map s.zval with
  | none | some .null | some (.array _) => false
  | some _ => s.hinted

/-- `Yaf_Controller_Abstract::forward`. A wrong number of arguments is answered with null. -/
def forward (args : List ForwardArg) : Option Forwarded :=
  if s.againstHint args then some ⟨.typeError, none, s.request, []⟩
  else if args.length = 0 ∨ 4 < args.length then some ⟨.null, none, s.request, []⟩
  else if s.isRequest then s.branch args
  else s.refuse none

end ForwardState

/-- The names among the arguments: all of them, or all but an array in the last place. -/
def forwardedNames (args : List Zval) : List Zval :=
  match args.getLast? with
  | some (.array _) => args.dropLast
  | _ => args

/-- The parameters among the arguments. -/
def forwardedParams (args : List Zval) : Option (Table Key Zval) :=
  match args.getLast? with
  | some (.array t) => some t
  | _ => none

/-- An action; a controller and an action; or a module, a controller and an action. -/
def writeNames (request : Request) : List Zval → Request
  | [action] => { request with action := action }
  | [controller, action] => { request with controller := controller, action := action }
  | [module, controller, action] =>
    { request with module := module, controller := controller, action := action }
  | _ => request

/-- What an accepted call is to leave. -/
def forwardedRequest (request : Request) (args : List Zval) : Request :=
  { writeNames request (forwardedNames args) with
    params := (forwardedParams args).elim request.params (Table.merge request.params)
    dispatched := false }

/-- A call that answers false has changed nothing; one that answers true has written the names, the
parameters and the flag, and nothing else. -/
structure AllOrNothing (s : ForwardState) (args : List ForwardArg) : Prop where
  refused : ∀ f, s.forward args = some f → f.answer = .returned false →
    f.request = s.request ∧ f.freed = []
  accepted : ∀ f, s.forward args = some f → f.answer = .returned true →
    f.request = forwardedRequest s.request (args.map s.zval) ∧ f.freed = []

/-- The parameters are merged into themselves, and hold a value that nothing else holds. -/
structure MergesOwn (s : ForwardState) (args : List ForwardArg) : Prop where
  isRequest : s.isRequest = true
  paramsIsArray : s.paramsIsArray = true
  named : 2 ≤ args.length
  last : args.getLast? = some .ownParams
  once : ∃ k ∈ Table.keys s.request.params, s.refcount k = some 1

namespace ForwardState

variable {s : ForwardState} {arg : ForwardArg} {args : List ForwardArg} {f : Forwarded}
  {request : Request} {freed : List Key} {t : Table Key Zval}

/-- What the values freed by a call can be. -/
def Frees (s : ForwardState) (args : List ForwardArg) (freed : List Key) : Prop :=
  freed = [] ∨ (s.isRequest = true ∧ s.paramsIsArray = true ∧ 2 ≤ args.length ∧
    args.getLast? = some .ownParams ∧
      freed = (Table.keys s.request.params).filter fun k => s.refcount k = some 1)

theorem array?_eq_some (h : s.array? arg = some t) : s.zval arg = .array t := by
  unfold array? at h
  split at h
  · cases h
    assumption
  · cases h

theorem isString_zval (h : s.isString arg = true) : ∃ b, s.zval arg = .string b := by
  unfold isString at h
  cases hv : s.zval arg with
  | string b => exact ⟨b, rfl⟩
  | _ =>
    rw [hv] at h
    cases h

/-- The parameters are merged, when they are an array. -/
theorem copyParams_eq {copied : Request × List Key} (ha : s.array? arg = some t)
    (h : s.copyParams arg t = some copied) :
    copied.1 = { s.request with params := Table.merge s.request.params t } ∧
      s.paramsIsArray = true ∧ (copied.2 = [] ∨ arg = .ownParams ∧
        copied.2 = (Table.keys s.request.params).filter fun k => s.refcount k = some 1) := by
  unfold copyParams at h
  split at h
  · rename_i hparams
    cases h
    refine ⟨rfl, hparams, ?_⟩
    cases arg with
    | value v => exact Or.inl rfl
    | ownParams =>
      obtain rfl : s.request.params = t := Zval.array.inj (array?_eq_some ha)
      exact Or.inr ⟨rfl, rfl⟩
  · cases h

/-- What a call that answers has done. -/
structure Answered (s : ForwardState) (args : List ForwardArg) (f : Forwarded) : Prop where
  refused : f.answer = .returned false → f.request = s.request ∧ f.freed = []
  accepted : f.answer = .returned true →
    f.request = forwardedRequest s.request (args.map s.zval) ∧ Frees s args f.freed

theorem Answered.of_refuse {warning : Option Bytes} (h : s.refuse warning = some f) :
    Answered s args f := by
  cases h
  constructor
  · intro _
    exact ⟨rfl, rfl⟩
  · intro h
    cases h

theorem Answered.of_accept (h : accept request freed = some f)
    (hrequest : { request with dispatched := false } =
      forwardedRequest s.request (args.map s.zval)) (hfreed : Frees s args freed) :
    Answered s args f := by
  cases h
  constructor
  · intro h
    cases h
  · intro _
    exact ⟨hrequest, hfreed⟩

/-- The branches that merge: the array is the last argument. -/
theorem Answered.of_copy (names : List ForwardArg) (write : Request → Request)
    (hreq : s.isRequest = true) (hnames : names ≠ []) (ha : s.array? arg = some t)
    (h : (s.copyParams arg t >>= fun copied => accept (write copied.1) copied.2) = some f)
    (hwrite : { write { s.request with params := Table.merge s.request.params t } with
        dispatched := false } =
      { writeNames s.request (names.map s.zval) with
        params := Table.merge s.request.params t, dispatched := false }) :
    Answered s (names ++ [arg]) f := by
  obtain ⟨copied, hcopy, haccept⟩ := Option.bind_eq_some_iff.mp h
  obtain ⟨hcopied, hparams, hfreed⟩ := copyParams_eq ha hcopy
  rw [hcopied] at haccept
  apply Answered.of_accept haccept
  · rw [hwrite, forwardedRequest, forwardedNames, forwardedParams]
    simp [array?_eq_some ha]
  · rcases hfreed with hnone | ⟨hown, hfreed⟩
    · exact Or.inl hnone
    · refine Or.inr ⟨hreq, hparams, ?_, by simp [hown], hfreed⟩
      have hpos := List.length_pos_iff.mpr hnames
      rw [List.length_append, List.length_singleton]
      omega

theorem writeNames_params (request : Request) (names : List Zval) :
    (writeNames request names).params = request.params := by
  unfold writeNames
  split <;> rfl

/-- The branches that write names alone: a string is the last argument. -/
theorem Answered.of_names (names : List ForwardArg) {b : Bytes} (hb : s.zval arg = .string b)
    (h : accept request [] = some f)
    (hwrite : { request with dispatched := false } =
      { writeNames s.request ((names ++ [arg]).map s.zval) with dispatched := false }) :
    Answered s (names ++ [arg]) f := by
  apply Answered.of_accept h _ (Or.inl rfl)
  rw [hwrite, forwardedRequest, forwardedNames, forwardedParams]
  simp [hb, writeNames_params]

/-- A call with one to four arguments that answers. -/
theorem branch_answered (hreq : s.isRequest = true) (h : s.branch args = some f) :
    Answered s args f := by
  unfold branch at h
  split at h
  · rename_i module
    split at h
    · rename_i hstring
      obtain ⟨b, hb⟩ := isString_zval hstring
      exact Answered.of_names [] hb h rfl
    · exact Answered.of_refuse h
  · rename_i module controller
    split at h
    · rename_i hstring
      obtain ⟨b, hb⟩ := isString_zval hstring
      exact Answered.of_names [module] hb h rfl
    · split at h
      · rename_i ha
        exact Answered.of_copy [module] (fun request => { request with action := s.zval module })
          hreq (by simp) ha h rfl
      · exact Answered.of_refuse h
  · rename_i module controller action
    split at h
    · rename_i hstring
      obtain ⟨b, hb⟩ := isString_zval hstring
      exact Answered.of_names [module, controller] hb h rfl
    · split at h
      · rename_i ha
        exact Answered.of_copy [module, controller] (fun request =>
          { request with controller := s.zval module, action := s.zval controller })
          hreq (by simp) ha h rfl
      · exact Answered.of_refuse h
  · rename_i module controller action args
    split at h
    · rename_i ha
      exact Answered.of_copy [module, controller, action] (fun request =>
        { request with
          module := s.zval module
          controller := s.zval controller
          action := s.zval action })
        hreq (by simp) ha h rfl
    · exact Answered.of_refuse h
  · cases h

theorem forward_answered (hpos : 0 < args.length) (hlen : args.length ≤ 4)
    (h : s.forward args = some f) : Answered s args f := by
  rw [forward] at h
  split at h
  · cases h
    constructor <;> exact fun h => nomatch h
  · rw [if_neg (by omega)] at h
    split at h
    · rename_i hreq
      exact branch_answered hreq h
    · exact Answered.of_refuse h

/-- A call with parameters of the request in the last place passes the hint. -/
theorem againstHint_own (names : List ForwardArg) (hlen : names.length ≤ 3) :
    s.againstHint (names ++ [.ownParams]) = false := by
  unfold againstHint
  by_cases hthree : names.length = 3
  · have hlast : (names ++ [ForwardArg.ownParams])[3]? = some .ownParams := by
      rw [← hthree, List.getElem?_concat_length]
    rw [hlast]
    rfl
  · have hnone : (names ++ [ForwardArg.ownParams])[3]? = none := by
      rw [List.getElem?_eq_none_iff, List.length_append, List.length_singleton]
      omega
    rw [hnone]
    rfl

theorem forward_eq_branch (hhint : s.againstHint args = false) (hpos : 0 < args.length)
    (hlen : args.length ≤ 4) (hreq : s.isRequest = true) : s.forward args = s.branch args := by
  rw [forward, hhint, if_neg Bool.false_ne_true, if_neg (by omega), if_pos hreq]

/-- What a dispatch takes a call of `forward` for: the request as it is left, or no forward. -/
theorem controllerForward_eq (hparams : s.paramsIsArray = true) :
    controllerForward s.request (args.map s.zval) =
      (s.branch args).bind fun f => if f.answer = .returned true then some f.request else none := by
  unfold branch
  split
  · rename_i module
    cases hv : s.zval module <;>
      simp [controllerForward, isString, Zval.isString, accept, refuse, hv]
  · rename_i module controller
    cases hv : s.zval controller <;>
      simp [controllerForward, isString, Zval.isString, array?, copyParams, accept, refuse, hparams,
        hv]
  · rename_i module controller action
    cases hv : s.zval action <;>
      simp [controllerForward, isString, Zval.isString, array?, copyParams, accept, refuse, hparams,
        hv]
  · rename_i module controller action args
    cases hv : s.zval args <;>
      simp [controllerForward, array?, copyParams, accept, refuse, hparams, hv]
  · rename_i hone htwo hthree hfour
    rcases args with _ | ⟨a, _ | ⟨b, _ | ⟨c, _ | ⟨d, _ | ⟨e, rest⟩⟩⟩⟩⟩
    · rfl
    · exact (hone a rfl).elim
    · exact (htwo a b rfl).elim
    · exact (hthree a b c rfl).elim
    · exact (hfour a b c d rfl).elim
    · rfl

/-- The branches that take the parameters the request itself has. -/
theorem branch_own (hparams : s.paramsIsArray = true) (names : List ForwardArg)
    (hpos : 0 < names.length) (hlen : names.length ≤ 3) :
    ∃ request, s.branch (names ++ [.ownParams]) = accept request
      ((Table.keys s.request.params).filter fun k => s.refcount k = some 1) := by
  have ha : s.array? .ownParams = some s.request.params := rfl
  have hcopy : s.copyParams .ownParams s.request.params =
      some ({ s.request with params := Table.merge s.request.params s.request.params },
        (Table.keys s.request.params).filter fun k => s.refcount k = some 1) := if_pos hparams
  obtain ⟨a, rest, rfl⟩ := List.exists_cons_of_length_pos hpos
  cases rest with
  | nil =>
    change ∃ request, (s.copyParams _ _ >>= _) = _
    rw [hcopy]
    exact ⟨_, rfl⟩
  | cons b rest =>
    cases rest with
    | nil =>
      change ∃ request, (s.copyParams _ _ >>= _) = _
      rw [hcopy]
      exact ⟨_, rfl⟩
    | cons c rest =>
      obtain rfl : rest = [] := by
        apply List.eq_nil_of_length_eq_zero
        simp only [List.length_cons] at hlen
        omega
      change ∃ request, (s.copyParams _ _ >>= _) = _
      rw [hcopy]
      exact ⟨_, rfl⟩

end ForwardState

/-- `forward` is all or nothing exactly when it does not merge the parameters of the request into
themselves while they hold a value alone. -/
theorem forward_all_or_nothing_iff (s : ForwardState) (args : List ForwardArg)
    (hpos : 0 < args.length) (hlen : args.length ≤ 4) :
    AllOrNothing s args ↔ ¬MergesOwn s args := by
  constructor
  · intro h hown
    obtain ⟨names, rfl⟩ : ∃ names, args = names ++ [.ownParams] :=
      List.getLast?_eq_some_iff.mp hown.last
    have hnamed := hown.named
    rw [List.length_append, List.length_singleton] at hnamed
    have hthree : names.length ≤ 3 := by
      rw [List.length_append, List.length_singleton] at hlen
      omega
    have hforward := ForwardState.forward_eq_branch (ForwardState.againstHint_own names hthree) hpos
      hlen hown.isRequest
    obtain ⟨request, hbranch⟩ :=
      ForwardState.branch_own hown.paramsIsArray names (by omega) hthree
    rw [hbranch] at hforward
    obtain ⟨k, hk, honce⟩ := hown.once
    have hfreed : ((Table.keys s.request.params).filter fun k => s.refcount k = some 1) = [] :=
      (h.accepted _ hforward rfl).2
    have hmem : k ∈ (Table.keys s.request.params).filter fun k => s.refcount k = some 1 :=
      List.mem_filter.mpr ⟨hk, by simpa using honce⟩
    rw [hfreed] at hmem
    cases hmem
  · intro hnot
    constructor
    · intro f hf hanswer
      exact (ForwardState.forward_answered hpos hlen hf).refused hanswer
    · intro f hf hanswer
      obtain ⟨hrequest, hfrees⟩ := (ForwardState.forward_answered hpos hlen hf).accepted hanswer
      refine ⟨hrequest, ?_⟩
      rcases hfrees with hnone | ⟨hreq, hparams, hnamed, hlast, hfreed⟩
      · exact hnone
      · rw [hfreed]
        apply List.filter_eq_nil_iff.mpr
        intro k hk honce
        exact hnot ⟨hreq, hparams, hnamed, hlast, k, hk, by simpa using honce⟩

/-- A request with a parameter whose text only its parameters hold. -/
def forwardSample : ForwardState where
  request := { freshRequest (lit "/") with params := [(.name (lit "id"), .string (lit "12"))] }
  isRequest := true
  paramsIsArray := true
  refcount := fun _ => some 1
  hinted := true

theorem forward_all_or_nothing_sample :
    AllOrNothing forwardSample [.value (.string (lit "edit")), .value (.array [])] :=
  (forward_all_or_nothing_iff _ _ (by decide) (by decide)).mpr fun h => by
    have hlast := h.last
    cases hlast

/-- Forwarding with the parameters of the request: the text is freed and stays among them. -/
theorem own_params_freed :
    forwardSample.forward [.value (.string (lit "edit")), .ownParams] =
        some ⟨.returned true, none, forwardedRequest forwardSample.request
          [.string (lit "edit"), .array forwardSample.request.params], [.name (lit "id")]⟩ ∧
      ¬AllOrNothing forwardSample [.value (.string (lit "edit")), .ownParams] := by
  have hforward : forwardSample.forward [.value (.string (lit "edit")), .ownParams] =
      some ⟨.returned true, none, forwardedRequest forwardSample.request
        [.string (lit "edit"), .array forwardSample.request.params], [.name (lit "id")]⟩ := rfl
  refine ⟨hforward, ?_⟩
  intro h
  have hfreed := (h.accepted _ hforward rfl).2
  cases hfreed

end Yaf
