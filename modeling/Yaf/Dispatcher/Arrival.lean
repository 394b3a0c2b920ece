import Yaf.Dispatcher.Arguments
import Yaf.Dispatcher.Link
import Yaf.Route.NamedPath

namespace Yaf
open Base Base.Run

variable {γ : Type}

/-- A call of user code, with what it left in the log and, where it returned, its own mark. -/
def CallLogged (call : Calls γ) (site : Site) (w : World γ) (log : List (Nat × Event)) : Prop :=
  (call site w).2.log <+: log ∧ ∀ ret w', call site w = (.ok ret, w') →
    w'.log ++ [(w'.depth,
      .called site w.php.request w'.php.request w'.php.dispatcher.defaults w'.pending)] <+:
      log

/-- The log begins with the one of `w₀`, then phases, then a handle call for the names of `r` that
makes a controller of this class, and the first user code that runs is this method of it, with the
names and the parameters of `r` in the request. -/
def CallsFirst (call : Calls γ) (w₀ : World γ) (r : Request) (ce : ClassEntry) (method : Bytes)
    (args : List Zval) (log : List (Nat × Event)) : Prop :=
  ∃ es self w₁, (∀ e ∈ es, ∃ run, e = (w₀.depth, .phase run)) ∧
    w₁.log = w₀.log ++ es ++ [(w₀.depth, .enterHandle (w₀.php.entryFor r.names)),
      (w₀.depth, .newController (w₀.php.entryFor r.names) ce.name)] ∧
    w₁.depth = w₀.depth ∧ w₁.php.request.names = r.names ∧ w₁.php.request.params = r.params ∧
    CallLogged call (.method ce self method args) w₁ log

/-- Between the two nothing happens that user code could tell, or the log. -/
structure Undisturbed (w w' : World γ) : Prop where
  log : w'.log = w.log
  depth : w'.depth = w.depth
  exception : w'.php.exception = w.php.exception
  requests : w'.php.requests = w.php.requests
  slot : w'.php.dispatcher.request = w.php.dispatcher.request

namespace Undisturbed
variable {call : Calls γ} {w w' w'' : World γ}

theorem trans (h : Undisturbed w w') (h' : Undisturbed w' w'') : Undisturbed w w'' :=
  ⟨h'.log.trans h.log, h'.depth.trans h.depth, h'.exception.trans h.exception,
    h'.requests.trans h.requests, h'.slot.trans h.slot⟩

theorem request (h : Undisturbed w w') : w'.php.request = w.php.request := by
  unfold Php.request
  rw [h.requests, h.slot]

theorem objectInit {ce : ClassEntry} (hce : ce.isAbstract = false) :
    Meets (Yaf.objectInit ce) w (fun _ w' => Undisturbed w w') fun _ _ => False := by
  unfold Yaf.objectInit
  rw [hce, if_neg Bool.false_ne_true]
  exact ⟨rfl, rfl, rfl, rfl, rfl⟩

/-- Without an `init` a controller is constructed by setting properties. -/
theorem construct {ce : ClassEntry} (hinit : Table.find? ce.functionTable (lit "init") = none)
    (self response view : Nat) :
    Meets (controllerConstruct call ce self response view) w (fun _ w' => Undisturbed w w')
      fun _ _ => False := by
  unfold controllerConstruct
  rw [hinit, Option.isSome_none, Bool.and_false]
  exact ⟨rfl, rfl, rfl, rfl, rfl⟩

theorem announce {made : Made} {module : Bytes}
    (hmodule : (w.php.requests made.entry.request).module = .string module) :
    Meets (Yaf.announce made) w (fun _ w' => Undisturbed w w') fun _ _ => False := by
  unfold Yaf.announce
  rw [meets_read]
  dsimp only
  rw [hmodule]
  cases made.defModule with
  | true => exact ⟨rfl, rfl, rfl, rfl, rfl⟩
  | false => exact ⟨rfl, rfl, rfl, rfl, rfl⟩

end Undisturbed

section
variable {call : Calls γ} {fuel : Nat} {w₀ w : World γ} {r : Request} {ce : ClassEntry}
  {appDir module controller action method : Bytes} {names : List Bytes} {args : List Zval}

theorem CallLogged.mono {site : Site} {log log' : List (Nat × Event)}
    (h : CallLogged call site w log) (hlog : log <+: log') : CallLogged call site w log' :=
  ⟨h.1.trans hlog, fun ret w' hr => (h.2 ret w' hr).trans hlog⟩

/-- A call that is not refused is made, and marked when it returns. -/
theorem userCall_logged (hcalm : w.php.exception = none) (site : Site) :
    CallLogged call site w (userCall call site w).2.log := by
  have hcall : userCall call site w = (call site >>= fun ret => getPhp >>= fun php' =>
      Yaf.record (.called site w.php.request php'.request php'.dispatcher.defaults
        php'.exception.isSome) >>= fun _ =>
        if php'.exception.isSome then pure none else pure ret) w := by
    unfold userCall
    rw [read_run, hcalm]
    rfl
  rw [hcall]
  cases hr : call site w with
  | mk res w' =>
    cases res with
    | ok ret =>
      have hmark : w'.log ++ [(w'.depth,
          .called site w.php.request w'.php.request w'.php.dispatcher.defaults w'.pending)] <+:
          ((call site >>= fun ret => getPhp >>= fun php' =>
            Yaf.record (.called site w.php.request php'.request php'.dispatcher.defaults
        php'.exception.isSome) >>=
              fun _ => if php'.exception.isSome then pure none else pure ret) w).2.log := by
        rw [bind_of_ok hr, read_run]
        apply grows_record
        split <;> exact fun w => List.prefix_rfl
      refine ⟨?_, ?_⟩
      · rw [hr]
        exact (List.prefix_append _ _).trans hmark
      · intro ret' w'' hr'
        rw [hr] at hr'
        cases hr'
        exact hmark
    | error e =>
      rw [bind_of_error hr]
      refine ⟨?_, ?_⟩
      · have hlog : (call site w).2.log = w'.log := congrArg (fun res => res.2.log) hr
        exact ⟨[], (List.append_nil _).trans hlog⟩
      · intro ret' w'' hr'
        rw [hr] at hr'
        cases hr'

/-- The executor is called with what the parameters of the request give its own. -/
theorem callExecutor_logged (hcalm : w.php.exception = none)
    (hargs : callArguments w.php.request.params names = some args)
    (made : Made) (executor : Nat) :
    CallLogged call (.method ce executor method args) w
      (callExecutor call made ce executor method action names w).2.log := by
  have t := logGrows_trail (γ := γ)
  have hcall : callWithParameters call ce executor method names w =
      userCall call (.method ce executor method args) w := by
    have hrequest : getRequest w = (.ok w.php.request, w) := rfl
    unfold callWithParameters
    rw [bind_of_ok hrequest]
    simp only [hargs]
  unfold callExecutor
  rw [read_run]
  refine (userCall_logged hcalm (.method ce executor method args)).mono ?_
  rw [← hcall]
  exact grows_first List.prefix_rfl fun _ => t.read fun _ => t.pure _

/-- What a class has to be for its method to be called first of all: it can be made, has no `init`,
and lists the method. -/
structure Callable (ce : ClassEntry) (method : Bytes) (names : List Bytes) : Prop where
  concrete : ce.isAbstract = false
  init : Table.find? ce.functionTable (lit "init") = none
  method : Table.find? ce.functionTable method = some names

/-- A controller whose class is there is made without any user code. -/
theorem makeController_found (hl : LinkTarget w.php w.php.request.names appDir module controller)
    (hclass : w.php.controllerClass controller = some ce) (hce : Callable ce method names)
    (response view : Nat) :
    Meets (makeController call response view) w
      (fun made w' => (∃ self, made = some ⟨w.php.entryFor w.php.request.names, appDir, module,
          controller, ce, self⟩) ∧
        Undisturbed
          (((w.update fun php => php.setRequest { php.request with dispatched := true }).record
            (.enterHandle (w.php.entryFor w.php.request.names))).record
              (.newController (w.php.entryFor w.php.request.names) ce.name)) w')
      fun _ _ => False := by
  rw [Run.Meets, makeController_entered, ← Run.Meets]
  unfold openController
  have hdir : (w.php.entryFor w.php.request.names).directory = some appDir := hl.directory
  have hmodule : (w.php.entryFor w.php.request.names).names.module.text? = some module :=
    Zval.text?_eq_some.mpr ⟨hl.moduleSlot, hl.module_ne_nil⟩
  have hcontroller : (w.php.entryFor w.php.request.names).names.controller.text? =
      some controller := Zval.text?_eq_some.mpr ⟨hl.controllerSlot, hl.controller_ne_nil⟩
  have hdeclared : applicationIsModuleName (w.php.entryFor w.php.request.names).modules module =
      true := hl.declared
  simp only [hdir, hmodule, hcontroller, hdeclared, Bool.not_true, Bool.false_eq_true, if_false,
    meets_bind]
  refine meets_of_eq (getController_found hclass) ?_
  simp only [meets_bind]
  refine (Undisturbed.objectInit hce.concrete).mono (fun self w₁ h₁ => ?_) fun _ _ h => h
  refine (Undisturbed.construct hce.init self response view).mono (fun _ w₂ h₂ => ?_) fun _ _ h => h
  exact ⟨⟨self, rfl⟩, h₁.trans h₂⟩

theorem CallsFirst.mono (call : Calls γ) (w₀ : World γ) (log log' : List (Nat × Event))
    (h : CallsFirst call w₀ r ce method args log) (hlog : log <+: log') :
    CallsFirst call w₀ r ce method args log' := by
  obtain ⟨es, self, w₁, hes, hbefore, hdepth, hnames, hparams, hcall⟩ := h
  exact ⟨es, self, w₁, hes, hbefore, hdepth, hnames, hparams, hcall.mono hlog⟩

/-- A handle call for a controller that can be called reaches the action. -/
theorem Underway.callsFirst (hu : ∀ site, Within LogGrows (userCall call site))
    (h : Underway w₀ r w) (hl : LinkTarget w₀.php r.names appDir module controller)
    (hclass : w₀.php.controllerClass controller = some ce)
    (hce : Callable ce (actionMethod action) names) (haction : r.action = .string action)
    (hargs : callArguments r.params names = some args) (response view : Nat) :
    CallsFirst call w₀ r ce (actionMethod action) args
      (handle call response view (fuel + 1) w).2.log := by
  have t := (logGrows_trail (γ := γ)).closed
  let P : World γ → Prop := fun w' => CallsFirst call w₀ r ce (actionMethod action) args w'.log
  obtain ⟨es, hlog, hphases⟩ := h.phases
  have hdir : w.php.globals.directory = some appDir := by
    rw [h.globals, hl.directory]
  have hmod : applicationIsModuleName w.php.modules module = true := by
    rw [h.modules, hl.declared]
  have hl' : LinkTarget w.php w.php.request.names appDir module controller := by
    rw [h.named]
    exact ⟨hdir, hl.moduleSlot, hl.module_ne_nil, hmod, hl.controllerSlot, hl.controller_ne_nil⟩
  rw [handle_eq_visit]
  refine CallsFirst.mono call w₀ _ _ ?_ (grows_first List.prefix_rfl fun visit =>
    afterVisit_closed t hu)
  rw [handleVisit]
  change P _
  have hfound := (h.controllerClass controller).trans hclass
  refine meets_then (makeController_found hl' hfound hce response view) ?_
  rintro _ w₁ ⟨⟨self, rfl⟩, h₁⟩
  have hcalm : w₁.php.exception = none := h₁.exception.trans h.calm
  have hrequest : w₁.php.request = { w.php.request with dispatched := true } :=
    h₁.request.trans (Php.request_setRequest w.php _)
  have hmodule : (w₁.php.requests w.php.dispatcher.request).module = .string module := by
    have hslot : w₁.php.requests w.php.dispatcher.request = w₁.php.request :=
      congrArg w₁.php.requests h₁.slot.symm
    rw [hslot, hrequest]
    exact hl'.moduleSlot
  dsimp only
  rw [read_run, hcalm, hrequest]
  simp only [Option.isSome_none, Bool.not_true, Bool.false_eq_true, if_false]
  refine meets_then (Undisturbed.announce hmodule) fun target w₂ h₂ => ?_
  have hrequest₂ : w₂.php.request = { w.php.request with dispatched := true } :=
    h₂.request.trans hrequest
  have haction₂ : w₂.php.request.action = .string action := by
    rw [hrequest₂, ← haction]
    exact congrArg Names.action h.named
  have hparams₂ : w₂.php.request.params = r.params := by
    rw [hrequest₂]
    exact h.params
  unfold callAction
  rw [read_run, haction₂]
  simp only [callNamed, hce.method]
  refine ⟨es, self, w₂, hphases, ?_, ?_, ?_, hparams₂, ?_⟩
  · rw [h₂.log, h₁.log, ← h.named, ← h.entryFor, ← h.depth, ← hlog]
    simp [World.record, World.update]
  · exact (h₂.depth.trans h₁.depth).trans h.depth
  · rw [hrequest₂]
    exact h.named
  · exact callExecutor_logged (h₂.exception.trans hcalm) (hparams₂ ▸ hargs) _ self

end

section arguments
variable {params : Table Key Zval} {present absent : List Bytes} {value : Bytes → Zval}

theorem callArguments_absent (h : ∀ p ∈ absent, Table.find? params (.name p) = none) :
    callArguments params absent = some [] := by
  unfold callArguments
  by_cases hne : params = []
  · rw [hne, callParameters_nil]
    rfl
  · have hnone : absent.filterMap (fun p => Table.find? params (.name p)) = [] :=
      List.filterMap_eq_nil_iff.mpr h
    rw [callParameters_eq hne, hnone]
    rfl

/-- Parameters that are keys, in front of those that are not, get the values of their keys. -/
theorem callArguments_present (hp : ∀ p ∈ present, Table.find? params (.name p) = some (value p))
    (ha : ∀ p ∈ absent, Table.find? params (.name p) = none) :
    callArguments params (present ++ absent) = some (present.map value) := by
  induction present with
  | nil => exact callArguments_absent ha
  | cons p present ih =>
    have hrest := ih fun q hq => hp q (List.mem_cons_of_mem _ hq)
    have hcall : callParameters params (p :: (present ++ absent)) =
        (some (value p) :: (callParameters params (present ++ absent)).1,
          (callParameters params (present ++ absent)).2 + 1) := by
      rw [callParameters, hp p List.mem_cons_self]
    unfold callArguments at hrest ⊢
    rw [List.cons_append, hcall]
    simp only [List.take_succ_cons, List.mapM_cons, List.map_cons] at hrest ⊢
    rw [hrest]
    rfl

end arguments

/-- The value the pairs of a path give a parameter. -/
def NamedPath.value (path : NamedPath) (p : Bytes) : Zval :=
  .string ((Table.find? path.pairs p).getD [])

theorem NamedPath.Readable.find?_routed {modules : List Bytes} {path : NamedPath}
    (h : path.Readable modules) (request : Request) (p : Bytes) :
    Table.find? (path.routed request).params (.name p) =
      if p ∈ Table.keys path.pairs then some (path.value p)
      else Table.find? request.params (.name p) := by
  change Table.find? (Table.merge request.params path.params) (.name p) = _
  rw [Table.find?_merge h.params_nodup]
  split
  · rename_i hp
    obtain ⟨⟨_, v⟩, hmem, rfl⟩ := List.mem_map.mp hp
    have hfind : Table.find? path.params (.name _) = some (.string v) :=
      Table.find?_of_mem h.params_nodup (List.mem_map.mpr ⟨_, hmem, rfl⟩)
    rw [hfind, value, Table.find?_of_mem h.apart hmem]
    rfl
  · rename_i hp
    have hnone : Table.find? path.params (.name p) = none := by
      apply Table.find?_eq_none.mpr
      intro hkey
      obtain ⟨_, hmem, hname⟩ := List.mem_map.mp hkey
      obtain ⟨q, hq, rfl⟩ := List.mem_map.mp hmem
      cases hname
      exact hp (List.mem_map.mpr ⟨q, hq, rfl⟩)
    rw [hnone, Option.none_or]

/-- A path that names its controller, its action and their parameters reaches the action: where
nothing comes before the static route and the class of the controller is there, the first user code
that runs is the method of the action, with the value of each of its parameters in the path. -/
theorem named_path_calls (app : Site → Script γ) (fuel room : Nat) {w : World γ}
    {path : NamedPath} {appDir : Bytes} {ce : ClassEntry} {present absent : List Bytes}
    (h : Requested w path.uri appDir) (hpath : path.Readable w.php.modules)
    (hfresh : path.module = none → w.php.request.module.text? = none ∧
      w.php.dispatcher.defaults.module ≠ [] ∧
      applicationIsModuleName w.php.modules w.php.dispatcher.defaults.module = true)
    (hclass : w.php.controllerClass (fixController path.controller) = some ce)
    (hce : Callable ce (actionMethod (fixAction path.action)) (present ++ absent))
    (hpresent : ∀ p ∈ present, p ∈ Table.keys path.pairs)
    (habsent : ∀ p ∈ absent, p ∉ Table.keys path.pairs ∧
      .name p ∉ Table.keys w.php.request.params) :
    CallsFirst (callAt app (fuel + 1) room) { w with depth := w.depth + 1 }
      (dispatcherFixDefault w.php.dispatcher.defaults (path.routed w.php.request)) ce
      (actionMethod (fixAction path.action)) (present.map path.value)
      (dispatch (callAt app (fuel + 1) room) (fuel + 1) w).2.log := by
  have hnames : (dispatcherFixDefault w.php.dispatcher.defaults (path.routed w.php.request)).names =
      linkNames w.php.dispatcher.defaults path.module path.controller path.action :=
    hpath.settled fun hnone => (hfresh hnone).1
  have htarget := hpath.target h.directory fun hnone => (hfresh hnone).2
  have haction : (dispatcherFixDefault w.php.dispatcher.defaults
      (path.routed w.php.request)).action = .string (fixAction path.action) :=
    congrArg Names.action hnames
  have hargs : callArguments (dispatcherFixDefault w.php.dispatcher.defaults
      (path.routed w.php.request)).params (present ++ absent) = some (present.map path.value) := by
    apply callArguments_present
    · intro p hp
      exact (hpath.find?_routed w.php.request p).trans (if_pos (hpresent p hp))
    · intro p hp
      refine (hpath.find?_routed w.php.request p).trans ?_
      rw [if_neg (habsent p hp).1]
      exact Table.find?_eq_none.mpr (habsent p hp).2
  rw [← hnames] at htarget
  have hu := userCall_grows app (fuel + 1) room
  refine dispatch_first hu (CallsFirst.mono _ { w with depth := w.depth + 1 }) h (h.routes hpath) ?_
  intro response view w' h'
  exact h'.callsFirst hu htarget hclass hce haction hargs response view

/-- A controller with the action `a`, which takes `k` and `l`. -/
def arrivalController : ClassEntry where
  name := lit "CController"
  isAbstract := false
  isController := true
  isAction := false
  functionTable := [(lit "aaction", [[107], [108]])]
  properties := []

def arrivalPath : NamedPath := ⟨some [109], [99], [97], [([107], [118])]⟩

theorem arrivalPath_readable : arrivalPath.Readable [[77]] where
  named s hs := by
    have hs : s ∈ [[109], [99], [97]] := hs
    simp only [List.mem_cons, List.not_mem_nil, or_false] at hs
    rcases hs with rfl | rfl | rfl
    · exact PathName.sample 109 (by decide)
    · exact PathName.sample 99 (by decide)
    · exact PathName.sample 97 (by decide)
  apart := by decide
  paired p hp := by
    rw [List.mem_singleton.mp hp]
    exact ⟨PathName.sample 107 (by decide), PathName.sample 118 (by decide)⟩
  short := by decide
  last := by decide
  module m hm := by
    cases hm
    decide
  controller := nofun

def arrivalPhp : Php Unit :=
  { linkPhp (lit "/m/c/a/k/v") with classTable := [(lit "ccontroller", arrivalController)] }

/-- The path `/m/c/a/k/v` calls the action with `v`. -/
theorem named_path_calls_sample :
    let w := World.start arrivalPhp
    CallsFirst (callAt (fun _ => .done none) 1 0) { w with depth := 1 }
      (dispatcherFixDefault w.php.dispatcher.defaults (arrivalPath.routed w.php.request))
      arrivalController (lit "aaction") [.string [118]]
      (dispatch (callAt (fun _ => .done none) 1 0) 1 w).2.log := by
  intro w
  have hrequested := linkPhp_requested (lit "/m/c/a/k/v")
  have h : Requested w arrivalPath.uri [47, 97] :=
    ⟨hrequested.uri, hrequested.unrouted, hrequested.isObject, hrequested.static,
      hrequested.unplugged, hrequested.calm, hrequested.directory⟩
  have hce : Callable arrivalController (actionMethod (fixAction arrivalPath.action))
      ([[107]] ++ [[108]]) := ⟨rfl, rfl, rfl⟩
  exact named_path_calls (fun _ => .done none) 0 0 h arrivalPath_readable nofun rfl hce (by decide)
    (by decide)

end Yaf
