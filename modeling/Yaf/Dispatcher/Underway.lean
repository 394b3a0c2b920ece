import Yaf.Dispatcher.Gate
import Yaf.Dispatcher.LastMatch

namespace Yaf
open Base Base.Run

variable {γ : Type}

/-- The log only grows. -/
def LogGrows (w w' : World γ) : Prop := w.log <+: w'.log

theorem logGrows_trail : Trail (LogGrows : World γ → World γ → Prop) fun _ => True where
  refl _ := List.prefix_rfl
  trans h h' := List.IsPrefix.trans h h'
  php _ _ _ := List.prefix_rfl
  record _ _ _ := List.prefix_append _ _

theorem exceptionHandler_grows {call : Calls γ}
    (hu : ∀ site, Within LogGrows (userCall call site)) (fuel response : Nat) :
    Within LogGrows (exceptionHandler call fuel response) :=
  exceptionHandler_within logGrows_trail hu (fun _ _ => trivial) fun _ => List.prefix_rfl

/-- Nothing an application does takes anything out of the log. -/
theorem callAt_grows (app : Site → Script γ) (fuel room : Nat) (site : Site) :
    Within LogGrows (callAt app fuel room site) := by
  have t := logGrows_trail (γ := γ)
  refine callAt_within t (fun _ _ => List.prefix_rfl) (fun call hc => ?_) room site
  have hu := userCall_closed t.closed.frames hc fun _ _ _ _ _ => trivial
  exact dispatch_within (dispatchBody_within t hu (fun _ _ => trivial) (fun _ => trivial)
    (fun _ => trivial) (exceptionHandler_grows hu fuel)) fun _ _ h => h

theorem userCall_grows (app : Site → Script γ) (fuel room : Nat) (site : Site) :
    Within LogGrows (userCall (callAt app fuel room) site) :=
  userCall_closed logGrows_trail.closed.frames (callAt_grows app fuel room)
    (fun _ _ _ _ _ => trivial) site

section
variable {w : World γ} {log : List (Nat × Event)}

theorem grows_after {α β ε : Type} {m : Run (World γ) ε α} {f : α → Run (World γ) ε β} {a : α}
    {w' : World γ} (hm : m w = (.ok a, w')) (h : log <+: (f a w').2.log) :
    log <+: ((m >>= f) w).2.log := by
  rw [bind_of_ok hm]
  exact h

/-- What the first part left in the log stays there. -/
theorem grows_first {α β ε : Type} {m : Run (World γ) ε α} {f : α → Run (World γ) ε β}
    (h : log <+: (m w).2.log) (hf : ∀ a, Within LogGrows (f a)) : log <+: ((m >>= f) w).2.log := by
  cases hm : m w with
  | mk r w' =>
    rw [hm] at h
    cases r with
    | ok a =>
      rw [bind_of_ok hm]
      exact h.trans (hf a w')
    | error e =>
      rw [bind_of_error hm]
      exact h

theorem grows_record {β : Type} {e : Event} {f : Unit → Exec γ β} (hf : Within LogGrows (f ())) :
    w.log ++ [(w.depth, e)] <+: ((record e >>= f) w).2.log := hf (w.record e)

theorem log_within_phase (p : Phase) (m : Exec γ Bool) :
    (m w).2.log <+: (within (phase p m) w).2.log := by
  unfold within Run.lift phase
  cases m w with
  | mk r w' => cases r <;> exact List.prefix_append _ _

/-- What holds after every rest of a part that returned holds in the end. -/
theorem meets_then {α β ε : Type} {m : Run (World γ) ε α} {f : α → Run (World γ) ε β}
    {Q : α → World γ → Prop} {P : World γ → Prop} (hm : Meets m w Q fun _ _ => False)
    (hf : ∀ a w', Q a w' → P (f a w').2) : P ((m >>= f) w).2 := by
  unfold Meets at hm
  cases hr : m w with
  | mk r w' =>
    rw [hr] at hm
    cases r with
    | ok a =>
      rw [bind_of_ok hr]
      exact hf a w' hm
    | error e => exact hm.elim

theorem within_meets {α : Type} {m : Exec γ α} {Q : α → World γ → Prop}
    (h : Meets m w Q fun _ _ => False) : Meets (within m) w Q fun _ _ => False := by
  rwa [within, meets_lift]

theorem dispatch_log (call : Calls γ) (fuel : Nat) (w : World γ) :
    (dispatch call fuel w).2.log =
      (dispatchBody call fuel { w with depth := w.depth + 1 }).2.log := by
  unfold dispatch
  split
  all_goals
    rename_i hrun
    rw [hrun]

end

/-- On the way from `w₀` a dispatch has left phases in the log and the names and parameters of `r`
in the request, and what a handle call goes by as it was. -/
structure Underway (w₀ : World γ) (r : Request) (w : World γ) : Prop where
  calm : w.php.exception = none
  unplugged : w.php.dispatcher.plugins.getD [] = []
  globals : w.php.globals = w₀.php.globals
  application : w.php.application = w₀.php.application
  classTable : w.php.classTable = w₀.php.classTable
  defaults : w.php.dispatcher.defaults = w₀.php.dispatcher.defaults
  slot : w.php.dispatcher.request = w₀.php.dispatcher.request
  named : w.php.request.names = r.names
  params : w.php.request.params = r.params
  depth : w.depth = w₀.depth
  phases : ∃ es, w.log = w₀.log ++ es ∧ ∀ e ∈ es, ∃ run, e = (w₀.depth, .phase run)

namespace Underway
variable {call : Calls γ} {fuel response : Nat} {w₀ w : World γ} {r r' r'' : Request}
  {router : Router} {key : Key} {route : BuiltinRoute} {entries : Table Key BuiltinRoute}

theorem record (h : Underway w₀ r w) (run : PhaseRun) :
    Underway w₀ r (w.record (.phase run)) := by
  obtain ⟨es, hlog, hes⟩ := h.phases
  refine ⟨h.calm, h.unplugged, h.globals, h.application, h.classTable, h.defaults, h.slot, h.named,
    h.params, h.depth, es ++ [(w.depth, .phase run)], ?_, ?_⟩
  · change w.log ++ [_] = _
    rw [hlog, List.append_assoc]
  · intro e he
    rcases List.mem_append.mp he with he | he
    · exact hes e he
    · rw [List.mem_singleton.mp he, h.depth]
      exact ⟨run, rfl⟩

theorem setRequest (h : Underway w₀ r w) (hnames : r'.names = r''.names)
    (hparams : r'.params = r''.params) :
    Underway w₀ r'' (w.update fun php => php.setRequest r') :=
  ⟨h.calm, h.unplugged, h.globals, h.application, h.classTable, h.defaults, h.slot,
    (congrArg Request.names (Php.request_setRequest w.php r')).trans hnames,
    (congrArg Request.params (Php.request_setRequest w.php r')).trans hparams, h.depth, h.phases⟩

theorem routedBy (h : Underway w₀ r w) (r' : Request) :
    Underway w₀ r' (w.update fun php => php.routedBy router key r') := by
  have h' : Underway w₀ r' (w.update fun php => php.setRequest { r' with routed := true }) :=
    h.setRequest rfl rfl
  exact ⟨h'.calm, h'.unplugged, h'.globals, h'.application, h'.classTable, h'.defaults, h'.slot,
    h'.named, h'.params, h'.depth, h'.phases⟩

theorem exceptionHandle (h : Underway w₀ r w) :
    Meets (Yaf.exceptionHandle call fuel response) w (fun _ w' => w' = w) fun _ _ => False := by
  change Meets (if w.php.exception.isSome then _ else pure ()) w _ _
  rw [h.calm]
  rfl

/-- Without plugins a hook leaves a phase. -/
theorem hookPhase (h : Underway w₀ r w) (hook : Hook) :
    Meets (Yaf.hookPhase call fuel hook response) w
      (fun _ w' => Underway w₀ r w' ∧ w'.php = w.php) fun _ _ => False := by
  have hplugins : pluginHandle call hook response w = (.ok true, w) := by
    unfold pluginHandle
    rw [read_run, h.unplugged]
    rfl
  simp only [Yaf.hookPhase, within, meets_bind, meets_lift, meets_phase]
  refine meets_of_eq hplugins ?_
  refine (h.record _).exceptionHandle.mono ?_ fun _ _ h => h
  rintro _ w' rfl
  exact ⟨h.record _, rfl⟩

/-- The last route that does not decline leaves its names and parameters. -/
theorem routePhase (h : Underway w₀ r w) (hr : w.php.dispatcher.router = .builtin router)
    (hroutes : router.routes = routeObjects entries)
    (hlast : lastMatch w.php.routeEnv w.php.request entries = some (key, route))
    (hroute : route.route w.php.routeEnv w.php.request = some (true, r')) :
    Meets (Yaf.routePhase call fuel response) w (fun _ w' => Underway w₀ r' w')
      fun _ _ => False := by
  simp only [Yaf.routePhase, within, meets_bind, meets_lift, meets_phase]
  refine meets_of_eq (dispatcherRoute_matched h.calm hr hroutes hlast hroute) ?_
  exact (h.routedBy r').record _

theorem fixDefault (h : Underway w₀ r w) :
    Meets Yaf.fixDefault w
      (fun _ w' => Underway w₀ (dispatcherFixDefault w₀.php.dispatcher.defaults r) w')
      fun _ _ => False := by
  have hfix : (dispatcherFixDefault w.php.dispatcher.defaults w.php.request).names =
      (dispatcherFixDefault w₀.php.dispatcher.defaults r).names := by
    have hr := h.named
    simp only [Request.names, Names.mk.injEq] at hr
    simp only [Request.names, dispatcherFixDefault, h.defaults, hr]
  exact h.setRequest hfix h.params

theorem routeRequest (h : Underway w₀ r w) (hrouted : w.php.request.routed = false)
    (hr : w.php.dispatcher.router = .builtin router)
    (hroutes : router.routes = routeObjects entries)
    (hlast : lastMatch w.php.routeEnv w.php.request entries = some (key, route))
    (hroute : route.route w.php.routeEnv w.php.request = some (true, r')) :
    Meets (Yaf.routeRequest call fuel response) w
      (fun _ w' => Underway w₀ (dispatcherFixDefault w₀.php.dispatcher.defaults r') w')
      fun _ _ => False := by
  change Meets (if w.php.request.routed then within Yaf.fixDefault else _) w _ _
  rw [hrouted, if_neg Bool.false_ne_true, meets_bind]
  refine (h.hookPhase .routerStartup).mono ?_ fun _ _ h => h
  rintro _ w₁ ⟨h₁, hphp⟩
  rw [← hphp] at hr hlast hroute
  simp only [within, meets_bind, meets_lift]
  refine (h₁.routePhase hr hroutes hlast hroute).mono (fun _ w₂ h₂ => ?_) fun _ _ h => h
  refine h₂.fixDefault.mono (fun _ w₃ h₃ => ?_) fun _ _ h => h
  refine (h₃.hookPhase .routerShutdown).mono (fun _ w₄ h₄ => ?_) fun _ _ h => h
  exact h₄.1.setRequest h₄.1.named h₄.1.params

theorem responseInstance (h : Underway w₀ r w) :
    Meets Yaf.responseInstance w (fun _ w' => Underway w₀ r w' ∧
      w'.php.request = w.php.request ∧ w'.php.routeEnv = w.php.routeEnv ∧
      w'.php.dispatcher = w.php.dispatcher) fun _ _ => False :=
  ⟨⟨h.calm, h.unplugged, h.globals, h.application, h.classTable, h.defaults, h.slot, h.named,
    h.params, h.depth, h.phases⟩, rfl, rfl, rfl⟩

theorem dispatcherInitView (h : Underway w₀ r w) :
    Meets Yaf.dispatcherInitView w (fun _ w' => Underway w₀ r w') fun _ _ => False := by
  simp only [Yaf.dispatcherInitView, getPhp, meets_bind, meets_get, meets_pure]
  split
  · exact h
  · exact ⟨h.calm, h.unplugged, h.globals, h.application, h.classTable, h.defaults, h.slot, h.named,
      h.params, h.depth, h.phases⟩

end Underway

/-- A request for a URI that only the static route takes, in an application without plugins. -/
structure Requested (w : World γ) (uri appDir : Bytes) : Prop where
  uri : stripBaseUri w.php.request = uri
  unrouted : w.php.request.routed = false
  isObject : w.php.dispatcher.requestIsObject = true
  static : ∃ router entries key, w.php.dispatcher.router = .builtin router ∧
    router.routes = routeObjects entries ∧
    lastMatch w.php.routeEnv w.php.request entries = some (key, .static)
  unplugged : w.php.dispatcher.plugins.getD [] = []
  calm : w.php.exception = none
  directory : w.php.globals.directory = some appDir

section first
variable {call : Calls γ} {fuel : Nat} {w₀ w : World γ} {r : Request} {uri appDir : Bytes}
  {P : List (Nat × Event) → Prop}

variable (hu : ∀ site, Within LogGrows (userCall call site))
  (grows : ∀ l l', P l → l <+: l' → P l')
  (first : ∀ response view w, Underway w₀ r w → P (handle call response view fuel w).2.log)
include hu grows first

theorem dispatchTurn_first (h : Underway w₀ r w) (response view : Nat) :
    P (dispatchTurn call fuel response view w).2.log := by
  have t := logGrows_trail (γ := γ)
  have hh := exceptionHandler_grows hu fuel
  have hp : ∀ run, (fun _ => True) (Event.phase run) := fun _ => trivial
  unfold dispatchTurn
  refine meets_then (P := fun w => P w.log) (h.hookPhase .preDispatch) fun _ w₁ h₁ => ?_
  refine grows _ _ (first response view w₁ h₁.1) ?_
  apply grows_first
  · unfold handlePhase
    refine grows_first (log_within_phase _ _) fun handled => ?_
    split
    · exact within_pure t.toChains _
    · exact within_bind t.toChains (exceptionHandle_within t hh) fun _ => within_null t
  · intro _
    exact within_inner t (t.update fun _ => rfl) fun _ => hookPhase_within t hu hp hh

/-- The first turn decides, however many there are. -/
theorem dispatchLoop_first (h : Underway w₀ r w) (response view left : Nat) :
    P (dispatchLoop call fuel response view left w).2.log := by
  have t := logGrows_trail (γ := γ)
  have hturn := dispatchTurn_first hu grows first h response view
  cases left with
  | zero =>
    exact grows _ _ hturn (grows_first List.prefix_rfl fun _ => within_pure t.toChains _)
  | succ left =>
    refine grows _ _ hturn (grows_first List.prefix_rfl fun _ => ?_)
    refine within_inner t (getRequest_closed t.closed.frames) fun request => ?_
    split
    · exact within_pure t.toChains _
    · exact dispatchLoop_within t hu (fun _ _ => trivial) (fun _ => trivial)
        (exceptionHandler_grows hu fuel)

end first

/-- What the first handle call of a dispatch brings about, behind the phases before it, the dispatch
brings about. -/
theorem dispatch_first {call : Calls γ} {fuel : Nat} {w : World γ} {r : Request}
    {uri appDir : Bytes} {P : List (Nat × Event) → Prop}
    (hu : ∀ site, Within LogGrows (userCall call site)) (grows : ∀ l l', P l → l <+: l' → P l')
    (h : Requested w uri appDir)
    (hroute : routeStaticRoute w.php.modules w.php.globals.actionPrefer w.php.request = (true, r))
    (first : ∀ response view w', Underway { w with depth := w.depth + 1 }
        (dispatcherFixDefault w.php.dispatcher.defaults r) w' →
      P (handle call response view fuel w').2.log) :
    P (dispatch call fuel w).2.log := by
  have t := logGrows_trail (γ := γ)
  have hh := exceptionHandler_grows hu fuel
  have hp : ∀ run, (fun _ => True) (Event.phase run) := fun _ => trivial
  obtain ⟨router, entries, key, hr, hroutes, hlast⟩ := h.static
  have hstart : Underway { w with depth := w.depth + 1 } w.php.request
      { w with depth := w.depth + 1 } :=
    ⟨h.calm, h.unplugged, rfl, rfl, rfl, rfl, rfl, rfl, rfl, rfl, [],
      (List.append_nil _).symm, by simp⟩
  rw [dispatch_log]
  let Q : World γ → Prop := fun w => P w.log
  change Q _
  unfold dispatchBody
  refine meets_then (Q := fun php w' => php = w.php ∧ w' = { w with depth := w.depth + 1 })
    ⟨rfl, rfl⟩ ?_
  rintro _ _ ⟨rfl, rfl⟩
  refine meets_then (within_meets hstart.responseInstance) ?_
  rintro response w₁ ⟨h₁, hreq, henv, hdisp⟩
  rw [if_pos h.isObject]
  have hrouted : w₁.php.request.routed = false := by
    rw [hreq]
    exact h.unrouted
  have hrouter : w₁.php.dispatcher.router = .builtin router := by
    rw [hdisp]
    exact hr
  have hmatch : lastMatch w₁.php.routeEnv w₁.php.request entries = some (key, .static) := by
    rw [henv, hreq]
    exact hlast
  have hanswer : BuiltinRoute.static.route w₁.php.routeEnv w₁.php.request = some (true, r) := by
    rw [henv, hreq]
    exact congrArg some hroute
  refine meets_then (h₁.routeRequest hrouted hrouter hroutes hmatch hanswer) fun _ w₂ h₂ => ?_
  refine meets_then (h₂.hookPhase .dispatchLoopStartup) fun _ w₃ h₃ => ?_
  refine meets_then (within_meets h₃.1.dispatcherInitView) fun view w₄ h₄ => ?_
  refine grows _ _ (dispatchLoop_first hu grows first h₄ response view _)
    (grows_first List.prefix_rfl fun left => ?_)
  refine within_bind t.toChains (hookPhase_within t hu hp hh) fun _ => ?_
  exact finishDispatch_within t hu (fun _ => trivial) hh

end Yaf
