import Yaf.Dispatcher.Relies

namespace Yaf
open Base Base.Run

section
variable {γ : Type}

/-- A predicate that only looks at the requests and the dispatcher. -/
structure Steady (P : World γ → Prop) : Prop where
  php : ∀ (w : World γ) (php : Php γ), php.requests = w.php.requests →
    php.dispatcher = w.php.dispatcher → P w → P { w with php := php }
  log : ∀ w e, P w → P (w.record e)

theorem Steady.update {P : World γ → Prop} (t : Steady P) {f : Php γ → Php γ}
    (hr : ∀ php, (f php).requests = php.requests)
    (hd : ∀ php, (f php).dispatcher = php.dispatcher) {w : World γ} (h : P w) : P (w.update f) :=
  t.php w (f w.php) (hr w.php) (hd w.php) h

/-- The default names are as they should be. -/
def Loose (D : DefaultNames → Prop) (w : World γ) : Prop := D w.php.dispatcher.defaults

/-- So are the names of the request. -/
def Settled (D : DefaultNames → Prop) (N : Names → Prop) (w : World γ) : Prop :=
  D w.php.dispatcher.defaults ∧ N w.php.request.names

/-- The event of a call that leads from one state to the other. -/
def calledEvent (site : Site) (w w' : World γ) : Event :=
  .called site w.php.request w'.php.request w'.php.dispatcher.defaults w'.pending

/-- A predicate kept by code that changes no name itself and calls these sites only. -/
structure Rides (C : List Event → Event → Prop) (Sites : Site → Prop) (P : World γ → Prop) :
    Prop where
  php : ∀ {w : World γ} {php : Php γ}, P w →
    php.dispatcher.defaults = w.php.dispatcher.defaults →
    php.request.names = w.php.request.names → P { w with php := php }
  call : ∀ {site w w'}, Sites site → P w → w'.own = w.own ++ [calledEvent site w w'] →
    C w.own (calledEvent site w w') → P w'

/-- A hook of a request that is routed. -/
def Site.laterHook : Site → Prop
  | .hook _ h _ => h ≠ .routerStartup
  | _ => False

/-- A condition on the events of a run under which the default names keep `D` and the names of the
request have `N` whenever they were just fixed or only hooks were called since. `U` holds until the
names are fixed for the first time, `V` in every visit. -/
structure Settling (C : List Event → Event → Prop) (G : Nat → List Event → Prop)
    (D : DefaultNames → Prop) (N : Names → Prop) (U V : World γ → Prop) : Prop
    extends Grading G where
  called : ∀ site before after defaults threw, G 0 [.called site before after defaults threw]
  phase : ∀ run, G 0 [.phase run]
  nesting : ∀ limit, G 0 [.nestingError limit]
  fix : ∀ {d request}, D d → N (dispatcherFixDefault d request).names
  hooks : Rides C Site.laterHook (Settled D N : World γ → Prop)
  unrouted : Rides C (fun _ => True) U
  unroutedLoose : ∀ {w}, U w → Loose D w
  unroutedRequest : ∀ {w request}, U w → U (w.update fun php => php.setRequest request)
  startup : ∀ {w ended}, U w → U (w.record (.phase ⟨.hook .routerStartup, ended⟩))
  route : ∀ {w ended}, U w → U (w.record (.phase ⟨.route, ended⟩))
  visit : Rides C (fun _ => True) V
  visitLoose : ∀ {w}, V w → Loose D w
  handled : ∀ {w ended}, V w → V (w.record (.phase ⟨.handle, ended⟩))
  visit_of_unrouted : ∀ {w}, U w → V w
  visit_of_settled : ∀ {w}, Settled D N w → V w

section
variable {C : List Event → Event → Prop} {G : Nat → List Event → Prop} {D : DefaultNames → Prop}
  {N : Names → Prop} {U V : World γ → Prop} {call : Calls γ} {f f' : Nat} {P : World γ → Prop}
  {Sites : Site → Prop}

variable (s : Settling C G D N U V)
include s

/-- What is known behind a call is what its event says. -/
theorem relies_userCall (hc : ∀ site, Within Quiet (call site)) (site : Site)
    {Q : Option Zval → World γ → Prop} (hrefused : ∀ w, P w → Q none w)
    (hdone : ∀ w w' ret, P w → w'.own = w.own ++ [calledEvent site w w'] →
      C w.own (calledEvent site w w') → Q ret w') :
    Relies C G P 0 (userCall call site) (userCall call site) Q := by
  refine relies_reading fun php w => ?_
  by_cases hp : php.exception.isSome = true
  · rw [if_pos hp]
    refine ⟨[], Grew.refl w, fun hP _ => ⟨rfl, s.nil, fun a ha => ?_⟩⟩
    cases ha
    exact hrefused w hP.2
  rw [if_neg hp]
  have hquiet := (hc site w).grew
  cases hr : call site w with
  | mk r w' =>
    rw [hr] at hquiet
    cases r with
    | ok ret =>
      rw [bind_of_ok hr]
      have hrest : (do
          let php' ← getPhp
          record (.called site php.request php'.request php'.dispatcher.defaults
            php'.exception.isSome)
          if php'.exception.isSome then pure none else pure ret : Exec γ (Option Zval)) w' =
          (.ok (if w'.php.exception.isSome then none else ret),
            w'.record
              (.called site php.request w'.php.request w'.php.dispatcher.defaults w'.pending)) := by
        change (if w'.php.exception.isSome then pure none else pure ret : Exec γ (Option Zval))
          (w'.record _) = _
        split <;> rfl
      rw [hrest]
      have hgrew := hquiet.trans (grew_record w'
        (.called site php.request w'.php.request w'.php.dispatcher.defaults w'.pending))
      refine ⟨[.called site php.request w'.php.request w'.php.dispatcher.defaults w'.pending],
        hgrew, fun hP hC => ⟨rfl, s.called .., fun a _ => ?_⟩⟩
      obtain ⟨rfl, hP⟩ := hP
      exact hdone w _ a hP hgrew.2 hC.head
    | error e =>
      rw [bind_of_error hr]
      exact ⟨[], hquiet, fun _ _ => ⟨rfl, s.nil, nofun⟩⟩

/-- Code that changes no name itself keeps what rides along. -/
theorem Rides.closed (r : Rides C Sites P) :
    Closed (fun _ m => Relies (γ := γ) C G P 0 m m fun _ => P) fun _ => False where
  pure _ := relies_pure s.toGrading fun _ h => h
  stop e := relies_stop s.toGrading e
  bind hm hf := hm.bind_left s.toGrading hf
  get := relies_read fun _ => relies_pure s.toGrading fun _ h => h
  update hd hn := relies_update s.toGrading fun w h => r.php h (hd w.php) (hn w.php)
  log h := h.elim

/-- Fixing the names settles them. -/
theorem fixDefault_settles :
    Relies C G (Loose D) 0 (fixDefault : Exec γ Unit) fixDefault fun _ => Settled D N := by
  refine relies_update s.toGrading fun w h => ⟨h, ?_⟩
  change N (w.php.setRequest _).request.names
  rw [Php.request_setRequest]
  exact s.fix h

theorem dispatcherInitView_settled :
    Relies C G (Settled D N) 0 (dispatcherInitView : Exec γ Nat) dispatcherInitView
      fun _ => Settled D N :=
  dispatcherInitView_closed (s.hooks.closed s).frames

variable (hc : ∀ site, Within Quiet (call site))
include hc

theorem Rides.userCall (r : Rides C Sites P) {site : Site} (hs : Sites site) :
    Relies C G P 0 (userCall call site) (userCall call site) fun _ => P :=
  relies_userCall s hc site (fun _ h => h) fun _ _ _ h => r.call hs h

theorem Rides.triggerError (r : Rides C (fun _ => True) P) (type : YafErr) (message : Bytes) :
    Relies C G P 0 (triggerError call type message) (triggerError call type message)
      fun _ => P :=
  triggerError_closed (r.closed s).frames fun _ => r.userCall s hc trivial

section handle
variable (t : Steady P) (hP : ∀ w, P w → V w)
include t hP

/-- A controller is found in a state that differs by the inclusion of its script only. -/
theorem getController_relies {entry : HandleEntry}
    (hopen : ∀ directory path, G 0 [.openScript entry directory path])
    (hscript : ∀ w w' path, P w → w'.own = w.own ++ [calledEvent (.script path) w w'] →
      C w.own (calledEvent (.script path) w w') → P w') (appDir module controller : Bytes)
    (defModule : Bool) :
    Relies C G P 0 (getController call entry appDir module controller defModule)
      (getController call entry appDir module controller defModule)
      fun ce w => V w ∧ (ce.isSome = true → P w) := by
  have hfails : ∀ type message, Relies C G P 0
      (triggerError call type message >>= fun _ => (pure none : Exec γ (Option ClassEntry)))
      (triggerError call type message >>= fun _ => pure none)
      fun ce w => V w ∧ (ce.isSome = true → P w) := by
    intro type message
    have herror := (s.visit.triggerError s hc type message).mono s.toGrading le_rfl hP
      fun _ _ h => h
    refine herror.bind_right s.toGrading fun _ => relies_pure s.toGrading fun _ h => ⟨h, nofun⟩
  have himport : ∀ path, Relies C G P 0 (loaderImport call path) (loaderImport call path)
      fun _ => P := by
    intro path
    refine relies_read fun php => ?_
    split
    · exact relies_pure s.toGrading fun _ h => h
    · refine Relies.bind_right s.toGrading (Q := fun _ => P)
        (relies_update s.toGrading fun _ h => by apply t.update _ _ h <;> exact fun _ => rfl)
        fun _ => ?_
      exact relies_pure s.toGrading fun _ h => h
    · refine (relies_userCall s hc _ (Q := fun _ => P) (fun _ h => h) ?_).bind_right s.toGrading
        fun _ => relies_pure s.toGrading fun _ h => h
      exact fun w w' _ h hown hC => hscript w w' path h hown hC
  refine relies_read fun php => ?_
  dsimp only
  split
  · exact relies_pure s.toGrading fun w h => ⟨hP w h, fun _ => h⟩
  refine Relies.bind_right s.toGrading (Q := fun _ => P)
    (relies_record (fun _ _ _ => hopen _ _) fun w h _ => t.log w _ h) fun _ => ?_
  refine (himport _).bind_right s.toGrading fun loaded => ?_
  split
  · refine relies_read fun php' => ?_
    split
    · split
      · exact relies_pure s.toGrading fun w h => ⟨hP w h, fun _ => h⟩
      · exact hfails _ _
    · exact hfails _ _
  · exact relies_read fun _ => hfails _ _

omit hP in
/-- A controller is constructed in a state that differs by its `init` only. -/
theorem controllerConstruct_relies {Q : World γ → Prop} (hQ : ∀ w, P w → Q w)
    (hinit : ∀ w w' ce this args, P w →
      w'.own = w.own ++ [calledEvent (.method ce this (lit "init") args) w w'] →
      C w.own (calledEvent (.method ce this (lit "init") args) w w') → Q w')
    (ce : ClassEntry) (self response view : Nat) :
    Relies C G P 0 (controllerConstruct call ce self response view)
      (controllerConstruct call ce self response view) fun _ => Q := by
  have hset : ∀ object name value, Relies C G P 0
      (setProperty object name value : Exec γ Unit) (setProperty object name value)
      fun _ => P := fun _ _ _ =>
    relies_update s.toGrading fun _ h => by apply t.update _ _ h <;> exact fun _ => rfl
  refine relies_read fun php => ?_
  refine (hset _ _ _).bind_right s.toGrading fun _ => ?_
  refine (hset _ _ _).bind_right s.toGrading fun _ => ?_
  refine (hset _ _ _).bind_right s.toGrading fun _ => ?_
  refine (hset _ _ _).bind_right s.toGrading fun _ => ?_
  split
  · refine (relies_userCall s hc _ (Q := fun _ => Q) hQ ?_).bind_right s.toGrading fun _ =>
      relies_pure s.toGrading fun _ h => h
    exact fun w w' _ h hown hC => hinit w w' _ _ _ h hown hC
  · exact relies_pure s.toGrading hQ

end handle

/-- One entry of `yaf_dispatcher_handle` costs one controller, unless it enters itself again. `P` is
what holds until the controller is constructed, `Q` what its `init` leaves of it. -/
theorem handle_relies {Q : World γ → Prop} (t : Steady P) (hP : ∀ w, P w → V w)
    (hQ : ∀ w, P w → Q w) (hvisit : ∀ w, Q w → V w)
    (hstart : ∀ w : World γ, Settled D N w → P (w.update fun php =>
      php.setRequest { php.request with dispatched := true }))
    (henter : ∀ w, P w → G 0 [.enterHandle (handleEntry w.php)])
    (hopen : ∀ entry directory path, G 0 [.openScript entry directory path])
    (hnew : ∀ entry name, G 1 [.newController entry name])
    (hscript : ∀ w w' path, P w → w'.own = w.own ++ [calledEvent (.script path) w w'] →
      C w.own (calledEvent (.script path) w w') → P w')
    (hinit : ∀ w w' ce this args, P w →
      w'.own = w.own ++ [calledEvent (.method ce this (lit "init") args) w w'] →
      C w.own (calledEvent (.method ce this (lit "init") args) w w') → Q w')
    {response view : Nat}
    (hagain : Relies C G (fun w => Q w ∧ w.pending = false ∧ w.dispatched = false) 0
      (handle call response view f) (handle call response view f') fun _ => V) :
    Relies C G (Settled D N) 1 (handle call response view (f + 1))
      (handle call response view (f' + 1)) fun _ => V := by
  have hfails : ∀ type message, Relies C G P 1
      (triggerError call type message >>= fun _ => (pure false : Exec γ Bool))
      (triggerError call type message >>= fun _ => pure false) fun _ => V := by
    intro type message
    have herror := (s.visit.triggerError s hc type message).mono s.toGrading (Nat.zero_le 1) hP
      fun _ _ h => h
    exact herror.bind_left s.toGrading fun _ => relies_pure s.toGrading fun _ h => h
  have hset : Relies C G (Settled D N) 0 (setDispatched true : Exec γ Unit) (setDispatched true)
      fun _ => P := relies_update s.toGrading hstart
  refine hset.bind_right s.toGrading fun _ => ?_
  refine relies_reading fun php => ?_
  have henter' : Relies (γ := γ) C G (fun w => php = w.php ∧ P w) 0
      (record (.enterHandle (handleEntry php))) (record (.enterHandle (handleEntry php)))
      fun _ => P := by
    refine relies_record (fun w h _ => ?_) fun w h _ => t.log w _ h.2
    exact h.1 ▸ henter w h.2
  refine henter'.bind_right s.toGrading fun _ => ?_
  split
  · exact hfails _ _
  split
  · exact hfails _ _
  split
  · exact hfails _ _
  split
  · exact hfails _ _
  refine (getController_relies s hc t hP (hopen _) hscript _ _ _ _).bind_right s.toGrading
    fun ce => ?_
  split
  · exact (relies_pure s.toGrading fun _ h => h.1).mono s.toGrading (Nat.zero_le 1)
      (fun _ h => h) fun _ _ h => h
  rename_i ce
  refine Relies.bind_left s.toGrading (Q := fun _ => P)
    (relies_record (fun _ _ _ => hnew _ _) fun w h _ => t.log w _ (h.2 rfl)) fun _ => ?_
  have hobject : Relies C G P 0 (objectInit ce : Exec γ Nat) (objectInit ce) fun _ => P := by
    unfold objectInit
    split
    · exact relies_stop s.toGrading _
    · refine relies_read fun php => ?_
      refine Relies.bind_right s.toGrading (Q := fun _ => P)
        (relies_update s.toGrading fun _ h => by apply t.update _ _ h <;> exact fun _ => rfl)
        fun _ => ?_
      exact relies_pure s.toGrading fun _ h => h
  refine hobject.bind_right s.toGrading fun self => ?_
  refine (controllerConstruct_relies s hc t hQ hinit ce self response view).bind_right s.toGrading
    fun _ => relies_reading fun php' => ?_
  split
  · exact relies_pure s.toGrading fun w h => hvisit w h.2
  rename_i hp
  split
  · rename_i hd
    refine hagain.mono s.toGrading le_rfl (fun w h => ⟨h.2, ?_, ?_⟩) fun _ _ h => h
    · simpa [World.pending, h.1] using hp
    · simpa [World.dispatched, h.1] using hd
  · exact (runAction_closed (s.visit.closed s) (fun _ => s.visit.userCall s hc trivial)
      ⟨_, _, _, [], _, _⟩).mono s.toGrading le_rfl (fun w h => hvisit w h.2) fun _ _ h => h

/-- The hooks of a dispatch whose names are settled leave them settled. -/
theorem pluginHandle_settled {hook : Hook} (hlater : hook ≠ .routerStartup) (response : Nat) :
    Relies C G (Settled D N) 0 (pluginHandle call hook response) (pluginHandle call hook response)
      fun _ => Settled D N := by
  have hplugins : ∀ plugins, Relies C G (Settled D N) 0 (callPlugins call hook response plugins)
      (callPlugins call hook response plugins) fun _ => Settled D N := by
    intro plugins
    induction plugins with
    | nil => exact relies_pure s.toGrading fun _ h => h
    | cons plugin plugins ih =>
      rw [callPlugins_cons]
      split
      · have hcalled := s.hooks.userCall s hc
          (show (Site.hook plugin hook response).laterHook from hlater)
        exact hcalled.bind_right s.toGrading fun _ => ih
      · exact ih
  refine relies_read fun php => ?_
  refine (hplugins _).bind_right s.toGrading fun _ => ?_
  exact relies_pure s.toGrading fun _ h => h

variable (hhandle : ∀ response view, Relies C G (Settled D N) 1 (handle call response view f)
    (handle call response view f') fun _ => V)
  (hcatch : ∀ response, Relies C G V 0 (exceptionHandler call f response)
    (exceptionHandler call f' response) fun _ _ => True)
include hcatch

omit hc in
theorem exceptionHandleNoret_relies (response : Nat) :
    Relies C G V 0 (exceptionHandleNoret call f response)
      (exceptionHandleNoret call f' response) fun _ _ => True := by
  refine relies_read fun php => ?_
  split
  · exact relies_pure s.toGrading fun _ _ => trivial
  · split
    · exact hcatch response
    · exact relies_pure s.toGrading fun _ _ => trivial

omit hc in
/-- The macro goes on in the state it found or ends the dispatch. -/
theorem exceptionHandle_relies (response : Nat) (hP : ∀ w, P w → V w) :
    Relies C G P 0 (exceptionHandle call f response) (exceptionHandle call f' response)
      fun _ => P := by
  refine (relies_lift (relies_php s.toGrading)).bind_right s.toGrading fun php => ?_
  split
  · have hnoret := (exceptionHandleNoret_relies s hcatch response).mono s.toGrading le_rfl hP
      fun _ _ h => h
    exact (relies_lift hnoret).bind_right s.toGrading fun _ => relies_stop s.toGrading _
  · exact relies_pure s.toGrading fun _ h => h

omit hc in
/-- A phase of hooks leaves what its hooks leave. -/
theorem hookPhase_relies {hook : Hook} {response : Nat} (hP : ∀ w, P w → V w)
    (hlog : ∀ w ended, P w → P (w.record (.phase ⟨.hook hook, ended⟩)))
    (h : Relies C G P 0 (pluginHandle call hook response) (pluginHandle call hook response)
      fun _ => P) :
    Relies C G P 0 (hookPhase call f hook response) (hookPhase call f' hook response)
      fun _ => P :=
  (relies_lift (relies_phase s.toGrading s.phase h fun _ => hlog)).bind_right s.toGrading fun _ =>
    exceptionHandle_relies s hcatch response hP

theorem hookPhase_startup (response : Nat) :
    Relies C G U 0 (hookPhase call f .routerStartup response)
      (hookPhase call f' .routerStartup response) fun _ => U :=
  hookPhase_relies s hcatch (fun _ h => s.visit_of_unrouted h) (fun _ _ h => s.startup h)
    (pluginHandle_closed (s.unrouted.closed s).frames fun _ => s.unrouted.userCall s hc trivial)

theorem hookPhase_settled (hook : Hook) (hlater : hook ≠ .routerStartup) (response : Nat) :
    Relies C G (Settled D N) 0 (hookPhase call f hook response) (hookPhase call f' hook response)
      fun _ => Settled D N :=
  hookPhase_relies s hcatch (fun _ h => s.visit_of_settled h) (fun _ _ h => h)
    (pluginHandle_settled s hc hlater response)

theorem routePhase_relies (response : Nat) :
    Relies C G U 0 (routePhase call f response) (routePhase call f' response) fun _ => U := by
  have hroute := relies_phase s.toGrading s.phase (p := .route)
    (dispatcherRoute_closed (s.unrouted.closed s).frames
      (fun _ => s.unrouted.userCall s hc trivial)
      fun _ => relies_update s.toGrading fun _ h => s.unroutedRequest h) fun _ _ _ h => s.route h
  refine (relies_lift hroute).bind_right s.toGrading fun routed => ?_
  split
  · exact relies_pure s.toGrading fun _ h => h
  · refine (relies_lift (s.unrouted.triggerError s hc _ _)).bind_right s.toGrading fun _ => ?_
    have hnoret := (exceptionHandleNoret_relies s hcatch response).mono s.toGrading le_rfl
      (fun _ h => s.visit_of_unrouted h) fun _ _ h => h
    exact (relies_lift hnoret).bind_right s.toGrading fun _ => relies_stop s.toGrading _

include hhandle

omit hc in
theorem handlePhase_relies (response view : Nat) :
    Relies C G (Settled D N) 1 (handlePhase call f response view)
      (handlePhase call f' response view) fun _ => V := by
  have hphase := relies_phase s.toGrading s.phase (p := .handle) (hhandle response view)
    fun _ _ _ h => s.handled h
  refine (relies_lift hphase).bind_left s.toGrading fun handled => ?_
  split
  · exact relies_pure s.toGrading fun _ h => h
  · exact (exceptionHandle_relies s hcatch response fun _ h => h).bind_right s.toGrading fun _ =>
      relies_stop s.toGrading _

/-- One turn of the loop costs one handle call and leaves the names settled. -/
theorem dispatchTurn_relies (response view : Nat) :
    Relies C G (Settled D N) 1 (dispatchTurn call f response view)
      (dispatchTurn call f' response view) fun _ => Settled D N := by
  have hpre := hookPhase_settled s hc hcatch .preDispatch nofun response
  have hpost := hookPhase_settled s hc hcatch .postDispatch nofun response
  have hfix := (fixDefault_settles s).mono s.toGrading le_rfl (fun _ => s.visitLoose)
    fun _ _ h => h
  have hrest := (relies_lift (f := Exit.stop) hfix).bind_right s.toGrading fun _ => hpost
  have hhandled := (handlePhase_relies s hhandle hcatch response view).bind_left s.toGrading
    fun _ => hrest
  exact hpre.bind_right s.toGrading fun _ => hhandled

/-- The loop costs one handle call a turn. -/
theorem dispatchLoop_relies (response view left : Nat) :
    Relies C G (Settled D N) (left + 1) (dispatchLoop call f response view left)
      (dispatchLoop call f' response view left) fun _ => Settled D N := by
  induction left with
  | zero =>
    refine (dispatchTurn_relies s hc hhandle hcatch response view).bind_left s.toGrading
      fun _ => ?_
    exact relies_pure s.toGrading fun _ h => h
  | succ left ih =>
    rw [Nat.add_comm (left + 1) 1]
    refine (dispatchTurn_relies s hc hhandle hcatch response view).bind s.toGrading fun _ => ?_
    refine (relies_lift (relies_request s.toGrading)).bind_right s.toGrading fun request => ?_
    split
    · exact (relies_pure s.toGrading fun _ h => h).mono s.toGrading (Nat.zero_le _)
        (fun _ h => h) fun _ _ h => h
    · exact ih

omit hhandle in
theorem routeRequest_relies (response : Nat) :
    Relies C G U 0 (routeRequest call f response) (routeRequest call f' response)
      fun _ => Settled D N := by
  have hfix := relies_lift (f := Exit.stop) ((fixDefault_settles s).mono s.toGrading le_rfl
    (fun _ => s.unroutedLoose) fun _ _ h => h)
  have hrouted : Relies C G (Settled D N) 0
      (updateRequest fun request => { request with routed := true } : Exec γ Unit)
      (updateRequest fun request => { request with routed := true }) fun _ => Settled D N := by
    refine relies_update s.toGrading fun w h => ⟨h.1, ?_⟩
    change N (w.php.setRequest _).request.names
    rw [Php.request_setRequest]
    exact h.2
  have hstartup := hookPhase_startup s hc hcatch response
  have hshutdown := hookPhase_settled s hc hcatch .routerShutdown nofun response
  have hroute := routePhase_relies s hc hcatch response
  refine (relies_lift (relies_request s.toGrading)).bind_right s.toGrading fun request => ?_
  split
  · exact hfix
  · refine hstartup.bind_right s.toGrading fun _ => hroute.bind_right s.toGrading fun _ => ?_
    refine hfix.bind_right s.toGrading fun _ => hshutdown.bind_right s.toGrading fun _ => ?_
    exact relies_lift hrouted

omit hhandle in
theorem finishDispatch_relies (response left : Nat) :
    Relies C G (Settled D N) 0 (finishDispatch call f response left)
      (finishDispatch call f' response left) fun _ _ => True := by
  refine (relies_lift (relies_php s.toGrading)).bind_right s.toGrading fun php => ?_
  split
  · have hrecord : Relies (γ := γ) C G (Settled D N) 0
        (record (.nestingError php.globals.forwardLimit))
        (record (.nestingError php.globals.forwardLimit)) fun _ => V :=
      relies_record (fun _ _ _ => s.nesting _) fun _ h _ => s.visit_of_settled h
    refine (relies_lift hrecord).bind_right s.toGrading fun _ => ?_
    refine (relies_lift (s.visit.triggerError s hc _ _)).bind_right s.toGrading fun _ => ?_
    refine (relies_lift (exceptionHandleNoret_relies s hcatch response)).bind_right s.toGrading
      fun _ => ?_
    exact relies_stop s.toGrading _
  · have hsend : Relies C G (Settled D N) 0 (responseSend response : Exec γ Unit)
        (responseSend response) fun _ => Settled D N :=
      (s.hooks.closed s).update (fun _ => rfl) fun _ => rfl
    have hclear : Relies C G (Settled D N) 0 (responseClearBody response : Exec γ Unit)
        (responseClearBody response) fun _ => Settled D N :=
      (s.hooks.closed s).update (fun _ => rfl) fun _ => rfl
    split
    · exact relies_pure s.toGrading fun _ _ => trivial
    · refine (relies_lift hsend).bind_right s.toGrading fun _ => ?_
      refine (relies_lift hclear).bind_right s.toGrading fun _ => ?_
      exact relies_pure s.toGrading fun _ _ => trivial

/-- A dispatch costs one handle call for each turn of its loop, whatever it calls. -/
theorem dispatchBody_relies (w : World γ) :
    ∃ es, Grew w es (dispatchBody call f w).2 ∧ (U w → Along C w.own es →
      dispatchBody call f w = dispatchBody call f' w ∧
        G (firstLeft w.php.globals.forwardLimit + 1) es) := by
  have hbody : ∀ start : Php γ, Relies C G U
      (firstLeft start.globals.forwardLimit + 1)
      (do
        let response ← within responseInstance
        if start.dispatcher.requestIsObject then
          routeRequest call f response
          hookPhase call f .dispatchLoopStartup response
          let view ← within dispatcherInitView
          let left ← dispatchLoop call f response view (firstLeft start.globals.forwardLimit)
          hookPhase call f .dispatchLoopShutdown response
          finishDispatch call f response left
        else
          within (triggerError call .typeError (lit "Expect a Yaf_Request_Abstract instance"))
          Run.stop .null)
      (do
        let response ← within responseInstance
        if start.dispatcher.requestIsObject then
          routeRequest call f' response
          hookPhase call f' .dispatchLoopStartup response
          let view ← within dispatcherInitView
          let left ← dispatchLoop call f' response view (firstLeft start.globals.forwardLimit)
          hookPhase call f' .dispatchLoopShutdown response
          finishDispatch call f' response left
        else
          within (triggerError call .typeError (lit "Expect a Yaf_Request_Abstract instance"))
          Run.stop .null)
      fun _ _ => True := by
    intro start
    have hview := dispatcherInitView_settled s
    have hstartup := hookPhase_settled s hc hcatch .dispatchLoopStartup nofun
    have hshutdown := hookPhase_settled s hc hcatch .dispatchLoopShutdown nofun
    refine (relies_lift (responseInstance_closed (s.unrouted.closed s))).bind_right s.toGrading
      fun response => ?_
    split
    · refine (routeRequest_relies s hc hcatch response).bind_right s.toGrading fun _ => ?_
      refine (hstartup response).bind_right s.toGrading fun _ => ?_
      refine (relies_lift hview).bind_right s.toGrading fun view => ?_
      refine (dispatchLoop_relies s hc hhandle hcatch response view _).bind_left s.toGrading
        fun left => ?_
      refine (hshutdown response).bind_right s.toGrading fun _ => ?_
      exact finishDispatch_relies s hc hcatch response left
    · refine Relies.mono s.toGrading ?_ (Nat.zero_le _) (fun _ h => h) fun _ _ h => h
      refine (relies_lift (s.unrouted.triggerError s hc _ _)).bind_right s.toGrading fun _ => ?_
      exact relies_stop s.toGrading _
  obtain ⟨es, hgrew, h⟩ := hbody w.php w
  exact ⟨es, hgrew, fun hP hC => ⟨(h hP hC).1, (h hP hC).2.1⟩⟩

theorem dispatch_relies (w : World γ) (hw : U { w with depth := w.depth + 1 })
    (hC : Along C ({ w with depth := w.depth + 1 } : World γ).own (dispatchTrace call f w)) :
    dispatch call f w = dispatch call f' w ∧
      G (firstLeft w.php.globals.forwardLimit + 1) (dispatchTrace call f w) := by
  obtain ⟨es, hgrew, h⟩ := dispatchBody_relies s hc hhandle hcatch { w with depth := w.depth + 1 }
  have htrace := dispatchTrace_of_grew hc hgrew
  rw [htrace] at hC ⊢
  obtain ⟨hsame, hes⟩ := h hw hC
  refine ⟨?_, hes⟩
  unfold dispatch
  rw [hsame]

end

end

end Yaf
