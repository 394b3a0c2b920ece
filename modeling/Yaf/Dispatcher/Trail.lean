import Yaf.Dispatcher.Dispatch
import Yaf.Dispatcher.Visit

namespace Yaf
open Base Base.Run

/-- A relation a run of the extension's code keeps, when it keeps it at each event. Of what that
code does to the PHP state only one thing is asked: it never sets a default name. -/
structure Trail {γ : Type} (R : World γ → World γ → Prop) (Ev : Event → Prop) : Prop
    extends Chains R where
  php : ∀ w p, p.dispatcher.defaults = w.php.dispatcher.defaults → R w { w with php := p }
  record : ∀ w e, Ev e → R w (w.record e)

/-- What `yaf_dispatcher_handle` leaves in the log, and what it has checked by then. -/
inductive HandleEvent : Event → Prop where
  | enter (entry : HandleEntry) : HandleEvent (.enterHandle entry)
  | script {entry : HandleEntry} {appDir module : Bytes} (lowcasePath : Bool)
      (ext controller : Bytes) (hd : entry.directory = some appDir)
      (hg : entry.gate = some module) :
      HandleEvent (.openScript entry
        (controllersDirectory appDir module (entry.defaultModule == module))
        (autoloadPath lowcasePath ext
          (controllersDirectory appDir module (entry.defaultModule == module)) controller))
  | controller {entry : HandleEntry} {module : Bytes} (name : Bytes)
      (hg : entry.gate = some module) : HandleEvent (.newController entry name)

/-- A property of runs of the extension's code that its pieces have and their composition keeps. -/
structure Closed {γ : Type} (Ok : (α : Type) → Exec γ α → Prop) (Ev : Event → Prop) : Prop where
  pure : ∀ {α : Type} (a : α), Ok α (Pure.pure a)
  stop : ∀ {α : Type} (s : Stop), Ok α (Run.stop s)
  bind : ∀ {α β : Type} {m : Exec γ α} {f : α → Exec γ β}, Ok α m → (∀ a, Ok β (f a)) →
    Ok β (m >>= f)
  get : Ok (Php γ) getPhp
  update : ∀ {f : Php γ → Php γ},
    (∀ php, (f php).dispatcher.defaults = php.dispatcher.defaults) →
    (∀ php, (f php).request.names = php.request.names) → Ok Unit (updatePhp f)
  log : ∀ {e : Event}, Ev e → Ok Unit (Yaf.record e)

/-- The same for a property that pieces have when they leave the responses alone as well. -/
structure Frames {γ : Type} (Ok : (α : Type) → Exec γ α → Prop) (Ev : Event → Prop) : Prop where
  pure : ∀ {α : Type} (a : α), Ok α (Pure.pure a)
  stop : ∀ {α : Type} (s : Stop), Ok α (Run.stop s)
  bind : ∀ {α β : Type} {m : Exec γ α} {f : α → Exec γ β}, Ok α m → (∀ a, Ok β (f a)) →
    Ok β (m >>= f)
  get : Ok (Php γ) getPhp
  update : ∀ {f : Php γ → Php γ},
    (∀ php, (f php).dispatcher.defaults = php.dispatcher.defaults) →
    (∀ php, (f php).request.names = php.request.names) →
    (∀ php, (f php).bodies = php.bodies) → Ok Unit (updatePhp f)
  log : ∀ {e : Event}, Ev e → Ok Unit (Yaf.record e)

section
variable {γ : Type} {R : World γ → World γ → Prop} {Ev : Event → Prop} {call : Calls γ}

theorem Trail.get (t : Trail R Ev) : Within R (getPhp : Exec γ (Php γ)) :=
  within_bind t.toChains (within_get t.toChains) fun _ => within_pure t.toChains _

theorem Trail.update (t : Trail R Ev) {f : Php γ → Php γ}
    (hf : ∀ php, (f php).dispatcher.defaults = php.dispatcher.defaults) :
    Within R (updatePhp f) :=
  fun w => t.php w (f w.php) (hf w.php)

theorem Trail.log (t : Trail R Ev) {e : Event} (he : Ev e) :
    Within R (Yaf.record e : Exec γ Unit) :=
  fun w => t.record w e he

theorem Trail.pure (t : Trail R Ev) {α : Type} (a : α) : Within R (pure a : Exec γ α) :=
  within_pure t.toChains a

theorem Trail.stop (t : Trail R Ev) {α : Type} (s : Stop) : Within R (Run.stop s : Exec γ α) :=
  within_stop t.toChains s

theorem Trail.bind (t : Trail R Ev) {α β : Type} {m : Exec γ α} {f : α → Exec γ β}
    (hm : Within R m) (hf : ∀ a, Within R (f a)) : Within R (m >>= f) :=
  within_bind t.toChains hm hf

/-- It goes on from the state it has read. -/
theorem Trail.read (t : Trail R Ev) {β : Type} {f : Php γ → Exec γ β}
    (hf : ∀ php, Within R (f php)) : Within R (getPhp >>= f) :=
  t.bind t.get hf

theorem Trail.closed (t : Trail R Ev) : Closed (fun _ m => Within R m) Ev where
  pure := t.pure
  stop := t.stop
  bind := t.bind
  get := t.get
  update hd _ := t.update hd
  log := t.log

variable {Ok : (α : Type) → Exec γ α → Prop}

theorem Closed.frames (t : Closed Ok Ev) : Frames Ok Ev where
  pure := t.pure
  stop := t.stop
  bind := t.bind
  get := t.get
  update hd hn _ := t.update hd hn
  log := t.log

/-- It goes on from the state it has read. -/
theorem Closed.read (t : Closed Ok Ev) {β : Type} {f : Php γ → Exec γ β}
    (hf : ∀ php, Ok β (f php)) : Ok β (getPhp >>= f) :=
  t.bind t.get hf

/-- It goes on from the state it has read. -/
theorem Frames.read (t : Frames Ok Ev) {β : Type} {f : Php γ → Exec γ β}
    (hf : ∀ php, Ok β (f php)) : Ok β (getPhp >>= f) :=
  t.bind t.get hf

section
variable (t : Frames Ok Ev) (hu : ∀ site, Ok _ (userCall call site))
include t

theorem getRequest_closed : Ok _ (getRequest : Exec γ Request) :=
  t.read fun _ => t.pure _

theorem readProperty_closed {object : Nat} {name : Bytes} :
    Ok _ (readProperty object name : Exec γ (Option Zval)) :=
  t.read fun _ => t.pure _

theorem objectInit_closed {ce : ClassEntry} : Ok _ (objectInit ce : Exec γ Nat) := by
  unfold objectInit
  split
  · exact t.stop _
  · refine t.read fun _ => t.bind (t.update (fun _ => rfl) (fun _ => rfl) fun _ => rfl) fun _ => ?_
    exact t.pure _

theorem setProperty_closed {object : Nat} {name : Bytes} {value : Zval} :
    Ok _ (setProperty object name value : Exec γ Unit) :=
  t.update (fun _ => rfl) (fun _ => rfl) fun _ => rfl

theorem dispatcherInitView_closed : Ok _ (dispatcherInitView : Exec γ Nat) := by
  refine t.read fun php => ?_
  split
  · exact t.pure _
  · exact t.bind (t.update (fun _ => rfl) (fun _ => rfl) fun _ => rfl) fun _ => t.pure _

theorem publishViews_closed {appDir : Bytes} {module : Zval} {defModule : Bool} :
    Ok _ (publishViews appDir module defModule : Exec γ Unit) := by
  unfold publishViews
  dsimp only
  split
  · exact t.update (fun _ => rfl) (fun _ => rfl) fun _ => rfl
  · exact t.update (fun _ => rfl) (fun _ => rfl) fun _ => rfl
  · exact t.stop _

theorem announce_closed {made : Made} : Ok _ (announce made : Exec γ Zval) :=
  t.read fun _ => t.bind (publishViews_closed t) fun _ =>
    t.bind (setProperty_closed t) fun _ => t.pure _

theorem userCall_closed (hc : ∀ site, Ok _ (call site))
    (he : ∀ site before after defaults threw, Ev (.called site before after defaults threw))
    (site : Site) :
    Ok _ (userCall call site) := by
  refine t.read fun php => ?_
  split
  · exact t.pure _
  · refine t.bind (hc site) fun ret => t.read fun php' => ?_
    refine t.bind (t.log (he ..)) fun _ => ?_
    split <;> exact t.pure _

include hu

theorem exceptionError_closed : Ok _ (exceptionError call) := by
  have hclear : Ok _ (clearException : Exec γ Unit) :=
    t.update (fun _ => rfl) (fun _ => rfl) fun _ => rfl
  refine t.read fun php => ?_
  split
  · exact t.pure _
  · exact t.bind hclear fun _ => t.bind (hu _) fun _ => hclear

theorem recoverableError_closed {trigger : Trigger} :
    Ok _ (recoverableError call trigger) := by
  have hset : ∀ installed, Ok _ (setErrorHandler installed : Exec γ Unit) :=
    fun _ => t.update (fun _ => rfl) (fun _ => rfl) fun _ => rfl
  refine t.bind (exceptionError_closed t hu) fun _ => t.read fun php => ?_
  split
  · refine t.bind (hset _) fun _ => t.bind (hu _) fun ret => t.bind (hset _) fun _ => ?_
    split
    · exact t.stop _
    · exact t.pure _
    · refine t.read fun php' => ?_
      split
      · exact t.pure _
      · exact t.stop _
  · exact t.stop _

theorem triggerError_closed {type : YafErr} {message : Bytes} :
    Ok _ (triggerError call type message) := by
  refine t.read fun php => ?_
  split
  · exact t.update (fun _ => rfl) (fun _ => rfl) fun _ => rfl
  · split
    · exact t.stop _
    · refine t.bind (t.update (fun _ => rfl) (fun _ => rfl) fun _ => rfl) fun _ => ?_
      exact recoverableError_closed t hu

/-- An error is raised and the function returns this. -/
theorem fails_closed {α : Type} {type : YafErr} {message : Bytes} {a : α} :
    Ok _ (triggerError call type message >>= fun _ => (pure a : Exec γ α)) :=
  t.bind (triggerError_closed t hu) fun _ => t.pure a

theorem loaderImport_closed {path : Bytes} : Ok _ (loaderImport call path) := by
  refine t.read fun php => ?_
  split
  · exact t.pure _
  · exact t.bind (t.update (fun _ => rfl) (fun _ => rfl) fun _ => rfl) fun _ => t.pure _
  · exact t.bind (hu _) fun _ => t.pure _

theorem getController_closed {entry : HandleEntry} {appDir module controller : Bytes}
    {defModule : Bool}
    (hs : ∀ lowcasePath ext, Ev (.openScript entry (controllersDirectory appDir module defModule)
      (autoloadPath lowcasePath ext (controllersDirectory appDir module defModule) controller))) :
    Ok _ (getController call entry appDir module controller defModule) := by
  refine t.read fun php => ?_
  dsimp only
  split
  · exact t.pure _
  refine t.bind (t.log (hs _ _)) fun _ => ?_
  refine t.bind (loaderImport_closed t hu) fun loaded => ?_
  split
  · refine t.read fun php' => ?_
    split
    · split
      · exact t.pure _
      · exact fails_closed t hu
    · exact fails_closed t hu
  · exact t.read fun _ => fails_closed t hu

theorem controllerConstruct_closed {ce : ClassEntry} {self response view : Nat} :
    Ok _ (controllerConstruct call ce self response view) := by
  refine t.read fun php => ?_
  refine t.bind (setProperty_closed t) fun _ => t.bind (setProperty_closed t) fun _ => ?_
  refine t.bind (setProperty_closed t) fun _ => t.bind (setProperty_closed t) fun _ => ?_
  split
  · exact t.bind (hu _) fun _ => t.pure _
  · exact t.pure _

theorem actionClass_closed {class_ : Bytes} {ce : ClassEntry} :
    Ok _ (actionClass call class_ ce) := by
  unfold actionClass
  split
  · exact t.pure _
  · exact fails_closed t hu

theorem getMappedAction_closed {appDir controllerName : Bytes} {actionsMap : Table Key Zval}
    {action : Bytes} :
    Ok _ (getMappedAction call appDir controllerName actionsMap action) := by
  refine t.read fun php => ?_
  dsimp only
  split
  · exact actionClass_closed t hu
  split
  · refine t.bind (loaderImport_closed t hu) fun loaded => ?_
    split
    · refine t.read fun php' => ?_
      split
      · exact actionClass_closed t hu
      · exact fails_closed t hu
    · exact t.read fun _ => fails_closed t hu
  · exact t.stop _
  · exact fails_closed t hu

theorem getCompatibleAction_closed {appDir module : Bytes} {defModule : Bool} {action : Bytes} :
    Ok _ (getCompatibleAction call appDir module defModule action) := by
  refine t.read fun php => ?_
  dsimp only
  split
  · exact t.pure _
  refine t.bind (loaderImport_closed t hu) fun loaded => ?_
  split
  · refine t.read fun php' => ?_
    split
    · split
      · exact t.pure _
      · exact fails_closed t hu
    · exact fails_closed t hu
  · exact t.read fun _ => fails_closed t hu

theorem getAction_closed {appDir : Bytes} {ce : ClassEntry} {controller : Nat} {module : Zval}
    {defModule : Bool} {action : Bytes} :
    Ok _ (getAction call appDir ce controller module defModule action) := by
  refine t.bind (readProperty_closed t) fun actions => ?_
  split
  · exact getMappedAction_closed t hu
  refine t.read fun php => ?_
  split
  · split
    · exact getCompatibleAction_closed t hu
    · split
      · exact getCompatibleAction_closed t hu
      · exact t.stop _
  · exact fails_closed t hu

theorem callWithParameters_closed {ce : ClassEntry} {object : Nat} {method : Bytes}
    {names : List Bytes} : Ok _ (callWithParameters call ce object method names) := by
  refine t.bind (getRequest_closed t) fun request => ?_
  split
  · exact t.stop _
  · exact hu _

theorem callRoute_closed (hr : ∀ request, Ok _ (updateRequest fun _ => request)) {key : Key}
    {route : RouteObject} : Ok _ (callRoute call key route) := by
  refine t.read fun php => ?_
  split
  · exact t.pure _
  split
  · exact hu _
  · split
    · exact t.stop _
    · exact t.bind (hr _) fun _ => t.pure _

theorem routerRoute_closed (hr : ∀ request, Ok _ (updateRequest fun _ => request))
    {routes : List (Key × RouteObject)} : Ok _ (routerRoute call routes) := by
  induction routes with
  | nil => exact t.pure _
  | cons entry routes ih =>
    refine t.bind (callRoute_closed t hu hr) fun ret => ?_
    split
    · have hcurrent : Ok _ (setCurrentRoute entry.1 : Exec γ Unit) :=
        t.update (fun php => by split <;> rfl) (fun php => by split <;> rfl)
          fun php => by split <;> rfl
      have hrouted : Ok _ (updateRequest fun request => { request with routed := true }) :=
        t.update (fun _ => rfl) (fun php => by rw [Php.request_setRequest]; rfl) fun _ => rfl
      exact t.bind hcurrent fun _ => t.bind hrouted fun _ => t.pure _
    · exact ih

theorem dispatcherRoute_closed (hr : ∀ request, Ok _ (updateRequest fun _ => request)) :
    Ok _ (dispatcherRoute call) := by
  refine t.read fun php => ?_
  split
  · exact t.pure _
  · exact t.bind (routerRoute_closed t hu hr) fun _ => t.pure _
  · refine t.bind (hu _) fun ret => ?_
    split
    · exact t.pure _
    · exact fails_closed t hu

theorem callPlugins_closed {hook : Hook} {response : Nat} {plugins : List Plugin} :
    Ok _ (callPlugins call hook response plugins) := by
  induction plugins with
  | nil => exact t.pure _
  | cons plugin plugins ih =>
    rw [callPlugins_cons]
    split
    · exact t.bind (hu _) fun _ => ih
    · exact ih

theorem pluginHandle_closed {hook : Hook} {response : Nat} :
    Ok _ (pluginHandle call hook response) :=
  t.read fun _ => t.bind (callPlugins_closed t hu) fun _ => t.pure _

theorem callExecutor_closed {made : Made} {ce : ClassEntry} {executor : Nat}
    {method action : Bytes} {names : List Bytes} :
    Ok _ (callExecutor call made ce executor method action names) :=
  t.read fun _ => t.bind (callWithParameters_closed t hu) fun _ => t.read fun _ => t.pure _

theorem callActionClass_closed {response view : Nat} {made : Made} {ce : ClassEntry}
    {action : Bytes} : Ok _ (callActionClass call response view made ce action) := by
  unfold callActionClass
  split
  · exact t.pure _
  refine t.bind (objectInit_closed t) fun executor => ?_
  refine t.bind (controllerConstruct_closed t hu) fun _ => t.read fun php => ?_
  refine t.bind (setProperty_closed t) fun _ => t.bind (setProperty_closed t) fun _ => ?_
  exact callExecutor_closed t hu

theorem callAction_closed {response view : Nat} {made : Made} {module : Zval} :
    Ok _ (callAction call response view made module) := by
  refine t.read fun php => ?_
  unfold callNamed
  split
  · split
    · exact callExecutor_closed t hu
    · refine t.bind (getAction_closed t hu) fun ce => ?_
      split
      · exact t.pure _
      · exact callActionClass_closed t hu
  · exact t.stop _

/-- What a controller is loaded and constructed by: the conditions of an event were checked. -/
theorem openController_closed {entry : HandleEntry}
    (hs : ∀ appDir module lowcasePath ext controller, entry.directory = some appDir →
      entry.gate = some module →
      Ev (.openScript entry (controllersDirectory appDir module (entry.defaultModule == module))
        (autoloadPath lowcasePath ext
          (controllersDirectory appDir module (entry.defaultModule == module)) controller)))
    (hn : ∀ module name, entry.gate = some module → Ev (.newController entry name))
    {response view : Nat} : Ok _ (openController call response view entry) := by
  unfold openController
  split
  · exact fails_closed t hu
  rename_i appDir hd
  split
  · exact fails_closed t hu
  rename_i module hm
  split
  · exact fails_closed t hu
  rename_i hdeclared
  split
  · exact fails_closed t hu
  have hg : entry.gate = some module := by
    simp only [HandleEntry.gate, hm]
    simpa using hdeclared
  refine t.bind (getController_closed t hu fun _ _ => hs _ _ _ _ _ hd hg) fun ce => ?_
  split
  · exact t.pure _
  refine t.bind (t.log (hn _ _ hg)) fun _ => t.bind (objectInit_closed t) fun self => ?_
  exact t.bind (controllerConstruct_closed t hu) fun _ => t.pure _

theorem makeController_closed (he : ∀ e, HandleEvent e → Ev e) {response view : Nat} :
    Ok _ (makeController call response view) := by
  have hset : Ok _ (setDispatched true : Exec γ Unit) :=
    t.update (fun _ => rfl) (fun php => by rw [Php.request_setRequest]; rfl) fun _ => rfl
  refine t.bind hset fun _ => t.read fun php => ?_
  refine t.bind (t.log (he _ (.enter _))) fun _ => ?_
  exact openController_closed t hu (fun _ _ _ _ _ hd hg => he _ (.script _ _ _ hd hg))
    fun _ _ hg => he _ (.controller _ hg)

/-- The step of every run: whatever a call of `yaf_dispatcher_handle` does, it does by events
whose conditions it has checked. -/
theorem handleVisit_closed (he : ∀ e, HandleEvent e → Ev e) {response view fuel : Nat} :
    Ok _ (handleVisit call response view fuel) := by
  induction fuel with
  | zero => exact t.stop _
  | succ fuel ih =>
    refine t.bind (makeController_closed t hu he) fun made => ?_
    split
    · exact t.pure _
    refine t.read fun php => ?_
    split
    · exact t.pure _
    split
    · exact ih
    · exact t.bind (announce_closed t) fun _ => callAction_closed t hu

end

section
variable (t : Closed Ok Ev) (hu : ∀ site, Ok _ (userCall call site))
include t

theorem responseInstance_closed : Ok _ (responseInstance : Exec γ Nat) :=
  t.read fun _ => t.bind (t.update (fun _ => rfl) fun _ => rfl) fun _ => t.pure _

theorem responseAppend_closed {response : Nat} {body : Bytes} :
    Ok _ (responseAppend response body : Exec γ Unit) := by
  unfold responseAppend
  split
  · exact t.pure _
  · exact t.update (fun _ => rfl) fun _ => rfl

include hu

theorem renderAction_closed {ce : ClassEntry} {executor : Nat} {action : Bytes}
    {response : Nat} : Ok _ (renderAction call ce executor action response) := by
  refine t.bind (readProperty_closed t.frames) fun render => t.read fun php => ?_
  split
  · split
    · refine t.bind (hu _) fun ret => ?_
      split
      · exact t.pure _
      · exact t.pure _
      · exact t.bind (responseAppend_closed t) fun _ => t.pure _
      · exact t.pure _
    · refine t.bind (hu _) fun ret => ?_
      split <;> exact t.pure _
  · exact t.pure _

theorem afterAction_closed {ce : ClassEntry} {executor : Nat} {action : Bytes} {response : Nat}
    {ret : Option Zval} : Ok _ (afterAction call ce executor action response ret) := by
  unfold afterAction
  split
  · exact t.pure _
  · exact t.pure _
  · exact renderAction_closed t hu

theorem afterVisit_closed {response : Nat} {visit : Option (Visit γ)} :
    Ok _ (afterVisit call response visit) := by
  cases visit with
  | none => exact t.pure _
  | some visit => exact afterAction_closed t hu

theorem runAction_closed {response view : Nat} (made : Made) :
    Ok _ (runAction call made.entry made.appDir made.ce made.self made.defModule response
      view) := by
  rw [runAction_eq]
  refine t.bind ?_ fun _ => afterVisit_closed t hu
  exact t.bind (announce_closed t.frames) fun _ => callAction_closed t.frames hu

theorem handle_closed (he : ∀ e, HandleEvent e → Ev e) {response view fuel : Nat} :
    Ok _ (handle call response view fuel) := by
  rw [handle_eq_visit]
  exact t.bind (handleVisit_closed t.frames hu he) fun _ => afterVisit_closed t hu

end

end

end Yaf
