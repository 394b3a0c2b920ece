import Yaf.Dispatcher.Dispatch

namespace Yaf
open Base Base.Run

/-- Which arguments a method forwards with at a visit, when it forwards. -/
abbrev Forwards := Bytes → Nat → Option (List Zval)

/-- A visit is counted, and the request forwarded. -/
def visit (forwards : Forwards) (name : Bytes) (php : Php Nat) : Php Nat :=
  match (forwards name php.user).bind (controllerForward php.request) with
  | none => { php with user := php.user + 1 }
  | some request => { php.setRequest request with user := php.user + 1 }

/-- An application whose controllers count their visits, may forward, and ask for no rendering. -/
def forwarder (forwards : Forwards) : Site → Script Nat
  | .method _ _ name _ => .step (visit forwards name) fun _ => .done (some (.bool false))
  | _ => .done none

def indexController (methods : List Bytes) : ClassEntry where
  name := lit "IndexController"
  isAbstract := false
  isController := true
  isAction := false
  functionTable := methods.map fun name => (name, [])
  properties := []

/-- The application has one controller, and the request is routed to it. -/
def forwarderPhp (methods : List Bytes) (limit : Int) : Php Nat where
  globals :=
    { directory := some (lit "app")
      ext := lit "php"
      lowcasePath := false
      nameSuffix := true
      nameSeparator := []
      actionPrefer := false
      stCompatible := false
      forwardLimit := limit
      throwException := true
      catchException := false
      viewDirectory := none }
  application := some ⟨[lit "Index"], none⟩
  dispatcher :=
    { defaults := sampleDefaults
      request := 0
      requestIsObject := true
      plugins := none
      router := .null
      view := none
      autoRender := true
      returnResponse := true
      instantlyFlush := false }
  requests := fun _ =>
    { freshRequest (lit "/") with
      module := .string (lit "Index")
      controller := .string (lit "Index")
      action := .string (lit "index")
      routed := true }
  objects := fun _ => []
  bodies := fun _ => []
  nextObject := 1
  classTable := [(lit "indexcontroller", indexController methods)]
  files := fun _ => .missing
  strerror := lit "No such file or directory"
  hasErrorHandler := false
  get := []
  pregMatch := fun _ _ => none
  output := []
  exception := none
  user := 0

/-- The state of that application between two visits, aimed at its action again. -/
structure Aimed (methods : List Bytes) (php : Php Nat) : Prop where
  directory : php.globals.directory = some (lit "app")
  suffix : php.globals.nameSuffix = true
  separator : php.globals.nameSeparator = []
  throws : php.globals.throwException = true
  catches : php.globals.catchException = false
  modules : php.modules = [lit "Index"]
  defaults : php.dispatcher.defaults = sampleDefaults
  plugins : php.dispatcher.plugins = none
  classTable : php.classTable = [(lit "indexcontroller", indexController methods)]
  names : php.request.names = ⟨.string (lit "Index"), .string (lit "Index"), .string (lit "index")⟩
  quiet : php.exception = none

theorem aimed_start (methods : List Bytes) (limit : Int) :
    Aimed methods (forwarderPhp methods limit) :=
  ⟨rfl, rfl, rfl, rfl, rfl, rfl, rfl, rfl, rfl, rfl, rfl⟩

section
variable {forwards : Forwards} {fuel room : Nat} {methods : List Bytes} {w : World Nat}

/-- A call of the application: a visit, or nothing at all. -/
theorem callAt_forwarder (site : Site) :
    callAt (forwarder forwards) fuel room site w =
      match site with
      | .method _ _ name _ => (.ok (some (.bool false)), w.update (visit forwards name))
      | _ => (.ok none, w) := by
  cases room <;> cases site <;> rfl

/-- A method of the application, called without an exception pending. -/
theorem userCall_visit (ce : ClassEntry) (this : Nat) (name : Bytes) (args : List Zval)
    (h : w.php.exception = none) :
    userCall (callAt (forwarder forwards) fuel room) (.method ce this name args) w =
      (.ok (some (.bool false)), (w.update (visit forwards name)).record
        (.called (.method ce this name args) w.php.request (visit forwards name w.php).request
          (visit forwards name w.php).dispatcher.defaults false)) := by
  have hcall : callAt (forwarder forwards) fuel room (.method ce this name args) w =
      (.ok (some (.bool false)), w.update (visit forwards name)) := callAt_forwarder _
  have hquiet : (visit forwards name w.php).exception = none := by
    unfold visit
    split <;> exact h
  change (if w.php.exception.isSome then _ else _ : Exec Nat (Option Zval)) w = _
  rw [h]
  change Run.bind (callAt _ _ _ _) _ w = _
  unfold Run.bind
  rw [hcall]
  have hthrew : (visit forwards name w.php).exception.isSome = false := by rw [hquiet]; rfl
  change (if (visit forwards name w.php).exception.isSome then _ else _ : Exec Nat (Option Zval))
    ((w.update (visit forwards name)).record (.called _ _ _ _
      (visit forwards name w.php).exception.isSome)) = _
  rw [hthrew]
  rfl

/-- The controller is loaded already. -/
theorem getController_aimed {call : Calls Nat} (h : Aimed methods w.php) (entry : HandleEntry)
    (appDir module : Bytes) (defModule : Bool) :
    getController call entry appDir module (lit "Index") defModule w =
      (.ok (some (indexController methods)), w) := by
  have hname : (affixedClass w.php.globals (lit "Index") (lit "Controller")).map toLower =
      lit "indexcontroller" := by
    rw [affixedClass, h.suffix, h.separator]
    decide
  have hfound : Table.find? w.php.classTable
      ((affixedClass w.php.globals (lit "Index") (lit "Controller")).map toLower) =
        some (indexController methods) := by
    rw [hname, h.classTable, Table.find?, if_pos rfl]
  unfold getController
  rw [bind_of_ok (show getPhp w = (.ok w.php, w) from rfl)]
  simp only [hfound]
  rfl

/-- The one action of the application forwards to itself, always. -/
def forwardsAlways : Forwards := fun _ _ => some [.string (lit "index")]

/-- What neither the application nor the dispatcher touches stays when the request does. -/
theorem Aimed.setRequest {php : Php Nat} (h : Aimed methods php) {request : Request}
    (hn : request.names = php.request.names) : Aimed methods (php.setRequest request) where
  directory := h.directory
  suffix := h.suffix
  separator := h.separator
  throws := h.throws
  catches := h.catches
  modules := h.modules
  defaults := h.defaults
  plugins := h.plugins
  classTable := h.classTable
  names := by rw [Php.request_setRequest, hn, h.names]
  quiet := h.quiet

theorem visit_aimed {php : Php Nat} (h : Aimed methods php) (name : Bytes) :
    Aimed methods (visit forwardsAlways name php) ∧
      (visit forwardsAlways name php).request.dispatched = false := by
  have hn : php.request.names =
      { php.request with action := .string (lit "index"), dispatched := false :
        Request }.names := by
    have hnames := h.names
    simp only [Request.names, Names.mk.injEq, true_and] at hnames ⊢
    exact hnames.2.2
  have hset := h.setRequest hn.symm
  refine ⟨⟨hset.directory, hset.suffix, hset.separator, hset.throws, hset.catches, hset.modules,
    hset.defaults, hset.plugins, hset.classTable, hset.names, hset.quiet⟩, ?_⟩
  change (php.setRequest _).request.dispatched = false
  rw [Php.request_setRequest]

/-- The objects and the views directory are nothing it depends on. -/
theorem Aimed.keep {php : Php Nat} (h : Aimed methods php) (objects : Nat → Table Bytes Zval)
    (bodies : Nat → Table Key Zval) (nextObject : Nat) (views : Option Bytes) :
    Aimed methods { php with
      objects := objects
      bodies := bodies
      nextObject := nextObject
      globals := { php.globals with viewDirectory := views } } :=
  ⟨h.directory, h.suffix, h.separator, h.throws, h.catches, h.modules, h.defaults, h.plugins,
    h.classTable, h.names, h.quiet⟩

theorem objectInit_aimed (h : Aimed methods w.php) :
    Meets (objectInit (indexController methods)) w
      (fun _ w' => Aimed methods w'.php ∧ w'.dispatched = w.dispatched) fun _ _ => False :=
  ⟨h.keep _ _ _ w.php.globals.viewDirectory, rfl⟩

theorem construct_aimed {call : Calls Nat} (h : Aimed [lit "indexaction"] w.php)
    (self response view : Nat) :
    Meets (controllerConstruct call (indexController [lit "indexaction"]) self response view) w
      (fun _ w' => Aimed [lit "indexaction"] w'.php ∧ w'.dispatched = w.dispatched)
      fun _ _ => False := by
  have hinit : (Table.find? (indexController [lit "indexaction"]).functionTable
      (lit "init")).isSome = false := by
    decide
  simp only [controllerConstruct, setProperty, updatePhp, getPhp, meets_bind, meets_get,
    meets_pure, meets_modify, hinit, Bool.and_false]
  exact ⟨h.keep _ _ _ w.php.globals.viewDirectory, rfl⟩

theorem runAction_aimed (h : Aimed [lit "indexaction"] w.php) (entry : HandleEntry)
    (self response view : Nat) :
    Meets (runAction (callAt (forwarder forwardsAlways) fuel room) entry (lit "app")
        (indexController [lit "indexaction"]) self true response view) w
      (fun b w' => b = true ∧ Aimed [lit "indexaction"] w'.php ∧ w'.dispatched = false)
      fun _ _ => False := by
  have haction : w.php.request.action = .string (lit "index") := congrArg Names.action h.names
  have hmethod : Table.find? (indexController [lit "indexaction"]).functionTable
      ((cstr (lit "index") ++ lit "action").map toLower) = some [] := by
    decide
  simp only [runAction, publishViews, setProperty, updatePhp, getPhp, meets_bind, meets_get,
    meets_pure, meets_modify, haction, hmethod]
  simp only [callWithParameters, getRequest, getPhp, meets_bind, meets_get, meets_pure]
  refine meets_of_eq (userCall_visit _ _ _ _ h.quiet) ?_
  have hviews := h.keep
    (w.php.setProperty self (lit "_name") (w.php.requests entry.request).controller).objects
    w.php.bodies w.php.nextObject (some (viewsDirectory (lit "app") [] true))
  obtain ⟨haimed, hdispatched⟩ :=
    visit_aimed hviews ((cstr (lit "index") ++ lit "action").map toLower)
  exact ⟨rfl, haimed, hdispatched⟩

theorem handle_aimed (h : Aimed [lit "indexaction"] w.php) (response view depth : Nat) :
    Meets (handle (callAt (forwarder forwardsAlways) fuel room) response view (depth + 1)) w
      (fun b w' => b = true ∧ Aimed [lit "indexaction"] w'.php ∧ w'.dispatched = false)
      fun _ _ => False := by
  simp only [handle, setDispatched, updateRequest, updatePhp, Yaf.record, getPhp, meets_bind,
    meets_get, meets_pure, meets_modify]
  obtain ⟨w₁, hw₁⟩ : ∃ w₁, w₁ = w.update fun php =>
      php.setRequest { php.request with dispatched := true } := ⟨_, rfl⟩
  have h₁ : Aimed [lit "indexaction"] w₁.php := hw₁ ▸ h.setRequest rfl
  have hup : w₁.dispatched = true := by
    rw [hw₁]
    change (w.php.setRequest _).request.dispatched = true
    rw [Php.request_setRequest]
  rw [← hw₁]
  have hmodule : (handleEntry w₁.php).names.module = .string (lit "Index") :=
    congrArg Names.module h₁.names
  have hcontroller : (handleEntry w₁.php).names.controller = .string (lit "Index") :=
    congrArg Names.controller h₁.names
  have htext : (Zval.string (lit "Index")).text? = some (lit "Index") := by
    decide
  have hdirectory : (handleEntry w₁.php).directory = some (lit "app") := h₁.directory
  have hdeclared : applicationIsModuleName (handleEntry w₁.php).modules (lit "Index") = true := by
    rw [show (handleEntry w₁.php).modules = [lit "Index"] from h₁.modules]
    decide
  have hdefault : ((handleEntry w₁.php).defaultModule == lit "Index") = true := by
    rw [show (handleEntry w₁.php).defaultModule = lit "Index" from
      congrArg DefaultNames.module h₁.defaults]
    decide
  rw [hdirectory]
  simp only [hmodule, hcontroller, htext, hdeclared, hdefault, Bool.not_true, Bool.false_eq_true,
    if_false, meets_bind]
  refine meets_of_eq (getController_aimed (w := w₁.record _) h₁ _ _ _ _) ?_
  simp only [meets_bind, meets_modify]
  refine (objectInit_aimed (w := (w₁.record _).record _) h₁).mono ?_ fun _ _ h => h.elim
  rintro self w₂ ⟨h₂, hdispatched₂⟩
  refine (construct_aimed h₂ self response view).mono ?_ fun _ _ h => h.elim
  rintro _ w₃ ⟨h₃, hdispatched₃⟩
  have hup₃ : w₃.php.request.dispatched = true := (hdispatched₃.trans hdispatched₂).trans hup
  simp only [meets_get, meets_pure, h₃.quiet, hup₃, Option.isSome_none, Bool.not_true,
    Bool.false_eq_true, if_false]
  exact runAction_aimed h₃ _ _ _ _

/-- Without plugins a phase of hooks leaves its own event only. -/
theorem hookPhase_aimed {call : Calls Nat} (h : Aimed methods w.php) (hook : Hook)
    (response : Nat) :
    Meets (hookPhase call fuel hook response) w (fun _ w' => w'.php = w.php) fun _ _ => False := by
  have hplugins : pluginHandle call hook response w = (.ok true, w) := by
    change Run.bind (callPlugins call hook response (w.php.dispatcher.plugins.getD [])) _ w = _
    rw [h.plugins]
    rfl
  simp only [hookPhase, within, meets_bind, meets_lift, meets_phase]
  refine meets_of_eq hplugins ?_
  change Meets (if w.php.exception.isSome then _ else pure ()) (w.record _) _ _
  rw [h.quiet]
  rfl

theorem handlePhase_aimed (h : Aimed [lit "indexaction"] w.php) (response view depth : Nat) :
    Meets (handlePhase (callAt (forwarder forwardsAlways) fuel room) (depth + 1) response view) w
      (fun _ w' => Aimed [lit "indexaction"] w'.php ∧ w'.dispatched = false)
      fun _ _ => False := by
  simp only [handlePhase, within, meets_bind, meets_lift, meets_phase]
  refine (handle_aimed h response view depth).mono ?_ fun _ _ h => h.elim
  rintro _ w' ⟨rfl, h', hd⟩
  exact ⟨h', hd⟩

/-- Its names are normal, so that fixing them changes nothing. -/
theorem fixDefault_aimed (h : Aimed methods w.php) :
    Meets fixDefault w (fun _ w' => Aimed methods w'.php ∧ w'.dispatched = w.dispatched)
      fun _ _ => False := by
  have hnormal : w.php.request.names.Normal := by
    rw [h.names]
    refine ⟨⟨_, rfl, ?_⟩, ⟨_, rfl, ?_⟩, ⟨_, rfl, ?_⟩⟩ <;> decide
  have hfixed : dispatcherFixDefault w.php.dispatcher.defaults w.php.request = w.php.request :=
    dispatcherFixDefault_of_normal hnormal
  refine ⟨h.setRequest (congrArg Request.names hfixed), ?_⟩
  change (w.php.setRequest _).request.dispatched = w.php.request.dispatched
  rw [Php.request_setRequest, hfixed]

theorem dispatcherInitView_aimed (h : Aimed methods w.php) :
    Meets dispatcherInitView w (fun _ w' => Aimed methods w'.php) fun _ _ => False := by
  simp only [dispatcherInitView, getPhp, meets_bind, meets_get, meets_pure]
  split
  · exact h
  · exact ⟨h.directory, h.suffix, h.separator, h.throws, h.catches, h.modules, h.defaults,
      h.plugins, h.classTable, h.names, h.quiet⟩

theorem responseInstance_aimed (h : Aimed methods w.php) :
    Meets responseInstance w
      (fun _ w' => Aimed methods w'.php ∧ w'.php.request = w.php.request) fun _ _ => False :=
  ⟨h.keep _ _ _ w.php.globals.viewDirectory, rfl⟩

theorem routeRequest_aimed {call : Calls Nat} (h : Aimed methods w.php)
    (hr : w.php.request.routed = true) (response : Nat) :
    Meets (routeRequest call fuel response) w (fun _ w' => Aimed methods w'.php)
      fun _ _ => False := by
  change Meets (if w.php.request.routed then within fixDefault else _) w _ _
  rw [if_pos hr, within, meets_lift]
  exact (fixDefault_aimed h).mono (fun _ _ h => h.1) fun _ _ h => h

/-- A turn of the loop leaves the request as it found it, not dispatched. -/
theorem dispatchTurn_aimed (h : Aimed [lit "indexaction"] w.php) (response view depth : Nat) :
    Meets (dispatchTurn (callAt (forwarder forwardsAlways) fuel room) (depth + 1) response view) w
      (fun _ w' => Aimed [lit "indexaction"] w'.php ∧ w'.dispatched = false)
      fun _ _ => False := by
  simp only [dispatchTurn, within, meets_bind, meets_lift]
  refine (hookPhase_aimed h .preDispatch response).mono (fun _ w₁ h₁ => ?_) fun _ _ h => h.elim
  refine (handlePhase_aimed (h₁ ▸ h) response view depth).mono ?_ fun _ _ h => h.elim
  rintro _ w₂ ⟨h₂, hd₂⟩
  refine (fixDefault_aimed h₂).mono ?_ fun _ _ h => h.elim
  rintro _ w₃ ⟨h₃, hd₃⟩
  refine (hookPhase_aimed h₃ .postDispatch response).mono (fun _ w₄ h₄ => ?_) fun _ _ h => h.elim
  refine ⟨h₄ ▸ h₃, ?_⟩
  rw [World.dispatched, h₄]
  exact hd₃.trans hd₂

/-- The loop uses up its counter, whatever it starts from. -/
theorem dispatchLoop_aimed (h : Aimed [lit "indexaction"] w.php) (response view depth left : Nat) :
    Meets
      (dispatchLoop (callAt (forwarder forwardsAlways) fuel room) (depth + 1) response view left)
      w (fun left' w' => left' = 0 ∧ Aimed [lit "indexaction"] w'.php ∧ w'.dispatched = false)
      fun _ _ => False := by
  induction left generalizing w with
  | zero =>
    simp only [dispatchLoop, meets_bind, meets_pure]
    exact (dispatchTurn_aimed h response view depth).mono (fun _ _ h => ⟨trivial, h⟩) fun _ _ h => h
  | succ left ih =>
    simp only [dispatchLoop, meets_bind]
    refine (dispatchTurn_aimed h response view depth).mono ?_ fun _ _ h => h
    rintro _ w' ⟨h', hd⟩
    change Meets (if w'.php.request.dispatched then pure (left + 1)
      else dispatchLoop _ _ response view left) w' _ _
    rw [if_neg (by simpa [World.dispatched] using hd)]
    exact ih h'

end

end Yaf
