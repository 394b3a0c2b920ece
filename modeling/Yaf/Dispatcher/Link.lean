import Yaf.Dispatcher.Underway
import Yaf.Route.NamedPath

namespace Yaf
open Base Base.Run

variable {γ : Type}

/-- The entry for these names. -/
def Php.entryFor (php : Php γ) (names : Names) : HandleEntry :=
  ⟨php.dispatcher.request, names, php.globals.directory, php.modules,
    php.dispatcher.defaults.module⟩

/-- The class that is looked up for a controller. -/
def Php.controllerClass (php : Php γ) (controller : Bytes) : Option ClassEntry :=
  Table.find? php.classTable
    ((affixedClass php.globals controller (lit "Controller")).map toLower)

/-- What is opened first for a controller: its class when it is there, and its script when not. -/
def Php.opened (php : Php γ) (entry : HandleEntry) (appDir module controller : Bytes) : Event :=
  match php.controllerClass controller with
  | some ce => .newController entry ce.name
  | none =>
    .openScript entry (controllersDirectory appDir module (entry.defaultModule == module))
      (autoloadPath php.globals.lowcasePath php.globals.ext
        (controllersDirectory appDir module (entry.defaultModule == module)) controller)

section handle
variable {call : Calls γ} {response view fuel : Nat} {w : World γ}
  {appDir module controller : Bytes}

theorem getController_found {entry : HandleEntry} {defModule : Bool} {ce : ClassEntry}
    (hclass : w.php.controllerClass controller = some ce) :
    getController call entry appDir module controller defModule w = (.ok (some ce), w) := by
  unfold Php.controllerClass at hclass
  unfold getController
  rw [read_run]
  simp only [hclass]
  rfl

/-- Behind the gate the controller is looked up first of all. -/
theorem openController_opens_first (hu : ∀ site, Within LogGrows (userCall call site))
    {entry : HandleEntry} (hdir : entry.directory = some appDir)
    (hmodule : entry.names.module = .string module) (hm : module ≠ [])
    (declared : applicationIsModuleName entry.modules module = true)
    (hcontroller : entry.names.controller = .string controller) (hc : controller ≠ []) :
    w.log ++ [(w.depth, w.php.opened entry appDir module controller)] <+:
      (openController call response view entry w).2.log := by
  have t : Frames (fun _ m => Within LogGrows m) fun _ => True :=
    (logGrows_trail (γ := γ)).closed.frames
  have hrest : ∀ ce : ClassEntry, Within LogGrows (objectInit ce >>= fun self =>
      controllerConstruct call ce self response view >>= fun _ =>
        (pure (some ⟨entry, appDir, module, controller, ce, self⟩) : Exec γ (Option Made))) :=
    fun ce => t.bind (objectInit_closed t) fun self =>
      t.bind (controllerConstruct_closed t hu) fun _ => t.pure _
  unfold openController
  simp only [hdir, Zval.text?_eq_some.mpr ⟨hmodule, hm⟩, declared, Bool.not_true,
    Bool.false_eq_true, if_false, Zval.text?_eq_some.mpr ⟨hcontroller, hc⟩]
  cases hclass : w.php.controllerClass controller with
  | some ce =>
    apply grows_after (getController_found hclass)
    refine List.IsPrefix.trans ?_ (hrest ce (w.record (.newController entry ce.name)))
    unfold Php.opened
    rw [hclass]
    exact List.prefix_rfl
  | none =>
    apply grows_first
    · unfold Php.opened
      rw [hclass]
      unfold Php.controllerClass at hclass
      unfold getController
      rw [read_run]
      simp only [hclass]
      apply grows_record
      refine t.bind (loaderImport_closed t hu) fun loaded => ?_
      split
      · refine t.read fun php => ?_
        split
        · split
          · exact t.pure _
          · exact fails_closed t hu
        · exact fails_closed t hu
      · exact t.read fun _ => fails_closed t hu
    · intro ce
      cases ce with
      | none => exact t.pure _
      | some ce => exact t.bind (t.log trivial) fun _ => hrest ce

/-- A handle call is entered with the flag up. -/
theorem makeController_entered : makeController call response view w =
    openController call response view (w.php.entryFor w.php.request.names)
      ((w.update fun php => php.setRequest { php.request with dispatched := true }).record
        (.enterHandle (w.php.entryFor w.php.request.names))) := by
  let w₁ := w.update fun php => php.setRequest { php.request with dispatched := true }
  have hentry : handleEntry w₁.php = w.php.entryFor w.php.request.names := by
    unfold handleEntry Php.entryFor
    rw [show w₁.php.request = _ from Php.request_setRequest _ _]
    rfl
  have hmake : makeController call response view w =
      openController call response view (handleEntry w₁.php)
        (w₁.record (.enterHandle (handleEntry w₁.php))) := rfl
  rw [hmake, hentry]

/-- A handle call for a declared module is entered and opens the controller it was entered for. -/
theorem handle_opens_first (hu : ∀ site, Within LogGrows (userCall call site)) {names : Names}
    (hnames : w.php.request.names = names) (hdir : w.php.globals.directory = some appDir)
    (hmodule : names.module = .string module) (hm : module ≠ [])
    (declared : applicationIsModuleName w.php.modules module = true)
    (hcontroller : names.controller = .string controller) (hc : controller ≠ []) :
    w.log ++ [(w.depth, .enterHandle (w.php.entryFor names)),
        (w.depth, w.php.opened (w.php.entryFor names) appDir module controller)] <+:
      (handle call response view (fuel + 1) w).2.log := by
  have t := (logGrows_trail (γ := γ)).closed
  subst hnames
  rw [handle_eq_visit]
  apply grows_first
  · rw [handleVisit]
    apply grows_first
    · rw [makeController_entered]
      refine List.IsPrefix.trans ?_
        (openController_opens_first hu hdir hmodule hm declared hcontroller hc)
      rw [show [(w.depth, Event.enterHandle _), (w.depth, w.php.opened _ _ _ _)] =
        [_] ++ [_] from rfl, ← List.append_assoc]
      exact List.prefix_rfl
    · intro made
      cases made with
      | none => exact t.pure _
      | some made =>
        refine t.read fun php => ?_
        split
        · exact t.pure _
        split
        · exact handleVisit_closed t.frames hu fun _ _ => trivial
        · exact t.bind (announce_closed t.frames) fun _ => callAction_closed t.frames hu
  · intro visit
    exact afterVisit_closed t hu

end handle

/-- What a link leads to: a declared module and a controller with names that are not empty. -/
structure LinkTarget (php : Php γ) (names : Names) (appDir module controller : Bytes) : Prop where
  directory : php.globals.directory = some appDir
  moduleSlot : names.module = .string module
  module_ne_nil : module ≠ []
  declared : applicationIsModuleName php.modules module = true
  controllerSlot : names.controller = .string controller
  controller_ne_nil : controller ≠ []

/-- The log begins with the one of `w₀`, then phases, then a handle call for these names and what it
opens first for their controller. -/
def OpensFirst (w₀ : World γ) (names : Names) (appDir module controller : Bytes)
    (log : List (Nat × Event)) : Prop :=
  ∃ es, (∀ e ∈ es, ∃ run, e = (w₀.depth, .phase run)) ∧
    w₀.log ++ es ++ [(w₀.depth, .enterHandle (w₀.php.entryFor names)),
      (w₀.depth, w₀.php.opened (w₀.php.entryFor names) appDir module controller)] <+: log

section underway
variable {call : Calls γ} {fuel : Nat} {w₀ w : World γ} {r : Request}
  {appDir module controller : Bytes}

theorem OpensFirst.mono (w₀ : World γ) {names : Names} (log log' : List (Nat × Event))
    (h : OpensFirst w₀ names appDir module controller log) (hlog : log <+: log') :
    OpensFirst w₀ names appDir module controller log' := by
  obtain ⟨es, hes, hfirst⟩ := h
  exact ⟨es, hes, hfirst.trans hlog⟩

theorem Underway.modules (h : Underway w₀ r w) : w.php.modules = w₀.php.modules := by
  unfold Php.modules
  rw [h.application]

theorem Underway.entryFor (h : Underway w₀ r w) (names : Names) :
    w.php.entryFor names = w₀.php.entryFor names := by
  unfold Php.entryFor
  rw [h.globals, h.modules, h.defaults, h.slot]

theorem Underway.controllerClass (h : Underway w₀ r w) (controller : Bytes) :
    w.php.controllerClass controller = w₀.php.controllerClass controller := by
  unfold Php.controllerClass
  rw [h.globals, h.classTable]

/-- A handle call goes by what it finds, which is as it was before the phases. -/
theorem Underway.opensFirst (hu : ∀ site, Within LogGrows (userCall call site))
    (h : Underway w₀ r w) (hl : LinkTarget w₀.php r.names appDir module controller)
    (response view : Nat) :
    OpensFirst w₀ r.names appDir module controller
      (handle call response view (fuel + 1) w).2.log := by
  obtain ⟨es, hes, hphases⟩ := h.phases
  have hdir : w.php.globals.directory = some appDir := by
    rw [h.globals, hl.directory]
  have hmod : applicationIsModuleName w.php.modules module = true := by
    rw [h.modules, hl.declared]
  have hfirst : _ <+: (handle call response view (fuel + 1) w).2.log :=
    handle_opens_first hu h.named hdir hl.moduleSlot hl.module_ne_nil hmod hl.controllerSlot
      hl.controller_ne_nil
  refine ⟨es, hphases, ?_⟩
  unfold Php.opened at hfirst ⊢
  rwa [h.entryFor, hes, h.depth, h.controllerClass, h.globals] at hfirst

end underway

/-- The names of a link, with the default for the module it does not name. -/
def linkNames (defaults : DefaultNames) (module : Option Bytes) (controller action : Bytes) :
    Names :=
  ⟨.string ((module.map fixModule).getD defaults.module), .string (fixController controller),
    .string (fixAction action)⟩

section link
variable {defaults : DefaultNames} {modules : List Bytes} {path : NamedPath} {request : Request}

theorem applicationIsModuleName_fixModule (modules : List Bytes) (m : Bytes) :
    applicationIsModuleName modules (fixModule m) = applicationIsModuleName modules m := by
  have hm : (fixModule m).map toLower = m.map toLower := by
    cases m with
    | nil => rfl
    | cons d m => simp [fixModule, toLower_toUpper, toLower_toLower, Function.comp_def]
  unfold applicationIsModuleName equalsCi
  rw [hm]

theorem Requested.routes {w : World γ} {path : NamedPath} {appDir : Bytes}
    (h : Requested w path.uri appDir) (hpath : path.Readable w.php.modules) :
    routeStaticRoute w.php.modules w.php.globals.actionPrefer w.php.request =
      (true, path.routed w.php.request) := by
  rw [routeStaticRoute, h.uri, hpath.route]

/-- What a path named is settled to. -/
theorem NamedPath.Readable.settled (h : path.Readable modules)
    (hfresh : path.module = none → request.module.text? = none) :
    (dispatcherFixDefault defaults (path.routed request)).names =
      linkNames defaults path.module path.controller path.action := by
  obtain ⟨module, c, a, pairs⟩ := path
  have hc : fixName fixController defaults.controller (.string c) = .string (fixController c) :=
    fixName_string (h.named c (by simp [names])).nonempty
  have ha : fixName fixAction defaults.action (.string a) = .string (fixAction a) :=
    fixName_string (h.named a (by simp [names])).nonempty
  have hm : fixName fixModule defaults.module (setName request.module module) =
      .string ((module.map fixModule).getD defaults.module) := by
    cases module with
    | none => rw [setName, fixName, hfresh rfl, Option.map_none, Option.getD_none]
    | some m => exact fixName_string (h.named m (by simp [names])).nonempty
  simp only [dispatcherFixDefault, routed, Request.names, hm, hc, ha, linkNames]

/-- A path leads to the module it names, or to the default one. -/
theorem NamedPath.Readable.target {php : Php γ} {appDir : Bytes} (h : path.Readable php.modules)
    (hdir : php.globals.directory = some appDir)
    (hdefault : path.module = none → defaults.module ≠ [] ∧
      applicationIsModuleName php.modules defaults.module = true) :
    LinkTarget php (linkNames defaults path.module path.controller path.action) appDir
      ((path.module.map fixModule).getD defaults.module) (fixController path.controller) := by
  obtain ⟨module, c, a, pairs⟩ := path
  have hc : fixController c ≠ [] := fun hnil =>
    (h.named c (by simp [names])).nonempty (fixController_eq_nil c hnil)
  cases module with
  | none => exact ⟨hdir, rfl, (hdefault rfl).1, (hdefault rfl).2, rfl, hc⟩
  | some m =>
    have hm : fixModule m ≠ [] := fun hnil =>
      (h.named m (by simp [names])).nonempty (fixModule_eq_nil m hnil)
    refine ⟨hdir, rfl, hm, ?_, rfl, hc⟩
    exact (applicationIsModuleName_fixModule _ m).trans (h.module m rfl)

end link

/-- A link the static route assembled, requested where no other route and no plugin comes before it,
opens the controller it was made for before anything but phases. -/
theorem assembled_link_opens (app : Site → Script γ) (fuel room : Nat) {w : World γ} {info : Info}
    {module : Option Bytes} {path c a appDir : Bytes} (h : Requested w path appDir)
    (hlink : routeStaticAssemble info none = .ok path)
    (hmodule : Table.find? info assembleModuleFormat = module)
    (hcontroller : Table.find? info assembleControllerFormat = some c)
    (haction : Table.find? info assembleActionFormat = some a)
    (hm : ∀ m ∈ module, PathName m) (hc : PathName c) (ha : PathName a)
    (hl : a.getLast? ≠ some blank)
    (hfresh : module = none → w.php.request.module.text? = none ∧
      w.php.dispatcher.defaults.module ≠ [])
    (declared : applicationIsModuleName w.php.modules
      (module.getD w.php.dispatcher.defaults.module) = true) :
    OpensFirst { w with depth := w.depth + 1 } (linkNames w.php.dispatcher.defaults module c a)
      appDir ((module.map fixModule).getD w.php.dispatcher.defaults.module) (fixController c)
      (dispatch (callAt app (fuel + 1) room) (fuel + 1) w).2.log := by
  let link : NamedPath := ⟨module, c, a, []⟩
  have huri : link.uri = path := by
    simp only [routeStaticAssemble, assemblePath, hmodule, hcontroller, haction] at hlink
    rw [← Except.ok.inj hlink]
    cases module with
    | none => simp [link, NamedPath.uri, NamedPath.names, pairsText]
    | some m => simp [link, NamedPath.uri, NamedPath.names, pairsText]
  have hread : link.Readable w.php.modules :=
    NamedPath.readable_of_names (fun m hmem => ⟨hm m hmem, by cases hmem; exact declared⟩) hc ha hl
  have hnames : (dispatcherFixDefault w.php.dispatcher.defaults (link.routed w.php.request)).names =
      linkNames w.php.dispatcher.defaults module c a :=
    hread.settled fun hnone => (hfresh hnone).1
  have htarget : LinkTarget w.php (linkNames w.php.dispatcher.defaults module c a) appDir
      ((module.map fixModule).getD w.php.dispatcher.defaults.module) (fixController c) :=
    hread.target h.directory fun hnone => ⟨(hfresh hnone).2, by cases hnone; exact declared⟩
  subst huri
  have hu := userCall_grows app (fuel + 1) room
  refine dispatch_first hu (OpensFirst.mono { w with depth := w.depth + 1 }) h (h.routes hread) ?_
  intro response view w' h'
  rw [← hnames] at htarget ⊢
  exact h'.opensFirst hu htarget response view

/-- An application in `/a` with the module `M`. -/
def linkPhp (path : Bytes) : Php Unit :=
  { routingPhp (routerInstance none) (freshRequest path) with
    globals := ⟨some [47, 97], lit "php", false, true, [], false, false, 5, true, false, none⟩
    application := some ⟨[[77]], none⟩ }

theorem linkPhp_requested (path : Bytes) :
    Requested (World.start (linkPhp path)) path [47, 97] where
  uri := stripBaseUri_fresh path
  unrouted := rfl
  isObject := rfl
  static := ⟨routerInstance none, [(.name (lit "_default"), .static)], .name (lit "_default"),
    rfl, rfl, rfl⟩
  unplugged := rfl
  calm := rfl
  directory := rfl

/-- The names `m`, `c` and `a` open the controller `C` of the module `M`. -/
theorem assembled_link_opens_sample :
    let w := World.start (linkPhp (lit "/m/c/a"))
    OpensFirst { w with depth := 1 } ⟨.string [77], .string [67], .string [97]⟩ [47, 97] [77] [67]
      (dispatch (callAt (fun _ => .done none) 1 0) 1 w).2.log := by
  have hlink : routeStaticAssemble [(assembleModuleFormat, [109]),
      (assembleControllerFormat, [99]), (assembleActionFormat, [97])] none =
      .ok (lit "/m/c/a") := rfl
  exact assembled_link_opens (fun _ => .done none) 0 0 (linkPhp_requested _) hlink rfl rfl rfl
    (fun m hm => Option.some.inj hm ▸ PathName.sample 109 (by decide))
    (PathName.sample 99 (by decide)) (PathName.sample 97 (by decide)) (by decide) nofun (by decide)

end Yaf
