import Yaf.Base.LastWord
import Yaf.Dispatcher.Forwarder
import Yaf.Dispatcher.Settling

namespace Yaf
open Base Base.Run

/-- The names that the arguments of `forward` set. -/
structure Target where
  module : Option Zval
  controller : Option Zval
  action : Option Zval

def forwardTarget : List Zval → Target
  | [action] => ⟨none, none, some action⟩
  | [action, .array _] => ⟨none, none, some action⟩
  | [controller, action] => ⟨none, some controller, some action⟩
  | [controller, action, .array _] => ⟨none, some controller, some action⟩
  | [module, controller, action] => ⟨some module, some controller, some action⟩
  | [module, controller, action, _] => ⟨some module, some controller, some action⟩
  | _ => ⟨none, none, none⟩

/-- The names a call of `forward` sets are its arguments as they come; the others stay. -/
theorem controllerForward_names {request request' : Request} {args : List Zval}
    (hf : controllerForward request args = some request') :
    request'.module = (forwardTarget args).module.getD request.module ∧
      request'.controller = (forwardTarget args).controller.getD request.controller ∧
      request'.action = (forwardTarget args).action.getD request.action := by
  unfold controllerForward at hf
  -- one case for each arity and kind of the last argument
  split at hf
  · split at hf
    · obtain rfl := Option.some.inj hf
      simp [forwardTarget]
    · cases hf
  · split at hf
    · obtain rfl := Option.some.inj hf
      simp [forwardTarget]
    · obtain rfl := Option.some.inj hf
      simp [forwardTarget]
    · cases hf
  · split at hf
    · obtain rfl := Option.some.inj hf
      simp [forwardTarget]
    · obtain rfl := Option.some.inj hf
      simp [forwardTarget]
    · cases hf
  · split at hf
    · obtain rfl := Option.some.inj hf
      simp [forwardTarget]
    · cases hf
  · cases hf

/-- A module the exception handler can go on with: it is replaced, or normal already. -/
def ModuleFits (module : Zval) : Prop := module.text? = none ∨ NormalSlot fixModule module

/-- The module among the arguments of `forward` is one the exception handler can go on with. -/
def ModuleArguments (args : List Zval) : Prop :=
  ∀ module ∈ (forwardTarget args).module, ModuleFits module

/-- The controller and the action among the arguments of `forward` are in normal form. -/
def TargetArguments (args : List Zval) : Prop :=
  (∀ controller ∈ (forwardTarget args).controller, NormalSlot fixController controller) ∧
    ∀ action ∈ (forwardTarget args).action, NormalSlot fixAction action

/-- The names among the arguments of `forward` are in normal form. -/
def NormalArguments (args : List Zval) : Prop :=
  (∀ module ∈ (forwardTarget args).module, NormalSlot fixModule module) ∧ TargetArguments args

/-- The controller and the action are in normal form. -/
def TargetNormal (names : Names) : Prop :=
  NormalSlot fixController names.controller ∧ NormalSlot fixAction names.action

theorem names_normal_iff (names : Names) :
    names.Normal ↔ NormalSlot fixModule names.module ∧ TargetNormal names :=
  ⟨fun h => ⟨h.module, h.controller, h.action⟩, fun h => ⟨h.1, h.2.1, h.2.2⟩⟩

/-- A slot that is set has what its argument has. -/
theorem getD_iff {S : Zval → Prop} {given : Option Zval} {old : Zval} (h : S old) :
    S (given.getD old) ↔ ∀ z ∈ given, S z := by
  cases given with
  | none => simp [h]
  | some z => simp

section
variable {request request' : Request} {args : List Zval}

/-- From a module that fits a forward leads to one exactly when its argument is one. -/
theorem controllerForward_module (h : ModuleFits request.module)
    (hf : controllerForward request args = some request') :
    ModuleFits request'.module ↔ ModuleArguments args := by
  rw [(controllerForward_names hf).1]
  exact getD_iff h

theorem controllerForward_target (h : TargetNormal request.names)
    (hf : controllerForward request args = some request') :
    TargetNormal request'.names ↔ TargetArguments args := by
  obtain ⟨-, hcontroller, haction⟩ := controllerForward_names hf
  have hc : NormalSlot fixController request'.controller ↔ _ :=
    hcontroller ▸ getD_iff (S := NormalSlot fixController) h.1
  have ha : NormalSlot fixAction request'.action ↔ _ :=
    haction ▸ getD_iff (S := NormalSlot fixAction) h.2
  exact and_congr hc ha

/-- From normal names a forward leads to normal names exactly when its arguments are normal. -/
theorem controllerForward_normal (h : request.names.Normal)
    (hf : controllerForward request args = some request') :
    request'.names.Normal ↔ NormalArguments args := by
  obtain ⟨hmodule, htarget⟩ := (names_normal_iff _).mp h
  have hm : NormalSlot fixModule request'.module ↔ _ :=
    (controllerForward_names hf).1 ▸ getD_iff (S := NormalSlot fixModule) hmodule
  rw [names_normal_iff]
  exact and_congr hm (controllerForward_target htarget hf)

end

/-- From the first names to the second by calls of `forward` with arguments of this kind. -/
inductive Forwarding (Args : List Zval → Prop) : Names → Names → Prop
  | stay (names : Names) : Forwarding Args names names
  | forward {names : Names} {request request' : Request} {args : List Zval}
      (h : Forwarding Args names request.names) (ha : Args args)
      (hf : controllerForward request args = some request') :
      Forwarding Args names request'.names

/-- What each of the forwards keeps, all of them keep. -/
theorem Forwarding.keeps {Args : List Zval → Prop} {F : Names → Prop} {names names' : Names}
    (h : Forwarding Args names names')
    (hstep : ∀ {request request' args}, F request.names → Args args →
      controllerForward request args = some request' → F request'.names)
    (hn : F names) : F names' := by
  induction h with
  | stay => exact hn
  | forward h ha hf ih => exact hstep ih ha hf

/-- Behind this event the names are in normal form: the hooks of a routed request have run, or the
exception handler has aimed the request. -/
def Event.settles : Event → Bool
  | .phase ⟨.hook hook, _⟩ => hook ≠ .routerStartup
  | .handlerDispatch none _ _ => true
  | _ => false

/-- A controller or an action forwards with arguments that are not of this kind. -/
def Event.Strays (Args : List Zval → Prop) : Event → Prop
  | .called (.method _ _ _ _) before after _ _ => ¬Forwarding Args before.names after.names
  | _ => False

/-- The names were settled, and since then they were forwarded with such arguments only. -/
def ForwardsSince (Args : List Zval → Prop) (hist : List Event) : Prop :=
  LastWord (fun e => e.settles = true) (Event.Strays Args) hist

/-- Code that runs when the request is routed: the later hooks and the scripts of controllers. -/
def Site.routed : Site → Prop
  | .hook _ h _ => h ≠ .routerStartup
  | .script _ => True
  | _ => False

/-- Once the request is routed its names change by `forward` in a controller or an action only. -/
def Event.ForwardsOnly (hist : List Event) : Event → Prop
  | .called (.method _ _ _ _) before after _ _ =>
    Forwarding (fun _ => True) before.names after.names
  | .called site before after _ _ =>
    (site.routed ∨ ∃ e ∈ hist, e.settles = true) → after.names = before.names
  | _ => True

/-- The default names are normal behind every call, and an `init` that sends its visit back has
forwarded with normal arguments. Where the exception handler is entered, the modules forwarded since
the names were settled fit; before they are settled at all, the module the request has does. Where
the handler falls back, the controllers and actions forwarded since it aimed are normal. -/
def Event.AimsNormal (hist : List Event) : Event → Prop
  | .called (.method _ _ name _) before after defaults threw =>
    defaults.Normal ∧ (name = lit "init" → threw = false → after.dispatched = false →
      Forwarding NormalArguments before.names after.names)
  | .called _ _ _ defaults _ => defaults.Normal
  | .handlerBody names =>
    ForwardsSince ModuleArguments hist ∨
      (∀ e ∈ hist, e.settles = false) ∧ ModuleFits names.module
  | .handlerDispatch (some _) _ _ => ForwardsSince TargetArguments hist
  | _ => True

def Event.EntersNormal : Event → Prop
  | .enterHandle entry => entry.names.Normal
  | _ => True

/-- Every entry is normal. -/
def AllEnterNormal (_ : Nat) (es : List Event) : Prop := ∀ e ∈ es, e.EntersNormal

def Event.Fair (hist : List Event) (e : Event) : Prop := e.ForwardsOnly hist ∧ e.AimsNormal hist

/-- The same behind the first events of a log. -/
def FairFrom (n : Nat) (past : List Event) (e : Event) : Prop := e.Fair (past.drop n)

theorem Event.Fair.defaults {hist : List Event} {site : Site} {before after : Request}
    {d : DefaultNames} {threw : Bool} (h : (Event.called site before after d threw).Fair hist) :
    d.Normal := by
  cases site with
  | method ce this name args => exact h.2.1
  | _ => exact h.2

section
variable {n : Nat} {own : List Event} {e : Event}

theorem drop_concat (n : Nat) (own : List Event) (e : Event) :
    (own ++ [e]).drop n = own.drop n ++ [e] ∨ (own ++ [e]).drop n = [] := by
  rcases Nat.lt_or_ge own.length n with h | h
  · refine .inr (List.drop_eq_nil_of_le ?_)
    rw [List.length_append, List.length_singleton]
    exact h
  · exact .inl (List.drop_append_of_le_length h)

theorem mem_drop_concat {x : Event} (h : x ∈ (own ++ [e]).drop n) : x ∈ own.drop n ∨ x = e := by
  rcases drop_concat n own e with hd | hd
  · rw [hd, List.mem_append, List.mem_singleton] at h
    exact h
  · rw [hd] at h
    cases h

/-- An event that settles nothing leaves what was forwarded since. -/
theorem ForwardsSince.before {Args : List Zval → Prop} (hs : e.settles = false)
    (h : ForwardsSince Args ((own ++ [e]).drop n)) :
    ForwardsSince Args (own.drop n) ∧ ¬e.Strays Args := by
  rcases drop_concat n own e with hd | hd
  · rw [hd, ForwardsSince, lastWord_concat, hs] at h
    exact h.resolve_left Bool.false_ne_true
  · rw [hd] at h
    exact absurd h not_lastWord_nil

end

section
variable {γ : Type}

/-- Nothing has settled the names since the log had this many events. -/
structure Unrouted (n : Nat) (w : World γ) : Prop where
  defaults : w.php.dispatcher.defaults.Normal
  unsettled : ∀ e ∈ w.own.drop n, e.settles = false

/-- The names have `F` where nothing else was forwarded since they were settled. -/
def Tracks (Args : List Zval → Prop) (F : Names → Prop) (n : Nat) (w : World γ) : Prop :=
  ForwardsSince Args (w.own.drop n) → F w.php.request.names

/-- What is known in a visit: which names it keeps depends on what it forwards. -/
structure Visiting (n : Nat) (w : World γ) : Prop where
  defaults : w.php.dispatcher.defaults.Normal
  module : Tracks ModuleArguments (fun names => ModuleFits names.module) n w
  target : Tracks TargetArguments TargetNormal n w

section
variable {n : Nat} {w w' : World γ}

theorem Unrouted.record {e : Event} (h : Unrouted n w) (he : e.settles = false) :
    Unrouted n (w.record e) := by
  refine ⟨h.defaults, fun x hx => ?_⟩
  rw [(grew_record w e).2] at hx
  rcases mem_drop_concat hx with hx | rfl
  · exact h.unsettled x hx
  · exact he

theorem unrouted_rides :
    Rides (FairFrom n) (fun _ => True) (Unrouted n : World γ → Prop) where
  php h hd _ := ⟨hd ▸ h.defaults, h.unsettled⟩
  call _ h hown hC := by
    refine ⟨hC.defaults, fun x hx => ?_⟩
    rw [hown] at hx
    rcases mem_drop_concat hx with hx | rfl
    · exact h.unsettled x hx
    · rfl

theorem Unrouted.visiting (h : Unrouted n w) : Visiting n w := by
  have hnone : ∀ Args, ¬ForwardsSince Args (w.own.drop n) := by
    intro Args hsince
    obtain ⟨before, e, after, hown, hs, -⟩ := hsince
    have hfalse := h.unsettled e (by simp [hown])
    rw [hs] at hfalse
    cases hfalse
  exact ⟨h.defaults, fun hs => absurd hs (hnone _), fun hs => absurd hs (hnone _)⟩

theorem Settled.visiting (h : Settled DefaultNames.Normal Names.Normal w) : Visiting n w :=
  ⟨h.1, fun _ => .inr h.2.module, fun _ => ⟨h.2.controller, h.2.action⟩⟩

theorem Tracks.record {Args : List Zval → Prop} {F : Names → Prop} (h : Tracks Args F n w)
    {e : Event} (he : e.settles = false) : Tracks Args F n (w.record e) := by
  intro hs
  rw [(grew_record w e).2] at hs
  exact h (hs.before he).1

/-- A call changes the names by forwarding, or not at all once they are settled. -/
theorem Tracks.call {Args : List Zval → Prop} {F : Names → Prop} (h : Tracks Args F n w)
    {site : Site} (hown : w'.own = w.own ++ [calledEvent site w w'])
    (hC : FairFrom n w.own (calledEvent site w w'))
    (hstep : ∀ {request request' args}, F request.names → Args args →
      controllerForward request args = some request' → F request'.names) :
    Tracks Args F n w' := by
  intro hs
  rw [hown] at hs
  obtain ⟨hsince, hstays⟩ := hs.before rfl
  have hnames : site.routed ∨ (∃ e ∈ w.own.drop n, e.settles = true) := by
    obtain ⟨before, e, after, heq, hsettles, -⟩ := hsince
    exact .inr ⟨e, by simp [heq], hsettles⟩
  cases site with
  | method ce this name args => exact (not_not.mp hstays).keeps hstep (h hsince)
  | _ => exact (show w'.php.request.names = _ from hC.1 hnames) ▸ h hsince

theorem visiting_rides :
    Rides (FairFrom n) (fun _ => True) (Visiting n : World γ → Prop) where
  php h hd hn := ⟨hd ▸ h.defaults, fun hs => hn ▸ h.module hs, fun hs => hn ▸ h.target hs⟩
  call _ h hown hC :=
    ⟨hC.defaults,
      h.module.call hown hC fun hm ha hf => (controllerForward_module hm hf).mpr ha,
      h.target.call hown hC fun ht ha hf => (controllerForward_target ht hf).mpr ha⟩

/-- The later hooks of a dispatch change no name. -/
theorem hooks_ride :
    Rides (FairFrom n) Site.laterHook
      (Settled DefaultNames.Normal Names.Normal : World γ → Prop) where
  php h hd hn := ⟨hd ▸ h.1, hn ▸ h.2⟩
  call {site _ w'} hs h _ hC := by
    refine ⟨hC.defaults, ?_⟩
    cases site with
    | hook plugin hook response => exact (show w'.php.request.names = _ from hC.1 (.inl hs)) ▸ h.2
    | _ => exact hs.elim

end

theorem normal_settling (n : Nat) :
    Settling (γ := γ) (FairFrom n) AllEnterNormal DefaultNames.Normal Names.Normal (Unrouted n)
      (Visiting n) where
  nil := List.forall_mem_nil _
  append := by
    intro k l es fs h h' e he
    rcases List.mem_append.mp he with he | he
    · exact h e he
    · exact h' e he
  mono _ h := h
  called site before after defaults threw := by simp [AllEnterNormal, Event.EntersNormal]
  phase run := by simp [AllEnterNormal, Event.EntersNormal]
  nesting limit := by simp [AllEnterNormal, Event.EntersNormal]
  fix hd := dispatcherFixDefault_normal hd _
  hooks := hooks_ride
  unrouted := unrouted_rides
  unroutedLoose h := h.defaults
  unroutedRequest h := ⟨h.defaults, h.unsettled⟩
  startup h := h.record rfl
  route h := h.record rfl
  visit := visiting_rides
  visitLoose h := h.defaults
  handled h := ⟨h.defaults, h.module.record rfl, h.target.record rfl⟩
  visit_of_unrouted h := h.visiting
  visit_of_settled h := h.visiting

theorem settled_steady :
    Steady (Settled DefaultNames.Normal Names.Normal : World γ → Prop) where
  php w php hr hd h := by
    rw [Settled, Php.request] at h ⊢
    rw [hr, hd]
    exact h
  log w e h := h

variable {call : Calls γ} {fuel : Nat} (hc : ∀ site, Within Quiet (call site)) (n : Nat)
include hc

/-- Whatever enters `yaf_dispatcher_handle` with settled names enters it again with settled names.
-/
theorem handle_normal (response view : Nat) :
    Relies (FairFrom n) AllEnterNormal (Settled DefaultNames.Normal Names.Normal) 1
      (handle call response view fuel) (handle call response view fuel)
      fun _ => Visiting n := by
  have g := (normal_settling (γ := γ) n).toGrading
  induction fuel with
  | zero => exact (relies_stop g Stop.stack).mono g (Nat.zero_le 1) (fun _ h => h) fun _ _ h => h
  | succ fuel ih =>
    refine handle_relies (normal_settling n) hc
      (Q := fun w => Visiting n w ∧
        (w.pending = false → w.dispatched = false → w.php.request.names.Normal))
      settled_steady (fun _ h => h.visiting) (fun _ h => ⟨h.visiting, fun _ _ => h.2⟩)
      (fun _ h => h.1) ?_ ?_ ?_ ?_ ?_ ?_ ?_
    · intro w h
      refine ⟨h.1, ?_⟩
      change (w.php.setRequest _).request.names.Normal
      rw [Php.request_setRequest]
      exact h.2
    · intro w h
      simp only [AllEnterNormal, List.mem_singleton, forall_eq, Event.EntersNormal]
      exact h.2
    · simp [AllEnterNormal, Event.EntersNormal]
    · simp [AllEnterNormal, Event.EntersNormal]
    · intro w w' path h _ hC
      have hnames : w'.php.request.names = w.php.request.names := hC.1 (.inl trivial)
      exact ⟨hC.defaults, hnames ▸ h.2⟩
    · intro w w' ce this args h hown hC
      refine ⟨visiting_rides.call trivial h.visiting hown hC, fun hp hd => ?_⟩
      exact (hC.2.2 rfl hp hd).keeps (fun hn ha hf => (controllerForward_normal hn hf).mpr ha) h.2
    · refine (ih.regrade (l := 0) fun _ h => h).mono g le_rfl (fun w h => ?_) fun _ _ h => h
      exact ⟨h.1.1.defaults, h.1.2 h.2.1 h.2.2⟩

/-- A handle call of the exception handler that finds the names settled. -/
theorem handlerHandle_normal (failed : Option Thrown) (response view : Nat)
    {P : World γ → Prop} (hP : ∀ w defaultModule, P w →
      FairFrom n w.own (.handlerDispatch failed w.php.request.names defaultModule) →
      Settled DefaultNames.Normal Names.Normal w) :
    Relies (FairFrom n) AllEnterNormal P 0 (handlerHandle call fuel failed response view)
      (handlerHandle call fuel failed response view) fun _ => Visiting n := by
  have g := (normal_settling (γ := γ) n).toGrading
  refine relies_reading fun php => ?_
  refine Relies.bind_right g (Q := fun _ => Settled DefaultNames.Normal Names.Normal)
    (relies_record (fun _ _ _ => by simp [AllEnterNormal, Event.EntersNormal])
      fun w h hC => ?_) fun _ => (handle_normal hc n response view).regrade fun _ h => h
  obtain ⟨rfl, h⟩ := h
  exact hP w _ h hC

omit hc n in
/-- The exception handler aims the request at normal names, but for a module it found. -/
theorem aimAtError_normal (thrown : Thrown) {php : Php γ} (hd : php.dispatcher.defaults.Normal)
    (hm : ModuleFits php.request.module) : (aimAtError thrown php).request.names.Normal := by
  change (php.setRequest _).request.names.Normal
  rw [Php.request_setRequest]
  refine ⟨?_, ⟨lit "Error", rfl, by decide⟩, ⟨lit "error", rfl, by decide⟩⟩
  simp only [Request.names]
  split
  · exact ⟨_, rfl, hd.module⟩
  · rename_i s hs
    rcases hm with hm | hm
    · rw [hs] at hm
      cases hm
    · exact hm

theorem handlerDispatches_normal (response view : Nat) :
    Relies (FairFrom n) AllEnterNormal (Settled DefaultNames.Normal Names.Normal) 0
      (handlerDispatches call fuel response view) (handlerDispatches call fuel response view)
      fun _ _ => True := by
  have g := (normal_settling (γ := γ) n).toGrading
  have hfirst : Relies (FairFrom n) AllEnterNormal (Settled DefaultNames.Normal Names.Normal) 0
      (handlerHandle call fuel none response view) (handlerHandle call fuel none response view)
      fun _ => Visiting n :=
    handlerHandle_normal hc n none response view fun _ _ h _ => h
  refine hfirst.bind_right g fun handled => relies_read fun php => ?_
  split
  · rename_i failed _
    split
    · have haim : Relies (γ := γ) (FairFrom n) AllEnterNormal (Visiting n) 0
          (updatePhp aimAtDefaultModule) (updatePhp aimAtDefaultModule)
          fun _ w => w.php.dispatcher.defaults.Normal ∧
            NormalSlot fixModule w.php.request.module ∧
            Tracks TargetArguments TargetNormal n w := by
        refine relies_update g fun w h => ⟨h.defaults, ?_, fun hs => ?_⟩
        · change NormalSlot fixModule (w.php.setRequest _).request.module
          rw [Php.request_setRequest]
          exact ⟨_, rfl, h.defaults.module⟩
        · change TargetNormal (w.php.setRequest _).request.names
          rw [Php.request_setRequest]
          exact h.target hs
      refine haim.bind_right g fun _ => ?_
      refine (handlerHandle_normal hc n (some failed) response view ?_).bind_right g fun _ =>
        relies_pure g fun _ _ => trivial
      -- the fallback keeps the controller and the action that the first call left
      exact fun w _ h hC => ⟨h.1, (names_normal_iff _).mpr ⟨h.2.1, h.2.2 hC.2⟩⟩
    · exact relies_pure g fun _ _ => trivial
  · exact relies_pure g fun _ _ => trivial

theorem exceptionHandler_normal (response : Nat) :
    Relies (FairFrom n) AllEnterNormal (Visiting n) 0
      (exceptionHandler call fuel response) (exceptionHandler call fuel response)
      fun _ _ => True := by
  have g := (normal_settling (γ := γ) n).toGrading
  have hraise : Relies (γ := γ) (FairFrom n) AllEnterNormal (Visiting n) 0
      (Run.modify fun w => { w with inException := true } : Exec γ Unit)
      (Run.modify fun w => { w with inException := true }) fun _ => Visiting n :=
    relies_modify g (fun w => ⟨rfl, (List.append_nil _).symm⟩)
      fun _ h => ⟨h.defaults, h.module, h.target⟩
  refine ((relies_get g).mono g le_rfl (fun _ h => h) fun _ _ h => h.2).bind_right g fun w => ?_
  split
  · exact relies_pure g fun _ _ => trivial
  split
  · exact relies_pure g fun _ _ => trivial
  rename_i thrown _ _
  refine hraise.bind_right g fun _ => relies_reading fun php => ?_
  refine Relies.bind_right g (Q := fun _ w => w.php.dispatcher.defaults.Normal ∧
    ModuleFits w.php.request.module)
    (relies_record (fun _ _ _ => by simp [AllEnterNormal, Event.EntersNormal])
      fun w h hC => ?_) fun _ => ?_
  · obtain ⟨rfl, h⟩ := h
    exact ⟨h.defaults, hC.2.elim h.module fun h => h.2⟩
  refine Relies.bind_right g (Q := fun _ => Settled DefaultNames.Normal Names.Normal)
    (relies_update g fun w h => ⟨h.1, aimAtError_normal thrown h.1 h.2⟩) fun _ => ?_
  refine (dispatcherInitView_settled (normal_settling n)).bind_right g fun view => ?_
  refine (handlerDispatches_normal hc n response view).bind_right g fun _ => ?_
  exact relies_update g fun _ _ => trivial

end

/-- In a dispatch whose names change by `forward` only, every entry of `yaf_dispatcher_handle` finds
them in normal form, as long as what is forwarded to an entry that fixes nothing is. -/
theorem names_settled {γ : Type} (app : Site → Script γ) (fuel room : Nat) (w : World γ)
    (hd : w.php.dispatcher.defaults.Normal)
    (hforward : Along Event.ForwardsOnly [] (dispatchTrace (callAt app fuel room) fuel w))
    (haim : Along Event.AimsNormal [] (dispatchTrace (callAt app fuel room) fuel w)) :
    ∀ entry, .enterHandle entry ∈ dispatchTrace (callAt app fuel room) fuel w →
      entry.names.Normal := by
  have hc := callAt_quiet app fuel room
  have hfair : Along Event.Fair [] (dispatchTrace (callAt app fuel room) fuel w) :=
    fun before e after h => ⟨hforward before e after h, haim before e after h⟩
  obtain ⟨-, henter⟩ := dispatch_relies (normal_settling _) hc (handle_normal hc _)
    (exceptionHandler_normal hc _) w ⟨hd, by simp⟩ hfair.behind
  exact fun entry hentry => henter _ hentry

/-- The application of visits changes the names by `forward` only. -/
theorem forwarder_forwardsOnly (forwards : Forwards) (fuel room : Nat) (w : World Nat) :
    Along Event.ForwardsOnly [] (dispatchTrace (callAt (forwarder forwards) fuel room) fuel w) := by
  have hvisit : ∀ (name : Bytes) (php : Php Nat), Forwarding (fun _ => True) php.request.names
      (visit forwards name php).request.names := by
    intro name php
    unfold visit
    cases hf : (forwards name php.user).bind (controllerForward php.request) with
    | none => exact .stay _
    | some request =>
      obtain ⟨args, -, hf⟩ := Option.bind_eq_some_iff.mp hf
      change Forwarding _ _ (php.setRequest request).request.names
      rw [Php.request_setRequest]
      exact .forward (.stay _) trivial hf
  have hu : ∀ site, Within (Leaves fun e => ∀ hist, e.ForwardsOnly hist)
      (userCall (callAt (forwarder forwards) fuel room) site) := by
    intro site
    refine userCall_leaves_of (callAt_quiet _ _ _ site) fun w ret w' hcall => ?_
    rw [callAt_forwarder] at hcall
    cases site with
    | method ce this name args =>
      cases hcall
      exact fun _ => hvisit name w.php
    | _ => cases hcall; exact fun _ _ => rfl
  have hhandler : ∀ e, HandlerEvent e → ∀ hist, e.ForwardsOnly hist := by
    intro e h hist
    cases h with
    | handle h => cases h <;> trivial
    | _ => trivial
  have hall : ∀ e ∈ dispatchTrace (callAt (forwarder forwards) fuel room) fuel w,
      ∀ hist, e.ForwardsOnly hist :=
    dispatchTrace_forall (callAt_quiet _ _ _) hu hhandler (fun _ _ => trivial) fun _ _ => trivial
  intro before e after htrace
  exact hall e (htrace ▸ List.mem_append_right before List.mem_cons_self) _

/-- The events of an application that only visits its action, with the default names of the sample.
-/
def Event.isPlain : Event → Bool
  | .called (.method _ _ name _) _ _ defaults _ =>
    decide (defaults = sampleDefaults) && decide (name ≠ lit "init")
  | .called _ _ _ defaults _ => decide (defaults = sampleDefaults)
  | .handlerBody _ => false
  | .handlerDispatch .. => false
  | _ => true

theorem sampleDefaults_normal : sampleDefaults.Normal := by
  refine ⟨?_, ?_, ?_⟩ <;> decide

theorem Event.aimsNormal_of_isPlain {hist : List Event} {e : Event} (h : e.isPlain = true) :
    e.AimsNormal hist := by
  cases e with
  | called site before after defaults threw =>
    cases site with
    | method ce this name args =>
      simp only [isPlain, Bool.and_eq_true, decide_eq_true_eq] at h
      exact ⟨h.1 ▸ sampleDefaults_normal, fun hname => absurd hname h.2⟩
    | _ => exact of_decide_eq_true h ▸ sampleDefaults_normal
  | handlerBody | handlerDispatch => cases h
  | _ => trivial

/-- The actions `yaf_dispatcher_handle` is entered with. -/
def enteredActions (es : List Event) : List Bytes :=
  es.filterMap fun
    | .enterHandle entry => entry.names.action.text?
    | _ => none

theorem names_settled_sample :
    (enteredActions (dispatchTrace (callAt (forwarder forwardsAlways) 1 0) 1
      (.start (forwarderPhp [lit "indexaction"] 3)))).length = 3 ∧
    ∀ entry, .enterHandle entry ∈ dispatchTrace (callAt (forwarder forwardsAlways) 1 0) 1
      (.start (forwarderPhp [lit "indexaction"] 3)) → entry.names.Normal := by
  have hplain : ∀ e ∈ dispatchTrace (callAt (forwarder forwardsAlways) 1 0) 1
      (.start (forwarderPhp [lit "indexaction"] 3)), e.isPlain = true := by
    decide +kernel
  have hnormal := names_settled (forwarder forwardsAlways) 1 0
    (.start (forwarderPhp [lit "indexaction"] 3)) sampleDefaults_normal
    (forwarder_forwardsOnly _ _ _ _) fun _ e _ htrace => Event.aimsNormal_of_isPlain
      (hplain e (htrace ▸ List.mem_append_right _ List.mem_cons_self))
  exact ⟨by decide +kernel, hnormal⟩

/-- The first `init` forwards to an action in capitals. -/
def forwardsRaw : Forwards := fun name n =>
  if name = lit "init" ∧ n = 0 then some [.string (lit "FOO")] else none

theorem enteredActions_fixed {es : List Event}
    (h : ∀ entry, .enterHandle entry ∈ es → entry.names.Normal) :
    ∀ action ∈ enteredActions es, fixAction action = action := by
  intro action ha
  obtain ⟨e, he, hf⟩ := List.mem_filterMap.mp ha
  cases e with
  | enterHandle entry =>
    obtain ⟨s, hs, -, hfix⟩ := (h entry he).action
    obtain ⟨hs', -⟩ := Zval.text?_eq_some.mp hf
    rw [hs] at hs'
    cases hs'
    exact hfix
  | _ => cases hf

/-- The dispatch is sent back to an action that no name in normal form spells. -/
theorem init_forward_raw :
    ¬∀ (γ : Type) (app : Site → Script γ) (fuel room : Nat) (w : World γ),
      w.php.dispatcher.defaults.Normal →
      Along Event.ForwardsOnly [] (dispatchTrace (callAt app fuel room) fuel w) →
      ∀ entry, .enterHandle entry ∈ dispatchTrace (callAt app fuel room) fuel w →
        entry.names.Normal := by
  intro h
  have hnormal := h Nat (forwarder forwardsRaw) 2 0
    (.start (forwarderPhp [lit "init", lit "fooaction"] 5)) sampleDefaults_normal
    (forwarder_forwardsOnly _ _ _ _)
  have hfixed := enteredActions_fixed hnormal
  revert hfixed
  decide +kernel

end Yaf
