import Yaf.Dispatcher.Own
import Yaf.Dispatcher.Success

namespace Yaf
open Base Base.Run

/-- The phases among some events. -/
def phases (es : List Event) : List PhaseRun :=
  es.filterMap fun
    | .phase run => some run
    | _ => none

/-- The limits of the nesting errors among some events. -/
def nestingErrors (es : List Event) : List Int :=
  es.filterMap fun
    | .nestingError limit => some limit
    | _ => none

namespace PhaseRun

/-- The phase ended, did not fail, and left no exception. -/
def passed (r : PhaseRun) : Bool :=
  match r.ended with
  | some e => e.ok && !e.pending
  | none => false

/-- The phase ended and left the request dispatched. -/
def leftDispatched (r : PhaseRun) : Bool :=
  match r.ended with
  | some e => e.dispatched
  | none => false

end PhaseRun

/-- The phases of some turns of the dispatch loop. -/
def turns (k : Nat) : List Phase :=
  (List.replicate k [.hook .preDispatch, .handle, .hook .postDispatch]).flatten

/-- The phases of a dispatch that goes through, with this many turns. -/
def dispatchWord (routed : Bool) (k : Nat) : List Phase :=
  (if routed then [] else [.hook .routerStartup, .route, .hook .routerShutdown]) ++
    [.hook .dispatchLoopStartup] ++ turns k ++ [.hook .dispatchLoopShutdown]

/-- The events go through the whole word, every phase passed. -/
structure Whole (word : List Phase) (es : List Event) : Prop where
  names : (phases es).map PhaseRun.phase = word
  passed : ∀ r ∈ phases es, r.passed = true
  unraised : nestingErrors es = []

/-- A user-written route that the built-in router has asked left no exception. -/
def Event.routeReturned : Event → Bool
  | .called (.route _ _) _ _ _ threw => !threw
  | _ => true

/-- The events stop somewhere in the word: the last phase did not pass. Unless a route threw, the
others did. -/
structure Cut (word : List Phase) (es : List Event) : Prop where
  names : (phases es).map PhaseRun.phase <+: word
  ends : ∃ rs r, phases es = rs ++ [r] ∧
    ((∀ e ∈ es, e.routeReturned = true) → ∀ s ∈ rs, s.passed = true) ∧ r.passed = false
  unraised : nestingErrors es = []

theorem phases_append (es fs : List Event) : phases (es ++ fs) = phases es ++ phases fs :=
  List.filterMap_append ..

theorem nestingErrors_append (es fs : List Event) :
    nestingErrors (es ++ fs) = nestingErrors es ++ nestingErrors fs :=
  List.filterMap_append ..

theorem phases_inner {es : List Event} (h : ∀ e ∈ es, InnerEvent e) : phases es = [] := by
  rw [phases, List.filterMap_eq_nil_iff]
  intro e he
  cases h e he with
  | called => rfl
  | handler h =>
    cases h with
    | handle h => cases h <;> rfl
    | _ => rfl

theorem nestingErrors_inner {es : List Event} (h : ∀ e ∈ es, InnerEvent e) :
    nestingErrors es = [] := by
  rw [nestingErrors, List.filterMap_eq_nil_iff]
  intro e he
  cases h e he with
  | called => rfl
  | handler h =>
    cases h with
    | handle h => cases h <;> rfl
    | _ => rfl

theorem Whole.inner {es : List Event} (h : ∀ e ∈ es, InnerEvent e) : Whole [] es :=
  ⟨by rw [phases_inner h]; rfl, by simp [phases_inner h], nestingErrors_inner h⟩

theorem Whole.append {v u : List Phase} {es fs : List Event} (h : Whole v es) (h' : Whole u fs) :
    Whole (v ++ u) (es ++ fs) := by
  refine ⟨by rw [phases_append, List.map_append, h.names, h'.names], ?_, ?_⟩
  · intro r hr
    rw [phases_append] at hr
    rcases List.mem_append.mp hr with hr | hr
    · exact h.passed r hr
    · exact h'.passed r hr
  · rw [nestingErrors_append, h.unraised, h'.unraised]
    rfl

/-- What goes through one word and stops in the next stops in the two of them. -/
theorem Whole.append_cut {v u : List Phase} {es fs : List Event} (h : Whole v es)
    (h' : Cut u fs) : Cut (v ++ u) (es ++ fs) := by
  obtain ⟨rs, r, hrs, hpassed, hr⟩ := h'.ends
  refine ⟨?_, ⟨phases es ++ rs, r, ?_, ?_, hr⟩, ?_⟩
  · rw [phases_append, List.map_append, h.names]
    exact (List.prefix_append_right_inj v).mpr h'.names
  · rw [phases_append, hrs, List.append_assoc]
  · intro hreturned s hs
    rcases List.mem_append.mp hs with hs | hs
    · exact h.passed s hs
    · exact hpassed (fun e he => hreturned e (List.mem_append_right es he)) s hs
  · rw [nestingErrors_append, h.unraised, h'.unraised]
    rfl

/-- The events go through a word in which a route threw. -/
structure ThrewIn (word : List Phase) (es : List Event) : Prop where
  names : (phases es).map PhaseRun.phase = word
  threw : ∃ e ∈ es, e.routeReturned = false
  unraised : nestingErrors es = []

theorem ThrewIn.append_cut {v u : List Phase} {es fs : List Event}
    (h : ThrewIn v es) (h' : Cut u fs) : Cut (v ++ u) (es ++ fs) := by
  obtain ⟨rs, r, hrs, -, hr⟩ := h'.ends
  obtain ⟨e, he, hthrew⟩ := h.threw
  refine ⟨?_, ⟨phases es ++ rs, r, ?_, ?_, hr⟩, ?_⟩
  · rw [phases_append, List.map_append, h.names]
    exact (List.prefix_append_right_inj v).mpr h'.names
  · rw [phases_append, hrs, List.append_assoc]
  · intro hreturned
    rw [hreturned e (List.mem_append_left fs he)] at hthrew
    exact absurd hthrew (by decide)
  · rw [nestingErrors_append, h.unraised, h'.unraised]
    rfl

theorem Cut.mono {v u : List Phase} {es : List Event} (h : Cut v es) (hp : v <+: u) : Cut u es :=
  ⟨h.names.trans hp, h.ends, h.unraised⟩

/-- The last phase left the request as the state has it. -/
def EndsDispatched {γ : Type} (es : List Event) (w : World γ) : Prop :=
  ∃ rs r, phases es = rs ++ [r] ∧ r.leftDispatched = w.dispatched

theorem EndsDispatched.append {γ : Type} {es fs : List Event} {w : World γ}
    (h : EndsDispatched fs w) : EndsDispatched (es ++ fs) w := by
  obtain ⟨rs, r, hp, hr⟩ := h
  exact ⟨phases es ++ rs, r, by rw [phases_append, hp, List.append_assoc], hr⟩

section
variable {γ : Type} {call : Calls γ} {fuel : Nat}

/-- A phase leaves what its code leaves and then its own event. -/
theorem phase_traced {p : Phase} {m : Exec γ Bool} {P : Bool → List Event → Bool → Prop}
    {w : World γ} (hm : Within (Leaves InnerEvent) m)
    (hP : Traced m w (fun b es w' => P b es w'.pending) fun _ => True) :
    Traced (phase p m) w
      (fun b es w' => ∃ inner, P b inner w'.pending ∧ (∀ e ∈ inner, InnerEvent e) ∧
        es = inner ++ [.phase ⟨p, some ⟨b, w'.pending, w'.dispatched⟩⟩])
      fun es => ∃ inner, (∀ e ∈ inner, InnerEvent e) ∧ es = inner ++ [.phase ⟨p, none⟩] := by
  unfold Traced
  rw [meets_phase]
  refine Meets.mono ((traced_leaves hm).and hP) ?_ ?_
  · rintro b w' ⟨inner, hgrew, hinner, hp⟩
    exact ⟨_, hgrew.trans (grew_record _ _), inner, hp, hinner, rfl⟩
  · rintro e w' ⟨inner, hgrew, hinner, -⟩
    exact ⟨_, hgrew.trans (grew_record _ _), inner, hinner, rfl⟩

theorem phases_phase {inner : List Event} (h : ∀ e ∈ inner, InnerEvent e) (r : PhaseRun) :
    phases (inner ++ [.phase r]) = [r] := by
  rw [phases_append, phases_inner h]
  rfl

theorem Whole.phase {inner : List Event} (h : ∀ e ∈ inner, InnerEvent e) {p : Phase}
    {ended : Option PhaseEnd} (hr : PhaseRun.passed ⟨p, ended⟩ = true) :
    Whole [p] (inner ++ [.phase ⟨p, ended⟩]) := by
  refine ⟨by rw [phases_phase h]; rfl, ?_, ?_⟩
  · intro s hs
    rw [phases_phase h, List.mem_singleton] at hs
    exact hs ▸ hr
  · rw [nestingErrors_append, nestingErrors_inner h]
    rfl

/-- A phase that did not pass, with what the exception handler leaves after it. -/
theorem Cut.phase {inner fs : List Event} (h : ∀ e ∈ inner, InnerEvent e)
    (hf : ∀ e ∈ fs, InnerEvent e) {p : Phase} {ended : Option PhaseEnd}
    (hr : PhaseRun.passed ⟨p, ended⟩ = false) :
    Cut [p] (inner ++ [.phase ⟨p, ended⟩] ++ fs) := by
  have hp : phases (inner ++ [.phase ⟨p, ended⟩] ++ fs) = [⟨p, ended⟩] := by
    rw [phases_append, phases_phase h, phases_inner hf, List.append_nil]
  refine ⟨by rw [hp]; exact List.prefix_rfl, ⟨[], _, hp, fun _ => List.forall_mem_nil _, hr⟩, ?_⟩
  rw [nestingErrors_append, nestingErrors_append, nestingErrors_inner h, nestingErrors_inner hf]
  rfl

theorem Cut.phase_stopped {inner : List Event} (h : ∀ e ∈ inner, InnerEvent e) (p : Phase) :
    Cut [p] (inner ++ [.phase ⟨p, none⟩]) := by
  have hcut : Cut [p] (inner ++ [.phase ⟨p, none⟩] ++ []) :=
    Cut.phase h (List.forall_mem_nil InnerEvent) rfl
  rwa [List.append_nil] at hcut

theorem EndsDispatched.phase {inner : List Event} (h : ∀ e ∈ inner, InnerEvent e) {p : Phase}
    {b : Bool} {w : World γ} :
    EndsDispatched (inner ++ [.phase ⟨p, some ⟨b, w.pending, w.dispatched⟩⟩]) w :=
  ⟨[], _, phases_phase h _, rfl⟩

theorem pluginHandle_true (hook : Hook) (response : Nat) (w : World γ) :
    Meets (pluginHandle call hook response) w (fun b _ => b = true) fun _ _ => True :=
  meets_after _ fun _ _ => meets_after _ fun _ _ => rfl

/-- A call with an exception pending is refused. -/
theorem userCall_refused {site : Site} {w : World γ} (h : w.pending = true) :
    userCall call site w = (.ok none, w) := by
  change (if w.php.exception.isSome then pure none else _ : Exec γ (Option Zval)) w = _
  rw [if_pos (show w.php.exception.isSome = true from h)]
  rfl

theorem pluginHandle_refused {hook : Hook} {response : Nat} {w : World γ} (h : w.pending = true) :
    Meets (pluginHandle call hook response) w (fun b w' => b = true ∧ w' = w) fun _ _ => False := by
  have hplugins : ∀ plugins, callPlugins call hook response plugins w = (.ok (), w) := by
    intro plugins
    induction plugins with
    | nil => rfl
    | cons plugin plugins ih =>
      rw [callPlugins_cons]
      split
      · rw [bind_of_ok (userCall_refused h)]
        exact ih
      · exact ih
  have hrun : pluginHandle call hook response w = (.ok true, w) := by
    have hcalled := hplugins (w.php.dispatcher.plugins.getD [])
    change (callPlugins call hook response (w.php.dispatcher.plugins.getD []) >>= fun _ =>
      pure true : Exec γ Bool) w = _
    rw [bind_of_ok hcalled]
    rfl
  exact meets_of_eq hrun ⟨rfl, rfl⟩

variable (hc : ∀ site, Within Quiet (call site))
include hc

theorem userCall_inner (site : Site) : Within (Leaves InnerEvent) (userCall call site) :=
  userCall_leaves hc (fun _ _ _ _ _ => .called ..) site

theorem exceptionHandler_leaves (response : Nat) :
    Within (Leaves InnerEvent) (exceptionHandler call fuel response) :=
  exceptionHandler_within (leaves_trail _) (userCall_inner hc) (fun _ h => .handler h)
    fun w => ⟨[], ⟨rfl, (List.append_nil _).symm⟩, by simp⟩

theorem exceptionHandleNoret_leaves (response : Nat) :
    Within (Leaves InnerEvent) (exceptionHandleNoret call fuel response) :=
  exceptionHandleNoret_within (leaves_trail _) (exceptionHandler_leaves hc)

theorem triggerError_leaves (type : YafErr) (message : Bytes) :
    Within (Leaves InnerEvent) (triggerError call type message) :=
  triggerError_closed (leaves_trail _).closed.frames (userCall_inner hc)

/-- The macro goes on without a trace or ends the dispatch. -/
theorem exceptionHandle_traced (response : Nat) (w : World γ) :
    Traced (exceptionHandle call fuel response) w
      (fun _ es w' => es = [] ∧ w' = w ∧ w.pending = false)
      fun es => (∀ e ∈ es, InnerEvent e) ∧ w.pending = true := by
  apply traced_read
  split
  · rename_i hp
    refine (traced_within (traced_leaves (exceptionHandleNoret_leaves hc response))).bind
      (fun _ h => ⟨h, hp⟩) fun _ es w' _ hes => ?_
    exact traced_stop ⟨by simpa using hes, hp⟩
  · rename_i hp
    refine traced_pure ⟨rfl, rfl, ?_⟩
    simpa [World.pending] using hp

/-- The dispatch returns NULL behind what the exception handler did. -/
theorem exceptionHandle_null (response : Nat) (w : World γ) {α : Type}
    {Q : α → List Event → World γ → Prop} :
    Traced (exceptionHandle call fuel response >>= fun _ => (Run.stop .null : DispatchExec γ α)) w
      Q fun es => ∀ e ∈ es, InnerEvent e := by
  refine (exceptionHandle_traced hc response w).bind (fun _ h => h.1) fun _ es w' _ h => ?_
  apply traced_stop
  simp [h.1]

/-- A phase of hooks, with the check behind it: it is not left with an exception pending. -/
theorem hookPhase_traced (hook : Hook) (response : Nat) (w : World γ) :
    Traced (hookPhase call fuel hook response) w
      (fun _ es w' => Whole [.hook hook] es ∧ EndsDispatched es w' ∧ w'.pending = false)
      fun es => Cut [.hook hook] es := by
  have hplugins : Within (Leaves InnerEvent) (pluginHandle call hook response) :=
    pluginHandle_closed (leaves_trail _).closed.frames (userCall_inner hc)
  have htrue := (traced_leaves hplugins).with (pluginHandle_true hook response w)
  refine (traced_within (phase_traced (P := fun b _ _ => b = true) hplugins
    (htrue.mono (fun _ _ _ _ h => h.2) fun _ _ => trivial))).bind ?_ ?_
  · rintro es ⟨inner, hinner, rfl⟩
    exact Cut.phase_stopped hinner _
  · rintro b es w' _ ⟨inner, rfl, hinner, rfl⟩
    refine (exceptionHandle_traced hc response w').mono ?_ fun fs hfs =>
      Cut.phase hinner hfs.1 (by simp [PhaseRun.passed, hfs.2])
    rintro _ fs w'' _ ⟨rfl, rfl, hp⟩
    rw [List.append_nil]
    exact ⟨Whole.phase hinner (by simp [PhaseRun.passed, hp]), EndsDispatched.phase hinner, hp⟩

omit hc in
/-- With an exception pending no hook is called, and the check ends the dispatch. -/
theorem hookPhase_pending (hook : Hook) (response : Nat) {w : World γ} (hw : w.pending = true) :
    Meets (hookPhase call fuel hook response) w (fun _ _ => False) fun _ _ => True := by
  have hphase : Meets (within (phase (.hook hook) (pluginHandle call hook response))) w
      (fun _ w' => w'.pending = true) fun _ _ => True := by
    unfold within
    rw [meets_lift, meets_phase]
    refine (pluginHandle_refused hw).mono ?_ fun _ _ h => h.elim
    rintro b w' ⟨-, rfl⟩
    exact hw
  unfold hookPhase
  rw [meets_bind]
  refine hphase.mono (fun _ w' hw' => ?_) fun _ _ _ => trivial
  change Meets (if w'.php.exception.isSome then _ else _ : DispatchExec γ Unit) w' _ _
  rw [if_pos (show w'.php.exception.isSome = true from hw')]
  exact meets_after _ fun _ _ => trivial

/-- A call that leaves an exception says so in its event. -/
theorem userCall_traced (site : Site) (w : World γ) :
    Traced (userCall call site) w
      (fun ret es w' => (ret.isSome = true → w'.pending = false) ∧ (w.pending = false →
        ∃ before after defaults, es = [.called site before after defaults w'.pending]))
      fun _ => True := by
  by_cases hw : w.pending = true
  · refine meets_of_eq (userCall_refused hw) ⟨[], Grew.refl w, nofun, fun h => ?_⟩
    rw [hw] at h
    cases h
  · have hcall : Traced (call site) w (fun _ es _ => es = []) fun es => es = [] :=
      traced_silent fun w => ⟨[], (hc site w).grew, by simp⟩
    have hrun : userCall call site w = (call site >>= fun ret => do
        let php' ← getPhp
        Yaf.record (.called site w.php.request php'.request php'.dispatcher.defaults
          php'.exception.isSome)
        if php'.exception.isSome then pure none else pure ret : Exec γ (Option Zval)) w := by
      change (if w.php.exception.isSome then _ else _ : Exec γ (Option Zval)) w = _
      exact congrFun (if_neg hw) w
    refine Meets.congr (Traced.bind hcall (fun _ _ => trivial) ?_) hrun
    rintro ret _ w' _ rfl
    have hends : (do
        let php' ← getPhp
        Yaf.record (.called site w.php.request php'.request php'.dispatcher.defaults
          php'.exception.isSome)
        if php'.exception.isSome then pure none else pure ret : Exec γ (Option Zval)) w' =
        (.ok (if w'.php.exception.isSome then none else ret),
          w'.record (.called site w.php.request w'.php.request w'.php.dispatcher.defaults
            w'.pending)) := by
      change (if w'.php.exception.isSome then pure none else pure ret : Exec γ (Option Zval))
        (w'.record _) = _
      split <;> rfl
    refine meets_of_eq hends ⟨_, grew_record w' _, fun hret => ?_, fun _ => ⟨_, _, _, rfl⟩⟩
    cases hp : w'.php.exception.isSome with
    | true => simp [hp] at hret
    | false => exact hp

/-- A route that is asked leaves an exception only by throwing it. -/
theorem callRoute_traced (key : Key) (route : RouteObject) (w : World γ) :
    Traced (callRoute call key route) w
      (fun _ es w' => w.pending = false → (∀ e ∈ es, e.routeReturned = true) →
        w'.pending = false) fun _ => True := by
  refine traced_reading ?_
  split
  · rename_i hp
    exact traced_pure fun h => absurd (h.symm.trans hp) (by decide)
  rename_i hp
  split
  · rename_i object
    refine (userCall_traced hc (.route key object) w).mono ?_ fun _ h => h
    rintro ret es w' _ ⟨-, h⟩ hw hreturned
    obtain ⟨before, after, defaults, rfl⟩ := h hw
    simpa [Event.routeReturned] using hreturned _ (List.mem_singleton_self _)
  · split
    · exact traced_stop trivial
    · rename_i request _
      exact ⟨[], grew_update w _, fun hw _ => hw⟩

theorem routerRoute_traced (routes : List (Key × RouteObject)) (w : World γ) :
    Traced (routerRoute call routes) w
      (fun _ es w' => w.pending = false → (∀ e ∈ es, e.routeReturned = true) →
        w'.pending = false) fun _ => True := by
  induction routes generalizing w with
  | nil => exact traced_pure fun hw _ => hw
  | cons entry routes ih =>
    rw [routerRoute]
    refine (callRoute_traced hc entry.1 entry.2 w).bind (fun _ _ => trivial) ?_
    intro ret es w₁ _ h₁
    split
    · refine ⟨[], (grew_update w₁ _).trans (grew_update _ _), fun hw hreturned => ?_⟩
      rw [List.append_nil] at hreturned
      have hp := h₁ hw hreturned
      simp only [World.pending, World.update, Php.setRequest] at hp ⊢
      split <;> exact hp
    · refine (ih w₁).mono (fun _ fs w₂ _ h₂ hw hreturned => ?_) fun _ h => h
      exact h₂ (h₁ hw fun e he => hreturned e (List.mem_append_left fs he))
        fun e he => hreturned e (List.mem_append_right es he)

/-- A routing that is answered leaves an exception only when a user-written route threw it. -/
theorem dispatcherRoute_traced (w : World γ) :
    Traced (dispatcherRoute call) w
      (fun b es w' => b = true → w.pending = false → (∀ e ∈ es, e.routeReturned = true) →
        w'.pending = false) fun _ => True := by
  refine traced_reading ?_
  split
  · exact traced_pure nofun
  · refine (routerRoute_traced hc _ w).bind (fun _ _ => trivial) fun _ es w₁ _ h₁ => ?_
    apply traced_pure
    rw [List.append_nil]
    exact fun _ => h₁
  · refine (userCall_traced hc _ w).bind (fun _ _ => trivial) ?_
    rintro ret es w₁ _ ⟨h₁, -⟩
    split
    · exact traced_pure fun _ _ _ => h₁ rfl
    · refine (traced_leaves (triggerError_leaves hc _ _)).bind (fun _ _ => trivial)
        fun _ _ _ _ _ => traced_pure nofun

/-- The route phase, with the error behind a failure. A routing that is answered is not checked for
the exception a route threw. -/
theorem routePhase_traced (response : Nat) {w : World γ} (hw : w.pending = false) :
    Traced (routePhase call fuel response) w
      (fun _ es w' => Whole [.route] es ∨ ThrewIn [.route] es ∧ w'.pending = true)
      fun es => Cut [.route] es := by
  have hroute : Within (Leaves InnerEvent) (dispatcherRoute call) :=
    dispatcherRoute_closed (leaves_trail _).closed.frames (userCall_inner hc) fun _ =>
      (leaves_trail _).update fun _ => rfl
  have hsettles : Traced (dispatcherRoute call) w
      (fun b es w' => b = true → (∀ e ∈ es, e.routeReturned = true) → w'.pending = false)
      fun _ => True :=
    (dispatcherRoute_traced hc w).mono (fun b es w' _ h hb => h hb hw) fun _ h => h
  refine (traced_within (phase_traced
    (P := fun b es p => b = true → (∀ e ∈ es, e.routeReturned = true) → p = false) hroute
    hsettles)).bind ?_ ?_
  · rintro es ⟨inner, hinner, rfl⟩
    exact Cut.phase_stopped hinner _
  · rintro b es w' _ ⟨inner, hp, hinner, rfl⟩
    split
    · rename_i hb
      apply traced_pure
      rw [List.append_nil]
      cases hpending : w'.pending with
      | false => exact .inl (Whole.phase hinner (by simp [PhaseRun.passed, hb]))
      | true =>
        refine .inr ⟨⟨by rw [phases_phase hinner]; rfl, ?_, ?_⟩, rfl⟩
        · by_contra hnone
          have hreturned : ∀ e ∈ inner, e.routeReturned = true := by
            intro e he
            by_contra hthrew
            exact hnone ⟨e, List.mem_append_left _ he, by simpa using hthrew⟩
          rw [hp hb hreturned] at hpending
          cases hpending
        · rw [nestingErrors_append, nestingErrors_inner hinner]
          rfl
    · rename_i hb
      have hr : PhaseRun.passed ⟨.route, some ⟨b, w'.pending, w'.dispatched⟩⟩ = false := by
        simp [PhaseRun.passed, hb]
      refine (traced_within (traced_leaves (triggerError_leaves hc _ _))).bind
        (fun fs hfs => Cut.phase hinner hfs hr) fun _ fs w₁ _ hfs => ?_
      refine (traced_within (traced_leaves (exceptionHandleNoret_leaves hc response))).bind
        (fun gs hgs => ?_) fun _ gs w₂ _ hgs => traced_stop ?_
      all_goals
        have hall : ∀ e ∈ fs ++ gs, InnerEvent e := fun e he =>
          (List.mem_append.mp he).elim (hfs e) (hgs e)
        simpa using Cut.phase hinner hall hr

/-- The handle phase: a success has left no exception, a failure ends the dispatch. -/
theorem handlePhase_traced (response view : Nat) (w : World γ) :
    Traced (handlePhase call fuel response view) w (fun _ es _ => Whole [.handle] es) fun es =>
      Cut [.handle] es := by
  have hhandle : Within (Leaves InnerEvent) (handle call response view fuel) :=
    handle_closed (leaves_trail _).closed (userCall_inner hc) fun _ h => .handler (.handle h)
  have hsettles := (traced_leaves hhandle).with (handle_settles response view fuel w)
  refine (traced_within (phase_traced (P := fun b _ p => b = true → p = false) hhandle
    (hsettles.mono (fun _ _ _ _ h => h.2) fun _ _ => trivial))).bind ?_ ?_
  · rintro es ⟨inner, hinner, rfl⟩
    exact Cut.phase_stopped hinner _
  · rintro b es w' _ ⟨inner, hp, hinner, rfl⟩
    split
    · rename_i hb
      apply traced_pure
      rw [List.append_nil]
      exact Whole.phase hinner (by simp [PhaseRun.passed, hp hb, hb])
    · rename_i hb
      exact (exceptionHandle_null hc response w').mono (fun _ _ _ _ h => h) fun fs hfs =>
        Cut.phase hinner hfs (by simp [PhaseRun.passed, hb])

omit hc in
theorem turns_succ (k : Nat) : turns (k + 1) = turns 1 ++ turns k := by
  simp [turns, List.replicate_succ]

/-- One turn of the loop. -/
theorem dispatchTurn_traced (response view : Nat) (w : World γ) :
    Traced (dispatchTurn call fuel response view) w
      (fun _ es w' => Whole (turns 1) es ∧ EndsDispatched es w') fun es => Cut (turns 1) es := by
  refine (hookPhase_traced hc .preDispatch response w).bind
    (fun es h => h.mono ⟨[.handle, .hook .postDispatch], rfl⟩) fun _ es₁ w₁ _ h₁ => ?_
  refine (handlePhase_traced hc response view w₁).bind
    (fun es h => (h₁.1.append_cut h).mono ⟨[.hook .postDispatch], rfl⟩) fun _ es₂ w₂ _ h₂ => ?_
  apply traced_update
  refine (hookPhase_traced hc .postDispatch response _).mono ?_ ?_
  · rintro _ es₃ w₃ _ ⟨h₃, hd, -⟩
    exact ⟨h₁.1.append (h₂.append h₃), hd.append.append⟩
  · intro es₃ h₃
    exact h₁.1.append_cut (h₂.append_cut h₃)

/-- The loop left with `left'` has used up the difference in turns, and unless the counter ran out
it was left on a dispatched request. -/
theorem dispatchLoop_traced (response view left : Nat) (w : World γ) :
    Traced (dispatchLoop call fuel response view left) w
      (fun left' es w' => left' ≤ left ∧ (0 < left' → w'.dispatched = true) ∧
        Whole (turns (left + 1 - left')) es ∧ EndsDispatched es w')
      fun es => ∃ k, 1 ≤ k ∧ k ≤ left + 1 ∧ Cut (turns k) es := by
  induction left generalizing w with
  | zero =>
    refine (dispatchTurn_traced hc response view w).bind
      (fun es h => ⟨1, le_rfl, le_rfl, h⟩) fun _ es w' _ h => traced_pure ?_
    rw [List.append_nil]
    exact ⟨le_rfl, by simp, h⟩
  | succ left ih =>
    refine (dispatchTurn_traced hc response view w).bind
      (fun es h => ⟨1, le_rfl, by omega, h⟩) fun _ es w' _ h => ?_
    change Traced (if w'.php.request.dispatched then pure (left + 1)
      else dispatchLoop call fuel response view left) w' _ _
    split
    · rename_i hd
      apply traced_pure
      rw [List.append_nil, show left + 1 + 1 - (left + 1) = 1 by omega]
      exact ⟨le_rfl, fun _ => hd, h⟩
    · refine (ih w').mono ?_ ?_
      · rintro left' fs w'' _ ⟨hle, hd, hwhole, hends⟩
        refine ⟨by omega, hd, ?_, hends.append⟩
        rw [show left + 1 + 1 - left' = (left + 1 - left') + 1 by omega, turns_succ]
        exact h.1.append hwhole
      · rintro fs ⟨k, hk, hle, hcut⟩
        refine ⟨k + 1, by omega, by omega, ?_⟩
        rw [turns_succ]
        exact h.1.append_cut hcut

/-- The phases of the routing, unless the request is routed. -/
theorem routeRequest_traced (response : Nat) (w : World γ) :
    let word := if w.php.request.routed then []
      else [.hook .routerStartup, .route, .hook .routerShutdown]
    Traced (routeRequest call fuel response) w (fun _ es _ => Whole word es) fun es =>
      Cut word es := by
  intro word
  change Traced (if w.php.request.routed then within fixDefault else _) w _ _
  by_cases hr : w.php.request.routed = true
  · have hword : word = [] := if_pos hr
    rw [if_pos hr, hword]
    exact ⟨[], grew_update w _, Whole.inner (List.forall_mem_nil _)⟩
  · have hword : word = [.hook .routerStartup, .route, .hook .routerShutdown] := if_neg hr
    rw [if_neg hr, hword]
    refine (hookPhase_traced hc .routerStartup response w).bind
      (fun es h => h.mono ⟨[.route, .hook .routerShutdown], rfl⟩)
      fun _ es₁ w₁ _ ⟨h₁, _, hp₁⟩ => ?_
    refine (routePhase_traced hc response hp₁).bind
      (fun es h => (h₁.append_cut h).mono ⟨[.hook .routerShutdown], rfl⟩)
      fun _ es₂ w₂ _ h₂ => ?_
    apply traced_update
    rcases h₂ with h₂ | ⟨h₂, hp₂⟩
    · refine (hookPhase_traced hc .routerShutdown response _).bind
        (fun es₃ h => h₁.append_cut (h₂.append_cut h)) fun _ es₃ w₃ _ h₃ => ?_
      refine ⟨[], grew_update w₃ _, ?_⟩
      change Whole _ (es₁ ++ (es₂ ++ (es₃ ++ [])))
      rw [List.append_nil]
      exact h₁.append (h₂.append h₃.1)
    · obtain ⟨w₂', hw₂⟩ : ∃ w₂', w₂' = w₂.update fun php =>
        php.setRequest (dispatcherFixDefault php.dispatcher.defaults php.request) := ⟨_, rfl⟩
      have hp : w₂'.pending = true := hw₂ ▸ hp₂
      rw [← hw₂]
      refine ((hookPhase_traced hc .routerShutdown response w₂').with
        (hookPhase_pending .routerShutdown response hp)).bind
        (fun es₃ h => h₁.append_cut (h₂.append_cut h)) fun _ _ _ _ h => h.2.elim

end

end Yaf
