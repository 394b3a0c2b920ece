import Yaf.Dispatcher.Lifecycle
import Yaf.Dispatcher.OneHandler
import Yaf.Dispatcher.Settling

namespace Yaf
open Base Base.Run

def Event.isNewController : Event → Bool
  | .newController .. => true
  | _ => false

/-- How many controllers are made. -/
def controllersMade (es : List Event) : Nat := es.countP Event.isNewController

/-- Code that runs before the action of a visit, an `init` or a script that is imported, leaves the
request for another visit. -/
def Event.sendsBack : Event → Bool
  | .called (.script _) _ after _ _ => !after.dispatched
  | .called (.method _ _ name _) _ after _ _ => decide (name = lit "init") && !after.dispatched
  | _ => false

/-- The exception handler is not entered and no visit is sent back. -/
def Event.Straight (e : Event) : Prop := e.ofHandler = false ∧ e.sendsBack = false

/-- At most this many controllers are made. -/
def Makes (k : Nat) (es : List Event) : Prop := controllersMade es ≤ k

theorem rides_true {γ : Type} {C : List Event → Event → Prop} {Sites : Site → Prop}
    {P : World γ → Prop} (h : ∀ w, P w) : Rides C Sites P where
  php _ _ _ := h _
  call _ _ _ _ := h _

theorem makes_settling {γ : Type} :
    Settling (γ := γ) (fun _ => Event.Straight) Makes (fun _ => True) (fun _ => True)
      (fun _ => True) fun _ => True where
  nil := Nat.le_refl 0
  append := by
    intro k l es fs h h'
    rw [Makes, controllersMade, List.countP_append]
    exact Nat.add_le_add h h'
  mono hk h := Nat.le_trans h hk
  called site before after defaults threw := Nat.le_refl 0
  phase run := Nat.le_refl 0
  nesting limit := Nat.le_refl 0
  fix _ := trivial
  hooks := rides_true fun _ => ⟨trivial, trivial⟩
  unrouted := rides_true fun _ => trivial
  unroutedLoose _ := trivial
  unroutedRequest _ := trivial
  startup _ := trivial
  route _ := trivial
  visit := rides_true fun _ => trivial
  visitLoose _ := trivial
  handled _ := trivial
  visit_of_unrouted _ := trivial
  visit_of_settled _ := trivial

section
variable {γ : Type} {call : Calls γ} {fuel : Nat}

/-- The request is dispatched. -/
def Standing (w : World γ) : Prop := w.dispatched = true

theorem standing_steady : Steady (Standing : World γ → Prop) where
  php w php hr hd h := by
    rw [Standing, World.dispatched, Php.request] at h ⊢
    rw [← h, hr, hd]
  log w e h := h

variable (hc : ∀ site, Within Quiet (call site))
include hc

theorem call_grows (site : Site) : Within (Leaves fun _ => True) (userCall call site) :=
  userCall_leaves hc (fun _ _ _ _ _ => trivial) site

/-- A visit that is not sent back makes one controller, and one frame is enough for it. -/
theorem handle_makes (response view : Nat) :
    Relies (fun _ => Event.Straight) Makes (Settled (fun _ => True) fun _ => True) 1
      (handle call response view (fuel + 1)) (handle call response view 1)
      fun _ _ => True := by
  have hgrows : Within (Leaves fun _ => True) (handle call response view fuel) :=
    handle_closed (leaves_trail _).closed (call_grows hc) fun _ _ => trivial
  refine handle_relies makes_settling hc (Q := Standing) standing_steady (fun _ _ => trivial)
    (fun _ h => h) (fun _ _ => trivial) ?_ (fun _ _ => Nat.le_refl 0) (fun _ _ _ => Nat.le_refl 0)
    (fun _ _ => Nat.le_refl 1) ?_ ?_ ?_
  · intro w _
    change (w.php.setRequest _).request.dispatched = true
    rw [Php.request_setRequest]
  · intro w w' path _ _ hC
    have hback := hC.2
    simpa [calledEvent, Event.sendsBack, Standing, World.dispatched] using hback
  · intro w w' ce this args _ _ hC
    have hback := hC.2
    simpa [calledEvent, Event.sendsBack, Standing, World.dispatched] using hback
  · refine relies_never hgrows fun w h => ?_
    rw [h.1] at h
    exact absurd h.2.2 (by simp)

/-- The exception handler is not entered. -/
theorem exceptionHandler_makes (response : Nat) :
    Relies (fun _ => Event.Straight) Makes (fun _ => True) 0
      (exceptionHandler call (fuel + 1) response) (exceptionHandler call 1 response)
      fun _ _ => True := by
  have g := (makes_settling (γ := γ)).toGrading
  have t := leaves_trail (γ := γ) fun _ => True
  have hraise : Relies (γ := γ) (fun _ => Event.Straight) Makes (fun _ => True) 0
      (Run.modify fun w => { w with inException := true } : Exec γ Unit)
      (Run.modify fun w => { w with inException := true }) fun _ _ => True :=
    relies_modify g (fun w => ⟨rfl, (List.append_nil _).symm⟩) fun _ h => h
  refine (relies_get g).bind_right g fun w => ?_
  split
  · exact relies_pure g fun _ _ => trivial
  split
  · exact relies_pure g fun _ _ => trivial
  rename_i thrown _ _
  refine Relies.bind_right g (Q := fun _ _ => True)
    (hraise.mono g le_rfl (fun _ _ => trivial) fun _ _ _ => trivial) fun _ => ?_
  refine relies_read fun php => ?_
  refine Relies.bind_right g (Q := fun _ _ => False)
    (relies_record (fun _ _ hC => absurd hC.1 (by simp [Event.ofHandler]))
      fun _ _ hC => absurd hC.1 (by simp [Event.ofHandler])) fun _ => ?_
  refine relies_never ?_ fun _ h => h
  refine t.bind (t.update fun _ => rfl) fun _ => ?_
  refine t.bind (dispatcherInitView_closed t.closed.frames) fun view => ?_
  refine t.bind (handlerDispatches_within t (call_grows hc) fun _ _ => trivial) fun _ => ?_
  exact t.update fun _ => rfl

end

/-- The bound on all visits of one dispatch, those that an `init` sent back included: no visit is
sent back, so that each turn of the loop makes one controller at most, and a stack of one frame is
as good as any. -/
theorem controllers_made_le {γ : Type} (app : Site → Script γ) (fuel room : Nat) (w : World γ)
    (h₁ : 1 ≤ w.php.globals.forwardLimit) (h₂ : w.php.globals.forwardLimit < 2 ^ 32)
    (hquiet : ∀ e ∈ dispatchTrace (callAt app (fuel + 1) room) (fuel + 1) w, e.ofHandler = false)
    (hback : ∀ e ∈ dispatchTrace (callAt app (fuel + 1) room) (fuel + 1) w,
      e.sendsBack = false) :
    controllersMade (dispatchTrace (callAt app (fuel + 1) room) (fuel + 1) w) ≤
        w.php.globals.forwardLimit.toNat ∧
      dispatch (callAt app (fuel + 1) room) (fuel + 1) w =
        dispatch (callAt app (fuel + 1) room) 1 w := by
  have hc := callAt_quiet app (fuel + 1) room
  obtain ⟨hsame, hmade⟩ := dispatch_relies makes_settling hc (handle_makes hc)
    (exceptionHandler_makes hc) w trivial (along_of_forall fun e he => ⟨hquiet e he, hback e he⟩)
  rw [Makes, firstLeft_of_bounds h₁ (Int.le_of_lt h₂)] at hmade
  exact ⟨hmade, hsame⟩

theorem controllers_made_le_sample :
    controllersMade (dispatchTrace (callAt (forwarder forwardsAlways) 1 0) 1
      (.start (forwarderPhp [lit "indexaction"] 5))) ≤ 5 :=
  (controllers_made_le (forwarder forwardsAlways) 0 0 (.start (forwarderPhp [lit "indexaction"] 5))
    (by decide) (by decide) (by decide +kernel) (by decide +kernel)).1

/-- The first `init` forwards, nothing else does. -/
def forwardsFirstInit : Forwards := fun name n =>
  if name = lit "init" ∧ n = 0 then some [.string (lit "index")] else none

/-- With the limit 1 a dispatch that goes through makes two controllers. -/
theorem init_forward_uncounted :
    ¬∀ (γ : Type) (app : Site → Script γ) (fuel room : Nat) (w : World γ) (response : Nat),
      1 ≤ w.php.globals.forwardLimit → w.php.globals.forwardLimit < 2 ^ 32 →
      (dispatch (callAt app fuel room) fuel w).1 = .ok (some response) →
      (∀ e ∈ dispatchTrace (callAt app fuel room) fuel w, e.ofHandler = false) →
      controllersMade (dispatchTrace (callAt app fuel room) fuel w) ≤
        w.php.globals.forwardLimit.toNat := by
  intro h
  have hmade := h Nat (forwarder forwardsFirstInit) 2 0
    (.start (forwarderPhp [lit "init", lit "indexaction"] 1)) 1 (by decide) (by decide)
    (by decide +kernel) (by decide +kernel)
  revert hmade
  decide +kernel

end Yaf
