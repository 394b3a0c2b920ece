import Yaf.Dispatcher.Forwarder
import Yaf.Dispatcher.Trail

namespace Yaf
open Base Base.Run

/-- The name of the default segment. -/
def contentKey : Key := .name (lit "content")

/-- The text of the default segment of a response. -/
def segmentText (bodies : Table Key Zval) : Bytes :=
  match Table.find? bodies contentKey with
  | some (.string s) => s
  | _ => []

/-- What is appended of a result. -/
def resultText : Option Zval → Bytes
  | some (.string s) => s
  | _ => []

/-- The action did not return `false`. -/
def wantsView : Option Zval → Bool
  | some (.bool false) => false
  | _ => true

section
variable {γ : Type}

/-- The response is as it was. -/
def Kept (response : Nat) (w w' : World γ) : Prop :=
  w'.php.bodies response = w.php.bodies response

/-- The default segment of the response grew by this text, and no other segment changed. -/
structure Grown (response : Nat) (text : Bytes) (w w' : World γ) : Prop where
  default : segmentText (w'.php.bodies response) = segmentText (w.php.bodies response) ++ text
  others : ∀ key ≠ contentKey,
    Table.find? (w'.php.bodies response) key = Table.find? (w.php.bodies response) key

/-- How an application renders: `render` of a controller is a function of the name the controller
has and of the action, and nothing it runs touches the response. -/
structure RendersBy (call : Calls γ) (response : Nat) (render : Bytes → Bytes → Option Zval) :
    Prop where
  result : ∀ ce this name action w,
    Table.find? (w.php.objects this) (lit "_name") = some (.string name) →
    (call (.method ce this (lit "render") [.string action]) w).1 = .ok (render name action)
  untouched : ∀ site, Within (Kept response) (call site)

namespace Visit

/-- What is rendered for the visit: its controller and its action, under the names they were
dispatched by. -/
def rendered (render : Bytes → Bytes → Option Zval) (visit : Visit γ) : Bytes :=
  resultText (render visit.made.controller visit.action)

/-- When the action has returned, automatic rendering is on and instant flush off. -/
structure AutoRenders (visit : Visit γ) : Prop where
  render : autoRender (Table.find? (visit.after.objects visit.executor) (lit "yafAutoRender"))
    visit.after.dispatcher.autoRender = true
  flush : visit.after.dispatcher.instantlyFlush = false

/-- When the action is called the request has the controller name it was entered with, and the
action leaves alone the name on its own controller. -/
structure NamesKept (visit : Visit γ) : Prop where
  request : (visit.before.requests visit.made.entry.request).controller =
    .string visit.made.controller
  object : Table.find? (visit.after.objects visit.executor) (lit "_name") =
    Table.find? (visit.before.objects visit.executor) (lit "_name")

/-- What the visit adds to the response. -/
def text (render : Bytes → Bytes → Option Zval) (visit : Visit γ) : Bytes :=
  if wantsView visit.ret then visit.rendered render else []

end Visit

theorem kept_chains (response : Nat) : Chains (Kept (γ := γ) response) where
  refl _ := rfl
  trans h h' := h'.trans h

theorem kept_frames (response : Nat) :
    Frames (γ := γ) (fun _ m => Within (Kept response) m) fun _ => True where
  pure a := within_pure (kept_chains response) a
  stop s := within_stop (kept_chains response) s
  bind := within_bind (kept_chains response)
  get := within_bind (kept_chains response) (within_get (kept_chains response)) fun _ =>
    within_pure (kept_chains response) _
  update _ _ hb w := congrFun (hb w.php) response
  log _ _ := rfl

theorem Grown.of_kept {response : Nat} {w w' : World γ} (h : Kept response w w') :
    Grown response [] w w' :=
  ⟨by rw [h, List.append_nil], fun _ _ => by rw [h]⟩

theorem Grown.trans {response : Nat} {s t : Bytes} {u v w : World γ} (h : Grown response s u v)
    (h' : Grown response t v w) : Grown response (s ++ t) u w :=
  ⟨by rw [h'.default, h.default, List.append_assoc], fun key hk =>
    (h'.others key hk).trans (h.others key hk)⟩

/-- An append to the default segment. -/
theorem responseAppend_grown {response : Nat} {body : Bytes} {w w' : World γ}
    (h : responseAppend response body w = (.ok (), w')) : Grown response body w w' := by
  unfold responseAppend at h
  split at h
  · rename_i hbody
    subst hbody
    obtain rfl : w = w' := (Prod.mk.inj h).2
    exact Grown.of_kept rfl
  · obtain rfl := (Prod.mk.inj h).2
    let bodies := w.php.bodies response
    have hafter : ∀ o : Nat, o = response → (if o = response then
        Table.update bodies contentKey (.string (segmentText bodies ++ body)) else w.php.bodies o) =
          Table.update bodies contentKey (.string (segmentText bodies ++ body)) :=
      fun _ ho => if_pos ho
    constructor
    · refine (congrArg segmentText (hafter response rfl)).trans ?_
      rw [segmentText, Table.find?_update_self]
    · intro key hk
      refine (congrArg (Table.find? · key) (hafter response rfl)).trans ?_
      exact Table.find?_update_other _ _ hk

/-- The object has the controller name of the request. -/
def Named (made : Made) (object : Nat) (php : Php γ) : Prop :=
  Table.find? (php.objects object) (lit "_name") =
    some (php.requests made.entry.request).controller

/-- What is known of a visit when its action has returned. -/
structure Visit.Returned (visit : Visit γ) (w : World γ) : Prop where
  after : visit.after = w.php
  named : Named visit.made visit.executor visit.before

section
variable {call : Calls γ} {made : Made} {w : World γ}

theorem callExecutor_returned {ce : ClassEntry} {executor : Nat} {method action : Bytes}
    {names : List Bytes} (hn : Named made executor w.php) :
    Meets (callExecutor call made ce executor method action names) w
      (fun visit w' => ∀ v, visit = some v → v.Returned w') fun _ _ => True := by
  rw [callExecutor, meets_read]
  refine meets_after _ fun ret w' => ?_
  rw [meets_read, meets_pure]
  intro v hv
  obtain rfl := Option.some.inj hv
  exact ⟨rfl, hn⟩

theorem callActionClass_returned {response view : Nat} {ce : ClassEntry} {action : Bytes} :
    Meets (callActionClass call response view made ce action) w
      (fun visit w' => ∀ v, visit = some v → v.Returned w') fun _ _ => True := by
  have hother : lit "_name" ≠ lit "_controller" := by decide +kernel
  unfold callActionClass
  split
  · simp
  refine meets_after _ fun executor _ => meets_after _ fun _ w₁ => ?_
  rw [meets_read, meets_bind, setProperty, updatePhp, meets_modify, meets_bind, setProperty,
    updatePhp, meets_modify]
  apply callExecutor_returned
  simp [Named, World.update, Php.setProperty, Table.find?_update_other _ _ hother]

theorem callAction_returned {response view : Nat} {module : Zval}
    (hn : Named made made.self w.php) :
    Meets (callAction call response view made module) w
      (fun visit w' => ∀ v, visit = some v → v.Returned w') fun _ _ => True := by
  rw [callAction, meets_read]
  unfold callNamed
  split
  · split
    · exact callExecutor_returned hn
    · refine meets_after _ fun ce w₁ => ?_
      split
      · simp
      · exact callActionClass_returned
  · trivial

theorem announce_named : Meets (announce made) w (fun _ w' => Named made made.self w'.php)
    fun _ _ => True := by
  have hset : ∀ w' : World γ, w'.php.requests = w.php.requests →
      Meets (setProperty made.self (lit "_name")
          (w.php.requests made.entry.request).controller >>= fun _ =>
            (pure (w.php.requests made.entry.request).module : Exec γ Zval)) w'
        (fun _ w' => Named made made.self w'.php) fun _ _ => True := by
    intro w' hw
    simp [Named, setProperty, updatePhp, World.update, Php.setProperty, hw]
  rw [announce, meets_read, meets_bind]
  unfold publishViews
  split
  · exact hset _ rfl
  · exact hset _ rfl
  · trivial

theorem handleVisit_returned {response view fuel : Nat} :
    Meets (handleVisit call response view fuel) w
      (fun visit w' => ∀ v, visit = some v → v.Returned w') fun _ _ => True := by
  induction fuel generalizing w with
  | zero => trivial
  | succ fuel ih =>
    refine meets_after _ fun made w₁ => ?_
    split
    · simp
    rw [meets_read]
    split
    · simp
    split
    · exact ih
    rw [meets_bind]
    exact announce_named.mono (fun _ _ h => callAction_returned h) fun _ _ _ => trivial

section
variable {response : Nat} {render : Bytes → Bytes → Option Zval} {w w' : World γ}

theorem userCall_kept (hc : ∀ site, Within (Kept response) (call site)) (site : Site) :
    Within (Kept response) (userCall call site) :=
  userCall_closed (kept_frames response) hc (fun _ _ _ _ _ => trivial) site

/-- A call that has a result: what the code returned is the result. -/
theorem userCall_result {site : Site} {ret : Zval} 
    (h : userCall call site w = (.ok (some ret), w')) :
    (call site w).1 = .ok (some ret) := by
  unfold userCall at h
  rw [read_run] at h
  split at h
  · cases h
  obtain ⟨found, w₁, hcall, h⟩ := bind_eq_ok h
  rw [hcall]
  rw [read_run] at h
  obtain ⟨_, w₂, -, h⟩ := bind_eq_ok h
  split at h
  · cases h
  · rw [(Prod.mk.inj h).1]

/-- The end of a handle call whose executor renders. -/
theorem renderAction_grown (hr : RendersBy call response render) {ce : ClassEntry}
    {executor : Nat} {name action : Bytes}
    (hname : Table.find? (w.php.objects executor) (lit "_name") = some (.string name))
    (hauto : autoRender (Table.find? (w.php.objects executor) (lit "yafAutoRender"))
      w.php.dispatcher.autoRender = true)
    (hflush : w.php.dispatcher.instantlyFlush = false)
    (h : renderAction call ce executor action response w = (.ok true, w')) :
    Grown response (resultText (render name action)) w w' := by
  unfold renderAction readProperty at h
  rw [bind_bind, read_run, pure_bind_eq, read_run, if_pos hauto,
    if_pos (by rw [hflush]; rfl)] at h
  obtain ⟨ret, w₁, hcall, h⟩ := bind_eq_ok h
  have hkept : Kept response w w₁ := by
    have hw := userCall_kept hr.untouched (.method ce executor (lit "render") [.string action]) w
    rwa [hcall] at hw
  have hret : ∀ value, ret = some value → render name action = some value := by
    rintro value rfl
    have hfound := (hr.result ce executor name action w hname).symm.trans (userCall_result hcall)
    exact Except.ok.inj hfound
  split at h
  · cases h
  · cases h
  · rename_i body
    obtain ⟨_, w₂, happend, h⟩ := bind_eq_ok h
    obtain rfl : w₂ = w' := (Prod.mk.inj h).2
    rw [hret _ rfl]
    exact (Grown.of_kept hkept).trans (responseAppend_grown happend)
  · rename_i value _ hstring
    obtain rfl : w₁ = w' := (Prod.mk.inj h).2
    rw [hret _ rfl]
    cases value with
    | string body => exact absurd rfl (hstring body)
    | _ => exact Grown.of_kept hkept

/-- An executor that has returned renders unless it returned `false`. -/
theorem afterAction_grown (hr : RendersBy call response render) {ce : ClassEntry}
    {executor : Nat} {name action : Bytes} {ret : Option Zval}
    (hname : Table.find? (w.php.objects executor) (lit "_name") = some (.string name))
    (hauto : autoRender (Table.find? (w.php.objects executor) (lit "yafAutoRender"))
      w.php.dispatcher.autoRender = true)
    (hflush : w.php.dispatcher.instantlyFlush = false)
    (h : afterAction call ce executor action response ret w = (.ok true, w')) :
    Grown response (if wantsView ret then resultText (render name action) else []) w w' := by
  unfold afterAction at h
  split at h
  · cases h
  · obtain rfl : w = w' := (Prod.mk.inj h).2
    exact Grown.of_kept rfl
  · rename_i value hfalse
    have hwants : wantsView (some value) = true := by
      unfold wantsView
      split
      · rename_i hbool
        exact absurd (Option.some.inj hbool) hfalse
      · rfl
    rw [if_pos hwants]
    exact renderAction_grown hr hname hauto hflush h

/-- What a visit adds, when its action has returned. -/
theorem afterVisit_grown (hr : RendersBy call response render) {visit : Visit γ}
    (hreturned : visit.Returned w) (hauto : visit.AutoRenders) (hkept : visit.NamesKept)
    (h : afterVisit call response (some visit) w = (.ok true, w')) :
    Grown response (visit.text render) w w' := by
  have hname : Table.find? (w.php.objects visit.executor) (lit "_name") =
      some (.string visit.made.controller) := by
    rw [← hreturned.after, hkept.object, hreturned.named, hkept.request]
  exact afterAction_grown hr hname (hreturned.after ▸ hauto.render)
    (hreturned.after ▸ hauto.flush) h

end

end

section
variable (call : Calls γ) (fuel response view : Nat)

/-- The visit of one turn of the loop, when its action returns. -/
def turnVisit (w : World γ) : Option (Visit γ) :=
  match hookPhase call fuel .preDispatch response w with
  | (.ok _, w₁) =>
    match (handleVisit call response view fuel w₁).1 with
    | .ok visit => visit
    | .error _ => none
  | (.error _, _) => none

/-- The visits of the dispatch loop, one for each turn. -/
def loopVisits : Nat → World γ → List (Visit γ)
  | 0, w => (turnVisit call fuel response view w).toList
  | left + 1, w =>
    (turnVisit call fuel response view w).toList ++
      match dispatchTurn call fuel response view w with
      | (.ok _, w') => if w'.php.request.dispatched then [] else loopVisits left w'
      | (.error _, _) => []

end

section
variable {call : Calls γ} {fuel response view : Nat} {render : Bytes → Bytes → Option Zval}
  {w w' : World γ}

theorem within_eq_ok {α : Type} {m : Exec γ α} {a : α} (h : within m w = (.ok a, w')) :
    m w = (.ok a, w') :=
  lift_eq_ok h

theorem phase_eq_ok {p : Phase} {m : Exec γ Bool} {b : Bool} (h : phase p m w = (.ok b, w')) :
    ∃ w₁, m w = (.ok b, w₁) ∧ w'.php = w₁.php := by
  unfold phase at h
  cases hm : m w with
  | mk r w₁ =>
    rw [hm] at h
    cases r with
    | ok a =>
      obtain ⟨ha, rfl⟩ := Prod.mk.inj h
      rw [Except.ok.inj ha]
      exact ⟨w₁, rfl, rfl⟩
    | error e => cases h

/-- The macro goes on only where no exception is pending. -/
theorem exceptionHandle_eq_ok {u : Unit}
    (h : exceptionHandle call fuel response w = (.ok u, w')) : w' = w := by
  obtain ⟨php, w₁, hread, h⟩ := bind_eq_ok h
  have hread : getPhp w = (.ok php, w₁) := within_eq_ok hread
  obtain rfl : w = w₁ := (Prod.mk.inj hread).2
  split at h
  · obtain ⟨_, _, _, h⟩ := bind_eq_ok h
    cases h
  · exact (Prod.mk.inj h).2.symm

/-- Hooks that do not touch the response leave it. -/
theorem hookPhase_kept (hc : ∀ site, Within (Kept response) (call site)) {hook : Hook} {u : Unit}
    (h : hookPhase call fuel hook response w = (.ok u, w')) : Kept response w w' := by
  obtain ⟨b, w₁, hphase, h⟩ := bind_eq_ok h
  obtain rfl := exceptionHandle_eq_ok h
  obtain ⟨w₀, hrun, hphp⟩ := phase_eq_ok (within_eq_ok hphase)
  have hw : Kept response w (pluginHandle call hook response w).2 :=
    pluginHandle_closed (kept_frames response) (userCall_kept hc) w
  rw [hrun] at hw
  rw [Kept, hphp]
  exact hw

/-- A handle phase that is passed has a visit in it. -/
theorem handlePhase_grown (hr : RendersBy call response render) {u : Unit}
    (h : handlePhase call fuel response view w = (.ok u, w')) :
    ∃ visit w₁, handleVisit call response view fuel w = (.ok (some visit), w₁) ∧
      (visit.AutoRenders → visit.NamesKept → Grown response (visit.text render) w w') := by
  obtain ⟨handled, w₂, hphase, h⟩ := bind_eq_ok h
  obtain ⟨w₁, hhandle, hphp⟩ := phase_eq_ok (within_eq_ok hphase)
  split at h
  · rename_i hhandled
    subst hhandled
    obtain rfl : w₂ = w' := (Prod.mk.inj h).2
    rw [handle_eq_visit] at hhandle
    obtain ⟨visit, w₀, hvisit, hafter⟩ := bind_eq_ok hhandle
    cases visit with
    | none => cases hafter
    | some visit =>
      refine ⟨visit, w₀, hvisit, fun hauto hkept => ?_⟩
      have hreturned := handleVisit_returned.ok hvisit visit rfl
      have hbefore : Kept response w (handleVisit call response view fuel w).2 :=
        handleVisit_closed (kept_frames response) (userCall_kept hr.untouched)
          (fun _ _ => trivial) w
      rw [hvisit] at hbefore
      have hgrown :=
        (Grown.of_kept hbefore).trans (afterVisit_grown hr hreturned hauto hkept hafter)
      have hlogged : Kept response w₁ w₂ := by rw [Kept, hphp]
      simpa using hgrown.trans (Grown.of_kept hlogged)
  · obtain ⟨_, _, _, h⟩ := bind_eq_ok h
    cases h

/-- One turn appends what its visit renders. -/
theorem dispatchTurn_grown (hr : RendersBy call response render) {u : Unit}
    (h : dispatchTurn call fuel response view w = (.ok u, w')) :
    ∃ visit, turnVisit call fuel response view w = some visit ∧
      (visit.AutoRenders → visit.NamesKept → Grown response (visit.text render) w w') := by
  obtain ⟨_, w₁, hpre, h⟩ := bind_eq_ok h
  obtain ⟨_, w₂, hphase, h⟩ := bind_eq_ok h
  obtain ⟨_, w₃, hfix, hpost⟩ := bind_eq_ok h
  obtain ⟨visit, w₀, hvisit, hgrown⟩ := handlePhase_grown hr hphase
  refine ⟨visit, ?_, fun hauto hkept => ?_⟩
  · unfold turnVisit
    rw [hpre]
    dsimp only
    rw [hvisit]
  · have hfix : fixDefault w₂ = (.ok _, w₃) := within_eq_ok hfix
    have hfixed : Kept response w₂ w₃ := by
      rw [← (Prod.mk.inj hfix).2]
      rfl
    have hbefore := Grown.of_kept (hookPhase_kept hr.untouched hpre)
    have hafter := Grown.of_kept
      ((kept_chains response).trans hfixed (hookPhase_kept hr.untouched hpost))
    simpa using hbefore.trans ((hgrown hauto hkept).trans hafter)

/-- Over any run of the loop, however its actions forward: it has one visit for each turn, and the
response grew by what the visits rendered, in their order, as long as no visit lost the controller
name it was dispatched by. -/
theorem rendered_in_order (hr : RendersBy call response render) {left left' : Nat}
    (hauto : ∀ visit ∈ loopVisits call fuel response view left w, visit.AutoRenders)
    (hkept : ∀ visit ∈ loopVisits call fuel response view left w, visit.NamesKept)
    (h : dispatchLoop call fuel response view left w = (.ok left', w')) :
    (loopVisits call fuel response view left w).length + left' = left + 1 ∧
      Grown response ((loopVisits call fuel response view left w).flatMap (Visit.text render))
        w w' := by
  induction left generalizing w with
  | zero =>
    obtain ⟨_, w₁, hturn, h⟩ := bind_eq_ok h
    obtain ⟨rfl, rfl⟩ := pure_eq_ok h
    obtain ⟨visit, hvisit, hgrown⟩ := dispatchTurn_grown hr hturn
    have hvisits : loopVisits call fuel response view 0 w = [visit] := by
      rw [loopVisits, hvisit]
      rfl
    rw [hvisits] at hauto hkept ⊢
    refine ⟨rfl, ?_⟩
    simpa using hgrown (hauto visit (by simp)) (hkept visit (by simp))
  | succ left ih =>
    obtain ⟨_, w₁, hturn, h⟩ := bind_eq_ok h
    obtain ⟨visit, hvisit, hgrown⟩ := dispatchTurn_grown hr hturn
    have hvisits : loopVisits call fuel response view (left + 1) w = visit ::
        if w₁.php.request.dispatched then [] else loopVisits call fuel response view left w₁ := by
      rw [loopVisits, hvisit, hturn]
      rfl
    rw [hvisits] at hauto hkept ⊢
    have hfirst := hgrown (hauto visit (by simp)) (hkept visit (by simp))
    obtain ⟨request, w₂, hread, h⟩ := bind_eq_ok h
    have hread : getRequest w₁ = (.ok request, w₂) := within_eq_ok hread
    obtain ⟨hrequest, rfl⟩ := Prod.mk.inj hread
    obtain rfl := Except.ok.inj hrequest
    cases hd : w₁.php.request.dispatched with
    | true =>
      rw [if_pos hd] at h
      obtain ⟨rfl, rfl⟩ := pure_eq_ok h
      exact ⟨Nat.add_comm _ _, by simpa using hfirst⟩
    | false =>
      rw [if_neg (by simp [hd])] at h
      rw [hd] at hauto hkept
      obtain ⟨hcount, hrest⟩ := ih (fun v hv => hauto v (List.mem_cons_of_mem visit hv))
        (fun v hv => hkept v (List.mem_cons_of_mem visit hv)) h
      refine ⟨?_, hfirst.trans hrest⟩
      simp only [Bool.false_eq_true, ↓reduceIte, List.length_cons]
      omega

end

end

/-- A render result tells the two names. -/
def paint (name action : Bytes) : Option Zval := some (.string (name ++ slash :: action))

/-- What `render` of the application returns. -/
def painted : Option Zval → List Zval → Option Zval
  | some (.string name), [.string action] => paint name action
  | _, _ => none

/-- An application whose methods do this to the state, and are rendered. -/
def painter (act : Bytes → Php Nat → Php Nat) : Site → Script Nat
  | .method _ this name args =>
    if name = lit "render" then
      .step id fun php => .done (painted (Table.find? (php.objects this) (lit "_name")) args)
    else .step (act name) fun _ => .done (some .null)
  | _ => .done none

theorem painter_renders {act : Bytes → Php Nat → Php Nat}
    (h : ∀ name php, (act name php).bodies = php.bodies) (fuel room response : Nat) :
    RendersBy (callAt (painter act) fuel room) response paint where
  result ce this name action w hname := by
    have hrun : callAt (painter act) fuel room (.method ce this (lit "render") [.string action]) w =
        (.ok (painted (Table.find? (w.php.objects this) (lit "_name")) [.string action]), w) := by
      cases room <;> rfl
    rw [hrun, hname]
    rfl
  untouched site w := by
    cases site with
    | method ce this name args =>
      have hrun : (callAt (painter act) fuel room (.method ce this name args) w).2 = w ∨
          (callAt (painter act) fuel room (.method ce this name args) w).2 =
            w.update (act name) := by
        by_cases hr : name = lit "render"
        · left
          cases room <;> simp [callAt, painter, hr, runScript] <;> rfl
        · right
          cases room <;> simp [callAt, painter, hr, runScript] <;> rfl
      rcases hrun with hrun | hrun
      · rw [hrun]
        rfl
      · rw [hrun]
        exact congrFun (h name w.php) response
    | _ => cases room <;> rfl

theorem visit_bodies (forwards : Forwards) (name : Bytes) (php : Php Nat) :
    (visit forwards name php).bodies = php.bodies := by
  unfold visit
  split <;> rfl

/-- A check that the names of a visit were kept. -/
def Visit.keepsNames {γ : Type} (visit : Visit γ) : Bool :=
  let name (php : Php γ) :=
    (Table.find? (php.objects visit.executor) (lit "_name")).bind Zval.string?
  decide ((visit.before.requests visit.made.entry.request).controller.string? =
      some visit.made.controller) &&
    decide (name visit.before = some visit.made.controller) &&
    decide (name visit.after = some visit.made.controller)

theorem Visit.keepsNames_kept {γ : Type} {visit : Visit γ} (h : visit.keepsNames = true) :
    visit.NamesKept := by
  simp only [Visit.keepsNames, Bool.and_eq_true, decide_eq_true_eq, Option.bind_eq_some_iff,
    Zval.string?_eq_some] at h
  obtain ⟨⟨hrequest, v, hbefore, rfl⟩, v', hafter, rfl⟩ := h
  exact ⟨hrequest, hafter.trans hbefore.symm⟩

instance {γ : Type} (visit : Visit γ) : Decidable visit.AutoRenders :=
  decidable_of_iff (_ ∧ _) ⟨fun h => ⟨h.1, h.2⟩, fun h => ⟨h.render, h.flush⟩⟩

/-- The first action forwards to `list`. -/
def forwardsToList : Forwards := fun _ n => if n = 0 then some [.string (lit "list")] else none

theorem rendered_in_order_sample :
    let call := callAt (painter (visit forwardsToList)) 1 0
    let w := World.start (forwarderPhp [lit "indexaction", lit "listaction"] 5)
    (loopVisits call 1 1 2 4 w).length + 3 = 4 + 1 ∧
      Grown 1 ((loopVisits call 1 1 2 4 w).flatMap (Visit.text paint)) w
        (dispatchLoop call 1 1 2 4 w).2 :=
  rendered_in_order (painter_renders (visit_bodies forwardsToList) 1 0 1) (by decide +kernel)
    (fun visit hv => Visit.keepsNames_kept (List.all_eq_true.mp (by decide +kernel) visit hv))
    (eq_ok_of_toOption (by decide +kernel))

/-- The `init` of the application sets another controller name and does not forward. -/
def renameController (name : Bytes) (php : Php Nat) : Php Nat :=
  if name = lit "init" then
    php.setRequest { php.request with controller := .string (lit "Other") }
  else php

/-- The action of `Index` is rendered as one of `Other`. -/
theorem rendered_under_other_name :
    ¬∀ (γ : Type) (call : Calls γ) (fuel response view left left' : Nat)
      (render : Bytes → Bytes → Option Zval) (w w' : World γ),
      RendersBy call response render →
      (∀ visit ∈ loopVisits call fuel response view left w, visit.AutoRenders) →
      dispatchLoop call fuel response view left w = (.ok left', w') →
      (loopVisits call fuel response view left w).length + left' = left + 1 ∧
        Grown response ((loopVisits call fuel response view left w).flatMap (Visit.text render))
          w w' := by
  intro h
  let call := callAt (painter renameController) 1 0
  let w := World.start (forwarderPhp [lit "init", lit "indexaction"] 5)
  have hbodies : ∀ name php, (renameController name php).bodies = php.bodies := by
    intro name php
    unfold renameController
    split <;> rfl
  have hgrown := h Nat call 1 1 2 4 4 paint w (dispatchLoop call 1 1 2 4 w).2
    (painter_renders hbodies 1 0 1) (by decide +kernel) (eq_ok_of_toOption (by decide +kernel))
  have hbad := hgrown.2.default
  revert hbad
  decide +kernel

end Yaf
