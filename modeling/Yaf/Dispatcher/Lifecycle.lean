import Yaf.Dispatcher.Forwarder
import Yaf.Dispatcher.Phases

namespace Yaf
open Base Base.Run

/-- The phases of the routing of a dispatch. -/
def routeWord (routed : Bool) : List Phase :=
  if routed then [] else [.hook .routerStartup, .route, .hook .routerShutdown]

theorem dispatchWord_eq (routed : Bool) (k : Nat) :
    dispatchWord routed k = routeWord routed ++ [.hook .dispatchLoopStartup] ++
      (turns k ++ [.hook .dispatchLoopShutdown]) := by
  simp [dispatchWord, routeWord]

/-- All phases of a dispatch passed. Its loop could have `total` turns and was left with `left` of
them; `post` is the last phase of the loop, `last` the one behind it. -/
structure Finished (routed : Bool) (total left : Nat) (es : List Event) (post last : PhaseRun) :
    Prop where
  left_lt : left < total
  names : (phases es).map PhaseRun.phase = dispatchWord routed (total - left)
  passed : ∀ r ∈ phases es, r.passed = true
  ends : ∃ rs, phases es = rs ++ [post, last]
  dispatched : 0 < left → post.leftDispatched = true

section
variable {γ : Type} {call : Calls γ} {fuel : Nat}

variable (hc : ∀ site, Within Quiet (call site))
include hc

theorem finishDispatch_traced (response left : Nat) (w : World γ) :
    Traced (finishDispatch call fuel response left) w
      (fun _ es _ => (∀ e ∈ es, InnerEvent e) ∧ ¬(left = 0 ∧ w.dispatched = false))
      fun es => left = 0 ∧ w.dispatched = false ∧ phases es = [] ∧
        nestingErrors es = [w.php.globals.forwardLimit] := by
  apply traced_read
  split
  · rename_i h
    have hrecord : Traced (within (record (.nestingError w.php.globals.forwardLimit))) w
        (fun _ es _ => es = [.nestingError w.php.globals.forwardLimit]) fun _ => False :=
      ⟨_, grew_record w _, rfl⟩
    have hraised : ∀ fs : List Event, (∀ e ∈ fs, InnerEvent e) →
        left = 0 ∧ w.dispatched = false ∧
          phases (.nestingError w.php.globals.forwardLimit :: fs) = [] ∧
          nestingErrors (.nestingError w.php.globals.forwardLimit :: fs) =
            [w.php.globals.forwardLimit] := by
      intro fs hfs
      rw [← List.singleton_append, phases_append, phases_inner hfs, nestingErrors_append,
        nestingErrors_inner hfs]
      exact ⟨h.1, h.2, rfl, rfl⟩
    refine hrecord.bind (fun _ h => h.elim) ?_
    rintro _ _ w₁ _ rfl
    refine (traced_within (traced_leaves (triggerError_leaves hc _ _))).bind
      (fun fs hfs => hraised fs hfs) fun _ fs w₂ _ hfs => ?_
    refine (traced_within (traced_leaves (exceptionHandleNoret_leaves hc response))).bind
      (fun gs hgs => ?_) fun _ gs w₃ _ hgs => traced_stop ?_
    all_goals
      have hall : ∀ e ∈ fs ++ gs, InnerEvent e := fun e he =>
        (List.mem_append.mp he).elim (hfs e) (hgs e)
      simpa using hraised _ hall
  · rename_i h
    split
    · exact traced_pure ⟨List.forall_mem_nil _, h⟩
    · refine traced_update (traced_update (traced_pure ?_))
      exact ⟨List.forall_mem_nil _, h⟩

omit hc in
/-- Behind a loop that was left and a last phase of hooks all phases are there. -/
theorem Finished.of_loop {routed : Bool} {total left : Nat} {pre loop shutdown : List Event}
    {w₁ w₂ : World γ} (hpre : Whole (routeWord routed ++ [.hook .dispatchLoopStartup]) pre)
    (hleft : left < total) (hloop : Whole (turns (total - left)) loop)
    (hpost : EndsDispatched loop w₁) (hd : 0 < left → w₁.dispatched = true)
    (hshutdown : Whole [.hook .dispatchLoopShutdown] shutdown)
    (hlast : EndsDispatched shutdown w₂) :
    ∃ post last, Finished routed total left (pre ++ (loop ++ shutdown)) post last ∧
      last.leftDispatched = w₂.dispatched := by
  obtain ⟨rs, post, hrs, hpost⟩ := hpost
  obtain ⟨qs, last, hqs, hlast⟩ := hlast
  have hwhole := hpre.append (hloop.append hshutdown)
  have hlen := congrArg List.length hshutdown.names
  rw [hqs] at hlen
  simp only [List.length_map, List.length_append, List.length_cons, List.length_nil] at hlen
  obtain rfl : qs = [] := List.length_eq_zero_iff.mp (by omega)
  refine ⟨post, last, ⟨hleft, ?_, hwhole.passed, ⟨phases pre ++ rs, ?_⟩, ?_⟩, hlast⟩
  · rw [hwhole.names, dispatchWord_eq]
  · rw [phases_append, phases_append, hrs, hqs]
    simp
  · intro h
    rw [hpost, hd h]

omit hc in
theorem dispatcherInitView_traced (w : World γ) :
    Traced (dispatcherInitView : Exec γ Nat) w (fun _ es _ => es = []) fun _ => False := by
  have hsilent : Within (Leaves fun _ => False) (dispatcherInitView : Exec γ Nat) :=
    dispatcherInitView_closed (leaves_trail _).closed.frames
  have hgoes : Meets (dispatcherInitView : Exec γ Nat) w (fun _ _ => True) fun _ _ => False := by
    simp only [dispatcherInitView, getPhp, meets_bind, meets_get, meets_pure]
    split <;> trivial
  exact ((traced_silent hsilent).returns hgoes).mono (fun _ _ _ _ h => h.1) fun _ h => h

/-- The phases of a dispatch. They stop in some word of at most `total` turns, or they all go
through: then there is a response, or the turns are used up on a request that is still not
dispatched and the nesting error is raised. -/
theorem dispatchBody_traced (w : World γ) :
    let total := firstLeft w.php.globals.forwardLimit + 1
    let routed := w.php.request.routed
    Traced (dispatchBody call fuel) w
      (fun _ es _ => ∃ left post last, Finished routed total left es post last ∧
        (left = 0 → last.leftDispatched = true) ∧ nestingErrors es = [])
      fun es => (phases es = [] ∧ nestingErrors es = []) ∨
        (∃ k, 1 ≤ k ∧ k ≤ total ∧ Cut (dispatchWord routed k) es) ∨
        ∃ post last, Finished routed total 0 es post last ∧ last.leftDispatched = false ∧
          nestingErrors es ≠ [] := by
  intro total routed
  obtain ⟨n, hn⟩ : ∃ n, n = firstLeft w.php.globals.forwardLimit := ⟨_, rfl⟩
  have htotal : total = n + 1 := congrArg (· + 1) hn.symm
  clear_value total
  have hword : ∀ k, routeWord routed ++ [.hook .dispatchLoopStartup] <+: dispatchWord routed k :=
    fun k => dispatchWord_eq routed k ▸ List.prefix_append _ _
  apply traced_read
  have hresponse : Traced (within responseInstance) w
      (fun _ es w' => es = [] ∧ w'.php.request = w.php.request) fun _ => False :=
    ⟨[], grew_update w _, rfl, rfl⟩
  refine hresponse.bind (fun _ h => h.elim) ?_
  rintro response _ w₀ _ ⟨rfl, hrequest⟩
  simp only [List.nil_append]
  split
  · have hroute : Traced (routeRequest call fuel response) w₀ _ _ :=
      routeRequest_traced hc response w₀
    rw [hrequest] at hroute
    refine hroute.bind (fun es h => .inr (.inl ⟨1, le_rfl, by omega, h.mono ?_⟩))
      fun _ es₁ w₁ _ h₁ => ?_
    · exact (List.prefix_append _ _).trans (hword 1)
    refine (hookPhase_traced hc .dispatchLoopStartup response w₁).bind
      (fun es h => .inr (.inl ⟨1, le_rfl, by omega, (h₁.append_cut h).mono (hword 1)⟩))
      fun _ es₂ w₂ _ h₂ => ?_
    have hpre : Whole (routeWord routed ++ [.hook .dispatchLoopStartup]) (es₁ ++ es₂) :=
      h₁.append h₂.1
    refine (traced_within (dispatcherInitView_traced w₂)).bind (fun _ h => h.elim) ?_
    rintro view _ w₃ _ rfl
    simp only [List.nil_append]
    rw [← hn]
    refine (dispatchLoop_traced hc response view n w₃).bind ?_ ?_
    · rintro es ⟨k, hk, hle, hcut⟩
      refine .inr (.inl ⟨k, hk, by omega, ?_⟩)
      rw [← List.append_assoc, dispatchWord_eq]
      exact (hpre.append_cut hcut).mono
        ((List.prefix_append_right_inj _).mpr (List.prefix_append _ _))
    rintro left es₃ w₄ _ ⟨hle, hd, hloop, hends⟩
    rw [← htotal] at hloop
    have hleft : left < total := by omega
    refine (hookPhase_traced hc .dispatchLoopShutdown response w₄).bind ?_ ?_
    · intro es h
      refine .inr (.inl ⟨total - left, by omega, by omega, ?_⟩)
      rw [← List.append_assoc, dispatchWord_eq]
      exact hpre.append_cut (hloop.append_cut h)
    rintro _ es₄ w₅ _ ⟨hshutdown, hends', -⟩
    obtain ⟨post, last, hfin, hlast⟩ :=
      Finished.of_loop hpre hleft hloop hends hd hshutdown hends'
    have hjoin : ∀ fs, es₁ ++ (es₂ ++ (es₃ ++ (es₄ ++ fs))) =
        es₁ ++ es₂ ++ (es₃ ++ es₄) ++ fs := by simp
    have hunraised := (hpre.append (hloop.append hshutdown)).unraised
    have hmore : ∀ fs, phases fs = [] → Finished routed total left
        (es₁ ++ (es₂ ++ (es₃ ++ (es₄ ++ fs)))) post last := by
      intro fs hfs
      have hp : phases (es₁ ++ (es₂ ++ (es₃ ++ (es₄ ++ fs)))) =
          phases (es₁ ++ es₂ ++ (es₃ ++ es₄)) := by
        rw [hjoin, phases_append, hfs, List.append_nil]
      exact ⟨hfin.left_lt, hp ▸ hfin.names, hp ▸ hfin.passed, hp ▸ hfin.ends, hfin.dispatched⟩
    refine (finishDispatch_traced hc response left w₅).mono ?_ ?_
    · rintro _ fs _ _ ⟨hfs, hnot⟩
      refine ⟨left, post, last, hmore fs (phases_inner hfs), ?_, ?_⟩
      · rintro rfl
        rw [hlast]
        simpa using hnot
      · rw [hjoin, nestingErrors_append, hunraised, nestingErrors_inner hfs]
        rfl
    · rintro fs ⟨rfl, hnot, hfs, hraised⟩
      refine .inr (.inr ⟨post, last, hmore fs hfs, hlast.trans hnot, ?_⟩)
      rw [hjoin, nestingErrors_append, hunraised, hraised]
      simp
  · refine (traced_within (traced_leaves (triggerError_leaves hc _ _))).bind
      (fun es hes => .inl ⟨phases_inner hes, nestingErrors_inner hes⟩)
      fun _ es w₁ _ hes => traced_stop ?_
    rw [List.append_nil]
    exact .inl ⟨phases_inner hes, nestingErrors_inner hes⟩

end

/-- The counter allows the limit itself from one turn up to the whole range. -/
theorem firstLeft_of_bounds {n : Int} (h₁ : 1 ≤ n) (h₂ : n ≤ 2 ^ 32) :
    firstLeft n + 1 = n.toNat := by
  unfold firstLeft
  omega

theorem Cut.passed {word : List Phase} {es : List Event} (h : Cut word es)
    (hreturned : ∀ e ∈ es, e.routeReturned = true) :
    ∀ r ∈ (phases es).dropLast, r.passed = true := by
  obtain ⟨rs, r, hrs, hpassed, -⟩ := h.ends
  rw [hrs, List.dropLast_concat]
  exact hpassed hreturned

end Yaf
