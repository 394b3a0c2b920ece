import Yaf.Dispatcher.Lifecycle

namespace Yaf
open Base Base.Run

/-- How often the loop of a dispatch runs its body. -/
def loopTurns (es : List Event) : Nat :=
  ((phases es).map PhaseRun.phase).count (.hook .preDispatch)

/-- No exception and no failure ends the dispatch before its last phase. -/
structure LoopEnded (es : List Event) (last : PhaseRun) : Prop where
  ends : ∃ rs, phases es = rs ++ [last]
  shutdown : last.phase = .hook .dispatchLoopShutdown
  passed : ∀ r ∈ phases es, r.passed = true

/-- With the limit `n` the loop never runs its body more often than `n` allows, and the nesting
error is raised exactly when it has run it that often in vain. -/
def LoopBounded (n : Int) : Prop :=
  ∀ (γ : Type) (app : Site → Script γ) (fuel room : Nat) (w : World γ),
    w.php.globals.forwardLimit = n →
    let es := dispatchTrace (callAt app fuel room) fuel w
    loopTurns es ≤ max 1 n.toNat ∧
      ∀ last, LoopEnded es last →
        (nestingErrors es ≠ [] ↔ loopTurns es = max 1 n.toNat ∧ last.leftDispatched = false)

theorem count_turns (k : Nat) : (turns k).count (.hook .preDispatch) = k := by
  induction k with
  | zero => rfl
  | succ k ih =>
    rw [turns_succ, List.count_append, ih, Nat.add_comm]
    rfl

theorem count_dispatchWord (routed : Bool) (k : Nat) :
    (dispatchWord routed k).count (.hook .preDispatch) = k := by
  rw [dispatchWord_eq, List.count_append, List.count_append, List.count_append, count_turns]
  cases routed <;> simp [routeWord]

theorem Cut.loopTurns_le {routed : Bool} {k : Nat} {es : List Event}
    (h : Cut (dispatchWord routed k) es) : loopTurns es ≤ k := by
  have hle := h.names.sublist.count_le (.hook .preDispatch)
  rwa [count_dispatchWord] at hle

theorem Finished.loopTurns_eq {routed : Bool} {total left : Nat} {es : List Event}
    {post last : PhaseRun} (h : Finished routed total left es post last) :
    loopTurns es = total - left := by
  rw [loopTurns, h.names, count_dispatchWord]

theorem Cut.not_ended {word : List Phase} {es : List Event} (h : Cut word es) (last : PhaseRun) :
    ¬LoopEnded es last := by
  intro hend
  obtain ⟨rs, r, hrs, -, hr⟩ := h.ends
  have hpassed := hend.passed r (by rw [hrs]; simp)
  rw [hr] at hpassed
  exact Bool.false_ne_true hpassed

theorem Finished.last_eq {routed : Bool} {total left : Nat} {es : List Event}
    {post last last' : PhaseRun} (h : Finished routed total left es post last)
    (h' : LoopEnded es last') : last' = last := by
  obtain ⟨rs, hrs⟩ := h.ends
  obtain ⟨qs, hqs⟩ := h'.ends
  have hlast := congrArg List.getLast? (hqs.symm.trans hrs)
  rw [List.getLast?_concat, List.append_cons, List.getLast?_concat] at hlast
  exact Option.some.inj hlast

theorem Finished.ended {routed : Bool} {total left : Nat} {es : List Event}
    {post last : PhaseRun} (h : Finished routed total left es post last) : LoopEnded es last := by
  obtain ⟨rs, hrs⟩ := h.ends
  refine ⟨⟨rs ++ [post], by simpa using hrs⟩, ?_, h.passed⟩
  have hlast := congrArg List.getLast? h.names
  rw [hrs, List.map_append, List.map_cons, List.map_singleton, List.append_cons,
    List.getLast?_concat, dispatchWord, List.getLast?_concat] at hlast
  exact Option.some.inj hlast

/-- The limits whose 32-bit counter starts at themselves. -/
theorem loopBounded_of_bounds {n : Int} (h₁ : 1 ≤ n) (h₂ : n ≤ 2 ^ 32) : LoopBounded n := by
  intro γ app fuel room w hn es
  have hc := callAt_quiet app fuel room
  have htotal : firstLeft w.php.globals.forwardLimit + 1 = max 1 n.toNat := by
    rw [hn, firstLeft_of_bounds h₁ h₂]
    omega
  generalize max 1 n.toNat = total at htotal ⊢
  have hbody : Traced (dispatchBody (callAt app fuel room) fuel)
      { w with depth := w.depth + 1 } _ _ := dispatchBody_traced hc _
  simp only at hbody
  rw [htotal] at hbody
  rcases dispatch_traced hc hbody with ⟨response, w', -, left, post, last, hfin, hlast, hraised⟩ |
    ⟨-, ⟨hnil, hraised⟩ | ⟨k, -, hle, hcut⟩ | ⟨post, last, hfin, hlast, hraised⟩⟩
  · refine ⟨by rw [hfin.loopTurns_eq]; omega, fun last' hend => ?_⟩
    rw [hfin.last_eq hend]
    refine ⟨fun h => absurd hraised h, ?_⟩
    rintro ⟨hturns, hnot⟩
    have hlt := hfin.left_lt
    rw [hfin.loopTurns_eq] at hturns
    rw [hlast (by omega)] at hnot
    exact absurd hnot (by decide)
  · have hphases : phases es = [] := hnil
    refine ⟨by simp [loopTurns, hphases], fun last hend => ?_⟩
    obtain ⟨rs, hrs⟩ := hend.ends
    rw [hphases] at hrs
    simp at hrs
  · exact ⟨hcut.loopTurns_le.trans hle, fun last hend => absurd hend (hcut.not_ended last)⟩
  · refine ⟨by rw [hfin.loopTurns_eq]; omega, fun last' hend => ?_⟩
    rw [hfin.last_eq hend]
    exact ⟨fun _ => ⟨hfin.loopTurns_eq, hlast⟩, fun _ => hraised⟩

theorem forwarder_raises {w : World Nat} (h : Aimed [lit "indexaction"] w.php)
    (ho : w.php.dispatcher.requestIsObject = true) (hr : w.php.request.routed = true) :
    Traced (dispatchBody (callAt (forwarder forwardsAlways) 1 0) 1) w (fun _ _ _ => False)
      fun es => nestingErrors es ≠ [] := by
  have hc := callAt_quiet (forwarder forwardsAlways) 1 0
  have hsilent : Within (Leaves fun _ => False) (responseInstance : Exec Nat Nat) :=
    responseInstance_closed (leaves_trail _).closed
  apply traced_read
  refine (traced_within ((traced_silent hsilent).returns (responseInstance_aimed h))).bind
    (fun _ h => h.elim) ?_
  rintro response es₁ w₁ _ ⟨-, h₁, hrequest⟩
  rw [if_pos ho]
  refine ((routeRequest_traced hc response w₁).returns
    (routeRequest_aimed h₁ (hrequest ▸ hr) response)).bind
    (fun _ h => h.elim) fun _ es₂ w₂ _ h₂ => ?_
  refine ((hookPhase_traced hc .dispatchLoopStartup response w₂).returns
    (hookPhase_aimed h₂.2 _ response)).bind (fun _ h => h.elim) fun _ es₃ w₃ _ h₃ => ?_
  have ha₃ : Aimed [lit "indexaction"] w₃.php := h₃.2 ▸ h₂.2
  refine (traced_within ((dispatcherInitView_traced w₃).returns
    (dispatcherInitView_aimed ha₃))).bind (fun _ h => h.elim) fun view es₄ w₄ _ h₄ => ?_
  refine ((dispatchLoop_traced hc response view _ w₄).returns
    (dispatchLoop_aimed h₄.2 response view 0 _)).bind (fun _ h => h.elim) ?_
  rintro left es₅ w₅ _ ⟨-, rfl, h₅, hd⟩
  refine ((hookPhase_traced hc .dispatchLoopShutdown response w₅).returns
    (hookPhase_aimed h₅ _ response)).bind (fun _ h => h.elim) fun _ es₆ w₆ _ h₆ => ?_
  have hd₆ : w₆.dispatched = false := by
    rw [World.dispatched, h₆.2]
    exact hd
  refine (finishDispatch_traced hc response 0 w₆).mono (fun _ _ _ _ h => h.2 ⟨rfl, hd₆⟩) ?_
  rintro es₇ ⟨-, -, -, hraised⟩
  simp [nestingErrors_append, hraised]

/-- The forwarding application uses up every turn the counter gives and is stopped by the error. -/
theorem forwarder_exhausts (n : Int) :
    let es := dispatchTrace (callAt (forwarder forwardsAlways) 1 0) 1
      (.start (forwarderPhp [lit "indexaction"] n))
    ∃ post last, Finished true (firstLeft n + 1) 0 es post last ∧ last.leftDispatched = false ∧
      nestingErrors es ≠ [] := by
  intro es
  have hc := callAt_quiet (forwarder forwardsAlways) 1 0
  have hraised : Traced (dispatchBody (callAt (forwarder forwardsAlways) 1 0) 1)
      { World.start (forwarderPhp [lit "indexaction"] n) with depth := 1 } _ _ :=
    forwarder_raises (aimed_start _ n) rfl rfl
  rcases dispatch_traced hc ((dispatchBody_traced hc _).and hraised) with
    ⟨_, _, -, -, h⟩ | ⟨-, hcases, hraised⟩
  · exact h.elim
  rcases hcases with ⟨-, h⟩ | ⟨k, -, -, hcut⟩ | h
  · exact absurd h hraised
  · exact absurd hcut.unraised hraised
  · exact h

/-- A counter that starts elsewhere breaks the bound, in the forwarding application. -/
theorem bounds_of_loopBounded {n : Int} (h₀ : 0 ≤ n) (h : LoopBounded n) : 1 ≤ n ∧ n ≤ 2 ^ 32 := by
  obtain ⟨post, last, hfin, hlast, hraised⟩ := forwarder_exhausts n
  have hend := hfin.ended
  have hturns := ((h Nat (forwarder forwardsAlways) 1 0 _ rfl).2 last hend).mp hraised
  rw [hfin.loopTurns_eq] at hturns
  have hexact := hturns.1
  unfold firstLeft at hexact
  omega

/-- The bound of the dispatch loop, for every limit the INI handler admits. -/
theorem loop_bounded_iff (n : Int) (h₀ : 0 ≤ n) : LoopBounded n ↔ 1 ≤ n ∧ n ≤ 2 ^ 32 :=
  ⟨bounds_of_loopBounded h₀, fun h => loopBounded_of_bounds h.1 h.2⟩

theorem loop_bounded_five : LoopBounded 5 := (loop_bounded_iff 5 (by decide)).mpr (by decide)

/-- A limit of zero lets the loop run as often as the counter counts: here twice. -/
theorem zero_limit_unbounded : ¬LoopBounded 0 := by
  intro h
  have hturns := (h Nat (forwarder fun _ n => if n = 0 then some [.string (lit "index")] else none)
    1 0 (.start (forwarderPhp [lit "indexaction"] 0)) rfl).1
  revert hturns
  decide +kernel

end Yaf
