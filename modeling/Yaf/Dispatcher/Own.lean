import Yaf.Dispatcher.Runs

namespace Yaf
open Base Base.Run

/-- The events of a log at one depth. -/
def ownEvents (depth : Nat) (log : List (Nat × Event)) : List Event :=
  log.filterMap fun e => if e.1 = depth then some e.2 else none

theorem ownEvents_append (depth : Nat) (log new : List (Nat × Event)) :
    ownEvents depth (log ++ new) = ownEvents depth log ++ ownEvents depth new := by
  simp [ownEvents]

theorem ownEvents_deeper {depth : Nat} {new : List (Nat × Event)} (h : ∀ e ∈ new, depth < e.1) :
    ownEvents depth new = [] := by
  rw [ownEvents, List.filterMap_eq_nil_iff]
  intro e he
  have := h e he
  rw [if_neg (by omega)]

section
variable {γ : Type}

def World.own (w : World γ) : List Event := ownEvents w.depth w.log

/-- The run logs at its own depth or deeper. -/
def Inside (w w' : World γ) : Prop :=
  w'.depth = w.depth ∧ ∃ new, w'.log = w.log ++ new ∧ ∀ e ∈ new, w.depth ≤ e.1

/-- The run logs deeper only: what it is part of has no event of its own. -/
def Quiet (w w' : World γ) : Prop :=
  w'.depth = w.depth ∧ ∃ new, w'.log = w.log ++ new ∧ ∀ e ∈ new, w.depth < e.1

/-- Between the two states these events are logged at the depth of the run. -/
def Grew (w : World γ) (es : List Event) (w' : World γ) : Prop :=
  w'.depth = w.depth ∧ w'.own = w.own ++ es

/-- The run leaves events of this kind at its own depth. -/
def Leaves (Ev : Event → Prop) (w w' : World γ) : Prop := ∃ es, Grew w es w' ∧ ∀ e ∈ es, Ev e

theorem Grew.refl (w : World γ) : Grew w [] w := ⟨rfl, by simp⟩

theorem Grew.trans {u v w : World γ} {es fs : List Event} (h : Grew u es v) (h' : Grew v fs w) :
    Grew u (es ++ fs) w :=
  ⟨h'.1.trans h.1, by rw [h'.2, h.2, List.append_assoc]⟩

theorem grew_update (w : World γ) (f : Php γ → Php γ) : Grew w [] (w.update f) :=
  ⟨rfl, (List.append_nil _).symm⟩

theorem grew_record (w : World γ) (e : Event) : Grew w [e] (w.record e) := by
  refine ⟨rfl, ?_⟩
  change ownEvents w.depth (w.log ++ [(w.depth, e)]) = ownEvents w.depth w.log ++ [e]
  rw [ownEvents_append]
  simp [ownEvents]

theorem Quiet.inside {w w' : World γ} (h : Quiet w w') : Inside w w' := by
  obtain ⟨hd, new, hlog, hnew⟩ := h
  exact ⟨hd, new, hlog, fun e he => Nat.le_of_lt (hnew e he)⟩

theorem Quiet.grew {w w' : World γ} (h : Quiet w w') : Grew w [] w' := by
  obtain ⟨hd, new, hlog, hnew⟩ := h
  refine ⟨hd, ?_⟩
  rw [World.own, World.own, hd, hlog, ownEvents_append, ownEvents_deeper hnew]

/-- What is logged in one run after the other is logged in both, where the depth stays. -/
theorem logged_trans {P : Nat → Nat → Prop} {u v w : World γ}
    (h : v.depth = u.depth ∧ ∃ new, v.log = u.log ++ new ∧ ∀ e ∈ new, P u.depth e.1)
    (h' : w.depth = v.depth ∧ ∃ new, w.log = v.log ++ new ∧ ∀ e ∈ new, P v.depth e.1) :
    w.depth = u.depth ∧ ∃ new, w.log = u.log ++ new ∧ ∀ e ∈ new, P u.depth e.1 := by
  obtain ⟨hd, es, hes, hes'⟩ := h
  obtain ⟨hd', fs, hfs, hfs'⟩ := h'
  refine ⟨hd'.trans hd, es ++ fs, by rw [hfs, hes, List.append_assoc], ?_⟩
  intro e he
  rcases List.mem_append.mp he with he | he
  · exact hes' e he
  · exact hd ▸ hfs' e he

theorem inside_trail : Trail (Inside : World γ → World γ → Prop) fun _ => True where
  refl w := ⟨rfl, [], by simp, by simp⟩
  trans := logged_trans
  php w p _ := ⟨rfl, [], by simp, by simp⟩
  record w e _ := ⟨rfl, [(w.depth, e)], rfl, by simp⟩

theorem quiet_trail : Trail (Quiet : World γ → World γ → Prop) fun _ => False where
  refl w := ⟨rfl, [], by simp, by simp⟩
  trans := logged_trans
  php w p _ := ⟨rfl, [], by simp, by simp⟩
  record w e h := h.elim

theorem leaves_trail (Ev : Event → Prop) : Trail (Leaves Ev : World γ → World γ → Prop) Ev where
  refl w := ⟨[], Grew.refl w, by simp⟩
  trans := by
    rintro u v w ⟨es, hes, hes'⟩ ⟨fs, hfs, hfs'⟩
    refine ⟨es ++ fs, hes.trans hfs, ?_⟩
    intro e he
    rcases List.mem_append.mp he with he | he
    · exact hes' e he
    · exact hfs' e he
  php w p _ := ⟨[], grew_update w fun _ => p, by simp⟩
  record w e he := ⟨[e], grew_record w e, by simpa using he⟩

theorem dispatchBody_inside {call : Calls γ} {fuel : Nat}
    (hc : ∀ site, Within Quiet (call site)) : Within Inside (dispatchBody call fuel) := by
  have hu : ∀ site, Within Inside (userCall call site) :=
    userCall_closed inside_trail.closed.frames (fun site w => (hc site w).inside) fun _ _ _ _ _ =>
      trivial
  have hhandler : ∀ response, Within Inside (exceptionHandler call fuel response) := fun _ =>
    exceptionHandler_within inside_trail hu (fun _ _ => trivial)
      fun w => ⟨rfl, [], by simp, by simp⟩
  exact dispatchBody_within inside_trail hu (fun _ _ => trivial) (fun _ => trivial)
    (fun _ => trivial) hhandler

theorem dispatch_quiet {call : Calls γ} {fuel : Nat} (hc : ∀ site, Within Quiet (call site)) :
    Within Quiet (dispatch call fuel) := by
  refine dispatch_within (dispatchBody_inside hc) fun w w' => ?_
  rintro ⟨-, new, hlog, hnew⟩
  exact ⟨rfl, new, hlog, hnew⟩

/-- Called code leaves no event at the depth it is called from: its dispatches go deeper. -/
theorem callAt_quiet (app : Site → Script γ) (fuel room : Nat) (site : Site) :
    Within Quiet (callAt app fuel room site) :=
  callAt_within quiet_trail (fun _ _ => ⟨rfl, [], by simp, by simp⟩) (fun _ => dispatch_quiet)
    room site

/-- A call leaves one event when the called code returns. -/
theorem userCall_leaves_of {call : Calls γ} {Ev : Event → Prop} {site : Site}
    (hc : Within Quiet (call site)) (he : ∀ w ret w', call site w = (.ok ret, w') →
      Ev (.called site w.php.request w'.php.request w'.php.dispatcher.defaults w'.pending)) :
    Within (Leaves Ev) (userCall call site) := by
  refine Within.of_meets fun w => ?_
  have hcall : Meets (call site) w (fun _ w' => Grew w [] w' ∧
      Ev (.called site w.php.request w'.php.request w'.php.dispatcher.defaults w'.pending))
      fun _ w' => Grew w [] w' := by
    have hquiet := (hc w).grew
    unfold Meets
    cases hr : call site w with
    | mk r w' =>
      rw [hr] at hquiet
      cases r with
      | ok ret => exact ⟨hquiet, he w ret w' hr⟩
      | error e => exact hquiet
  simp only [userCall, getPhp, meets_bind, meets_get, meets_pure]
  split
  · exact (leaves_trail Ev).refl w
  rw [meets_bind]
  refine hcall.mono ?_ fun _ _ h => ⟨[], h, by simp⟩
  rintro ret w' ⟨hgrew, hev⟩
  have hleaves : Leaves Ev w (w'.record
      (.called site w.php.request w'.php.request w'.php.dispatcher.defaults w'.pending)) :=
    ⟨_, hgrew.trans (grew_record w' _), by simpa using hev⟩
  change Meets (if w'.php.exception.isSome then pure none else pure ret) (w'.record _) _ _
  split <;> exact hleaves

/-- A call leaves one event, whatever the called code does. -/
theorem userCall_leaves {call : Calls γ} {Ev : Event → Prop}
    (hc : ∀ site, Within Quiet (call site))
    (he : ∀ site before after defaults threw, Ev (.called site before after defaults threw))
    (site : Site) :
    Within (Leaves Ev) (userCall call site) :=
  userCall_leaves_of (hc site) fun _ _ _ _ => he ..

/-- The run returns or stops with these events of its own. -/
def Traced {ε α : Type} (m : Run (World γ) ε α) (w : World γ)
    (Q : α → List Event → World γ → Prop) (E : List Event → Prop) : Prop :=
  Meets m w (fun a w' => ∃ es, Grew w es w' ∧ Q a es w') fun _ w' => ∃ es, Grew w es w' ∧ E es

section Traced
variable {ε α β : Type} {w : World γ} {Q Q' : α → List Event → World γ → Prop}
  {E E' : List Event → Prop}

theorem Traced.mono {m : Run (World γ) ε α} (h : Traced m w Q E)
    (hQ : ∀ a es w', Grew w es w' → Q a es w' → Q' a es w') (hE : ∀ es, E es → E' es) :
    Traced m w Q' E' := by
  refine Meets.mono h ?_ ?_
  · rintro a w' ⟨es, hg, hq⟩
    exact ⟨es, hg, hQ a es w' hg hq⟩
  · rintro e w' ⟨es, hg, he⟩
    exact ⟨es, hg, hE es he⟩

theorem Grew.unique {w w' : World γ} {es fs : List Event} (h : Grew w es w') (h' : Grew w fs w') :
    es = fs :=
  List.append_cancel_left (h.2.symm.trans h'.2)

theorem Traced.and {m : Run (World γ) ε α} (h : Traced m w Q E) (h' : Traced m w Q' E') :
    Traced m w (fun a es w' => Q a es w' ∧ Q' a es w') fun es => E es ∧ E' es := by
  refine (Meets.and h h').mono ?_ ?_
  · rintro a w' ⟨⟨es, hg, hq⟩, fs, hg', hq'⟩
    obtain rfl := hg.unique hg'
    exact ⟨es, hg, hq, hq'⟩
  · rintro e w' ⟨⟨es, hg, he⟩, fs, hg', he'⟩
    obtain rfl := hg.unique hg'
    exact ⟨es, hg, he, he'⟩

/-- What is known of the result is added when the code is known to return. -/
theorem Traced.returns {m : Run (World γ) ε α} {P : α → World γ → Prop} (h : Traced m w Q E)
    (h' : Meets m w P fun _ _ => False) :
    Traced m w (fun a es w' => Q a es w' ∧ P a w') fun _ => False := by
  refine (Meets.and h h').mono ?_ fun _ _ h => h.2.elim
  rintro a w' ⟨⟨es, hg, hq⟩, hp⟩
  exact ⟨es, hg, hq, hp⟩

/-- What is known of the state it returns in is added. -/
theorem Traced.with {m : Run (World γ) ε α} {P : α → World γ → Prop} (h : Traced m w Q E)
    (h' : Meets m w P fun _ _ => True) :
    Traced m w (fun a es w' => Q a es w' ∧ P a w') E := by
  refine (Meets.and h h').mono ?_ fun _ _ h => h.1
  rintro a w' ⟨⟨es, hg, hq⟩, hp⟩
  exact ⟨es, hg, hq, hp⟩

/-- One after the other: the events are joined. -/
theorem Traced.bind {m : Run (World γ) ε α} {f : α → Run (World γ) ε β} (h : Traced m w Q E)
    {P : β → List Event → World γ → Prop} (hE : ∀ es, E es → E' es)
    (hf : ∀ a es w', Grew w es w' → Q a es w' →
      Traced (f a) w' (fun b fs w'' => P b (es ++ fs) w'') fun fs => E' (es ++ fs)) :
    Traced (m >>= f) w P E' := by
  unfold Traced
  rw [meets_bind]
  refine Meets.mono h ?_ ?_
  · rintro a w' ⟨es, hg, hq⟩
    refine Meets.mono (hf a es w' hg hq) ?_ ?_
    · rintro b w'' ⟨fs, hg', hp⟩
      exact ⟨es ++ fs, hg.trans hg', hp⟩
    · rintro e w'' ⟨fs, hg', he⟩
      exact ⟨es ++ fs, hg.trans hg', he⟩
  · rintro e w' ⟨es, hg, he⟩
    exact ⟨es, hg, hE es he⟩

theorem traced_pure {a : α} (h : Q a [] w) : Traced (pure a : Run (World γ) ε α) w Q E :=
  ⟨[], Grew.refl w, h⟩

theorem traced_stop {e : ε} (h : E []) : Traced (Run.stop e : Run (World γ) ε α) w Q E :=
  ⟨[], Grew.refl w, h⟩

/-- It reads the state and goes on. -/
theorem traced_read {P : β → List Event → World γ → Prop} {f : Php γ → DispatchExec γ β}
    (h : Traced (f w.php) w P E) : Traced (within getPhp >>= f) w P E := h

/-- It reads the state and goes on. -/
theorem traced_reading {P : β → List Event → World γ → Prop} {f : Php γ → Exec γ β}
    (h : Traced (f w.php) w P E) : Traced (getPhp >>= f) w P E := h

theorem traced_update {P : β → List Event → World γ → Prop} {g : Php γ → Php γ}
    {f : Unit → DispatchExec γ β} (h : Traced (f ()) (w.update g) P E) :
    Traced (within (updatePhp g) >>= f) w P E := by
  have hstep : Traced (within (updatePhp g)) w (fun _ es w' => es = [] ∧ w' = w.update g) E :=
    ⟨[], grew_update w g, rfl, rfl⟩
  refine hstep.bind (fun _ he => he) ?_
  rintro _ _ _ _ ⟨rfl, rfl⟩
  simpa using h

theorem traced_within {m : Exec γ α} (h : Traced m w Q E) : Traced (within m) w Q E := by
  unfold Traced within
  rw [meets_lift]
  exact h

/-- Code that leaves events of one kind. -/
theorem traced_leaves {m : Run (World γ) ε α} {Ev : Event → Prop} (h : Within (Leaves Ev) m) :
    Traced m w (fun _ es _ => ∀ e ∈ es, Ev e) fun es => ∀ e ∈ es, Ev e :=
  h.meets w

/-- Code that leaves no event. -/
theorem traced_silent {m : Run (World γ) ε α} (h : Within (Leaves fun _ => False) m) :
    Traced m w (fun _ es _ => es = []) fun es => es = [] :=
  (traced_leaves h).mono (fun _ _ _ _ h => List.eq_nil_iff_forall_not_mem.mpr h) fun _ h =>
    List.eq_nil_iff_forall_not_mem.mpr h

end Traced

/-- The events a dispatch leaves of its own, one level below the code that calls it. -/
def dispatchTrace (call : Calls γ) (fuel : Nat) (w : World γ) : List Event :=
  ownEvents (w.depth + 1) ((dispatch call fuel w).2.log.drop w.log.length)

/-- The trace of a dispatch is what its body logs. -/
theorem dispatchTrace_of_grew {call : Calls γ} {fuel : Nat} {w : World γ} {es : List Event}
    (hc : ∀ site, Within Quiet (call site))
    (hg : Grew { w with depth := w.depth + 1 } es
      (dispatchBody call fuel { w with depth := w.depth + 1 }).2) :
    dispatchTrace call fuel w = es := by
  obtain ⟨hd, new, hlog, -⟩ : Inside { w with depth := w.depth + 1 }
    (dispatchBody call fuel { w with depth := w.depth + 1 }).2 := dispatchBody_inside hc _
  obtain ⟨-, hown⟩ := hg
  have hsame : (dispatch call fuel w).2.log =
      (dispatchBody call fuel { w with depth := w.depth + 1 }).2.log := by
    unfold dispatch
    cases dispatchBody call fuel { w with depth := w.depth + 1 } with
    | mk r w' =>
      cases r with
      | ok response => rfl
      | error e => cases e <;> rfl
  simp only at hd hlog
  rw [World.own, World.own, hd, hlog, ownEvents_append] at hown
  rw [dispatchTrace, hsame, hlog, List.drop_left]
  exact List.append_cancel_left hown

/-- What holds of the events of every call holds of the trace, when the other events have it. -/
theorem dispatchTrace_forall {call : Calls γ} {fuel : Nat} {w : World γ} {Ev : Event → Prop}
    (hc : ∀ site, Within Quiet (call site)) (hu : ∀ site, Within (Leaves Ev) (userCall call site))
    (he : ∀ e, HandlerEvent e → Ev e) (hp : ∀ run, Ev (.phase run))
    (hn : ∀ limit, Ev (.nestingError limit)) : ∀ e ∈ dispatchTrace call fuel w, Ev e := by
  have t := leaves_trail (γ := γ) Ev
  have hhandler : ∀ response, Within (Leaves Ev) (exceptionHandler call fuel response) := fun _ =>
    exceptionHandler_within t hu he fun w => ⟨[], ⟨rfl, (List.append_nil _).symm⟩, by simp⟩
  have hbody : Within (Leaves Ev) (dispatchBody call fuel) :=
    dispatchBody_within t hu (fun e h => he e (.handle h)) hp hn hhandler
  obtain ⟨es, hgrew, hes⟩ := hbody { w with depth := w.depth + 1 }
  rw [dispatchTrace_of_grew hc hgrew]
  exact hes

/-- What is shown of the events of the body holds of the trace of the dispatch. -/
theorem dispatch_traced {call : Calls γ} {fuel : Nat} {w : World γ}
    (hc : ∀ site, Within Quiet (call site)) {Q : Nat → List Event → World γ → Prop}
    {E : List Event → Prop}
    (hb : Traced (dispatchBody call fuel) { w with depth := w.depth + 1 } Q E) :
    (∃ response w', (dispatch call fuel w).1 = .ok (some response) ∧
      Q response (dispatchTrace call fuel w) w') ∨
    (∀ response, (dispatch call fuel w).1 ≠ .ok (some response)) ∧
      E (dispatchTrace call fuel w) := by
  have htrace : ∀ es, Grew { w with depth := w.depth + 1 } es _ →
      dispatchTrace call fuel w = es := fun _ hg => dispatchTrace_of_grew hc hg
  unfold Traced Meets at hb
  unfold dispatch
  cases hr : dispatchBody call fuel { w with depth := w.depth + 1 } with
  | mk r w' =>
    rw [hr] at hb htrace
    cases r with
    | ok response =>
      obtain ⟨es, hgrew, hq⟩ := hb
      exact .inl ⟨response, w', rfl, (htrace es hgrew).symm ▸ hq⟩
    | error e =>
      obtain ⟨es, hgrew, he⟩ := hb
      cases e with
      | null => exact .inr ⟨by simp, (htrace es hgrew).symm ▸ he⟩
      | stop s => exact .inr ⟨by simp, (htrace es hgrew).symm ▸ he⟩

end

end Yaf
