import Yaf.Dispatcher.Forwarder
import Yaf.Dispatcher.Own

namespace Yaf
open Base Base.Run

section
variable {γ : Type}

/-- The events a run leaves of its own. -/
def newEvents (w w' : World γ) : List Event := ownEvents w.depth (w'.log.drop w.log.length)

/-- The action is no method of the controller, so that `yaf_dispatcher_get_action` is asked. -/
def Made.asksForAction (made : Made) (php : Php γ) : Bool :=
  match php.request.action with
  | .string action => (Table.find? made.ce.functionTable (actionMethod action)).isNone
  | _ => false

/-- What is loaded, published, passed on and recorded is all for the module and the controller that
passed the gate. `es` are the events up to where `init` has run, `passed` is the module that goes
to `yaf_dispatcher_get_action`, and the state is the one in which that is called. -/
structure OneModule (made : Made) (es : List Event) (passed : Zval) (php : Php γ) : Prop where
  gate : made.entry.gate = some made.module
  entered : made.entry.names.controller = .string made.controller
  loaded : ∀ entry directory path, .openScript entry directory path ∈ es →
    entry = made.entry ∧ directory = controllersDirectory made.appDir made.module made.defModule
  flag : made.defModule = true ↔ made.entry.defaultModule = made.module
  published : php.globals.viewDirectory =
    some (viewsDirectory made.appDir made.module made.defModule)
  passed : made.asksForAction php = true → passed = .string made.module
  recorded : Table.find? (php.objects made.self) (lit "_name") = some (.string made.controller)

/-- The names in the request are those it was entered with, as far as they are read again: the
controller always, the module when an action is asked for, and its text as C reads it when the
module is not the default one. -/
structure Made.LeftAlone (made : Made) (php : Php γ) : Prop where
  controller : (php.requests made.entry.request).controller = .string made.controller
  asked : made.asksForAction php = true →
    (php.requests made.entry.request).module = .string made.module
  directory : made.defModule = false →
    ∃ m, (php.requests made.entry.request).module = .string m ∧ cstr m = cstr made.module

theorem newEvents_of_grew {w w' : World γ} {es : List Event} (hi : Inside w w')
    (hg : Grew w es w') : newEvents w w' = es := by
  obtain ⟨hd, new, hlog, -⟩ := hi
  have hown := hg.2
  rw [World.own, World.own, hd, hlog, ownEvents_append] at hown
  rw [newEvents, hlog, List.drop_left]
  exact List.append_cancel_left hown

/-- Outside of the default module the directory tells the modules apart, as C reads them. -/
theorem viewsDirectory_inj {appDir m n : Bytes} :
    viewsDirectory appDir m false = viewsDirectory appDir n false ↔ cstr m = cstr n := by
  simp [viewsDirectory]

section
variable {call : Calls γ} {response view : Nat}

/-- The controller that is made is the one the names at the entry stand for. -/
theorem openController_made (entry : HandleEntry) (w : World γ) :
    Meets (openController call response view entry) w
      (fun made _ => ∀ m, made = some m → m.entry = entry ∧ entry.directory = some m.appDir ∧
        entry.gate = some m.module ∧ entry.names.controller.text? = some m.controller)
      fun _ _ => True := by
  have hfails : ∀ (type : YafErr) (message : Bytes) (Q : Option Made → World γ → Prop),
      (∀ w, Q none w) →
      Meets (triggerError call type message >>= fun _ => (pure none : Exec γ (Option Made))) w
        Q fun _ _ => True :=
    fun type message Q hQ => meets_after _ fun _ w' => hQ w'
  unfold openController
  split
  · exact hfails _ _ _ fun _ => nofun
  rename_i appDir hd
  split
  · exact hfails _ _ _ fun _ => nofun
  rename_i module hm
  split
  · exact hfails _ _ _ fun _ => nofun
  rename_i hdeclared
  split
  · exact hfails _ _ _ fun _ => nofun
  rename_i controller hc
  have hg : entry.gate = some module := by
    simp only [HandleEntry.gate, hm]
    simpa using hdeclared
  refine meets_after _ fun ce _ => ?_
  split
  · exact nofun
  refine meets_after _ fun _ _ => meets_after _ fun self _ => meets_after _ fun _ _ => ?_
  intro m hmade
  obtain rfl := Option.some.inj hmade
  exact ⟨rfl, hd, hg, hc⟩

/-- A script that is opened is looked for where the entry says. -/
def OpensFor (entry : HandleEntry) : Event → Prop
  | .openScript opened directory _ =>
    opened = entry ∧ ∃ appDir module, entry.directory = some appDir ∧ entry.gate = some module ∧
      directory = controllersDirectory appDir module (entry.defaultModule == module)
  | _ => True

theorem openController_opens (hc : ∀ site, Within Quiet (call site)) (entry : HandleEntry) :
    Within (Leaves (OpensFor entry)) (openController call response view entry) :=
  openController_closed (leaves_trail _).closed.frames
    (userCall_leaves hc fun _ _ _ _ _ => trivial)
    (fun _ _ _ _ _ hd hg => ⟨rfl, _, _, hd, hg, rfl⟩) fun _ _ _ => trivial

/-- What is known of a controller that was made, whatever its `init` did. -/
theorem makeController_made (hc : ∀ site, Within Quiet (call site)) {w w₁ : World γ} {made : Made}
    (h : makeController call response view w = (.ok (some made), w₁)) :
    made.entry.directory = some made.appDir ∧ made.entry.gate = some made.module ∧
      made.entry.names.controller.text? = some made.controller ∧
      ∀ e ∈ newEvents w w₁, OpensFor made.entry e := by
  let w₀ := w.update fun php => php.setRequest { php.request with dispatched := true }
  let entry := handleEntry w₀.php
  have hrun : openController call response view entry (w₀.record (.enterHandle entry)) =
      (.ok (some made), w₁) := h
  obtain ⟨he, hd, hg, hn⟩ :=
    (openController_made entry (w₀.record (.enterHandle entry))).ok hrun made rfl
  have hinside : Inside w (makeController call response view w).2 :=
    makeController_closed inside_trail.closed.frames (userCall_closed inside_trail.closed.frames
      (fun site w => (hc site w).inside) fun _ _ _ _ _ => trivial) (fun _ _ => trivial) w
  obtain ⟨es, hgrew, hes⟩ := openController_opens hc entry
    (w₀.record (.enterHandle entry))
  rw [hrun] at hgrew
  rw [h] at hinside
  have hall : Grew w (.enterHandle entry :: es) w₁ :=
    (grew_update w _).trans ((grew_record w₀ (.enterHandle entry)).trans hgrew)
  rw [newEvents_of_grew hinside hall, he]
  refine ⟨hd, hg, hn, fun e hmem => ?_⟩
  cases hmem with
  | head => trivial
  | tail _ hmem => exact hes e hmem

/-- What the announcement leaves: the views directory in the globals, the name on the controller. -/
def announced (made : Made) (views : Bytes) (php : Php γ) : Php γ :=
  { php with globals := { php.globals with viewDirectory := some views } }.setProperty made.self
    (lit "_name") (php.requests made.entry.request).controller

theorem announced_name (made : Made) (views : Bytes) (php : Php γ) :
    Table.find? ((announced made views php).objects made.self) (lit "_name") =
      some (php.requests made.entry.request).controller := by
  simp [announced, Php.setProperty]

theorem announce_default {made : Made} (h : made.defModule = true) (w : World γ) :
    announce made w = (.ok (w.php.requests made.entry.request).module,
      w.update (announced made (viewsDirectory made.appDir [] true))) := by
  unfold announce
  rw [h]
  rfl

theorem announce_other {made : Made} (h : made.defModule = false) {w : World γ} {m : Bytes}
    (hm : (w.php.requests made.entry.request).module = .string m) :
    announce made w =
      (.ok (.string m), w.update (announced made (viewsDirectory made.appDir m false))) := by
  unfold announce
  rw [read_run]
  rw [h, hm]
  rfl

/-- A module that is no string has no characters to print. -/
theorem announce_fault {made : Made} (h : made.defModule = false) {w : World γ}
    (hm : ∀ m, (w.php.requests made.entry.request).module ≠ .string m) :
    announce made w = (.error .fault, w) := by
  unfold announce
  rw [read_run]
  rw [h]
  cases hv : (w.php.requests made.entry.request).module with
  | string m => exact absurd hv (hm m)
  | _ => rfl

/-- What is announced is for the module of the gate when the request was left alone. -/
theorem announce_meets (made : Made) (w : World γ) :
    Meets (announce made) w
      (fun passed w₂ =>
        w₂.php.globals.viewDirectory =
            some (viewsDirectory made.appDir made.module made.defModule) ∧
          (made.asksForAction w₂.php = true → passed = .string made.module) ∧
          Table.find? (w₂.php.objects made.self) (lit "_name") = some (.string made.controller))
      (fun _ _ => False) ↔ made.LeftAlone w.php := by
  have hname : ∀ views, Table.find? ((w.update (announced made views)).php.objects made.self)
      (lit "_name") = some (.string made.controller) ↔
        (w.php.requests made.entry.request).controller = .string made.controller := by
    intro views
    rw [show (w.update (announced made views)).php = announced made views w.php from rfl,
      announced_name, Option.some.injEq]
  cases hd : made.defModule with
  | true =>
    rw [Meets, announce_default hd]
    change _ ∧ (made.asksForAction w.php = true → _) ∧ _ ↔ _
    rw [hname]
    constructor
    · rintro ⟨-, hasked, hc⟩
      exact ⟨hc, hasked, by simp [hd]⟩
    · rintro ⟨hc, hasked, -⟩
      exact ⟨rfl, hasked, hc⟩
  | false =>
    by_cases hstring : ∃ m, (w.php.requests made.entry.request).module = .string m
    · obtain ⟨m, hm⟩ := hstring
      rw [Meets, announce_other hd hm]
      change some (viewsDirectory made.appDir m false) = _ ∧
        (made.asksForAction w.php = true → _) ∧ _ ↔ _
      rw [hname, Option.some.injEq, viewsDirectory_inj]
      constructor
      · rintro ⟨hdir, hasked, hc⟩
        exact ⟨hc, fun h => hm.trans (hasked h), fun _ => ⟨m, hm, hdir⟩⟩
      · rintro ⟨hc, hasked, hdir⟩
        obtain ⟨n, hn, hsame⟩ := hdir hd
        obtain rfl : m = n := Zval.string.inj (hm.symm.trans hn)
        exact ⟨hsame, fun h => hm.symm.trans (hasked h), hc⟩
    · rw [Meets, announce_fault hd (not_exists.mp hstring)]
      constructor
      · exact False.elim
      · rintro ⟨-, -, hdir⟩
        obtain ⟨m, hm, -⟩ := hdir hd
        exact hstring ⟨m, hm⟩

end

/-- A call of `yaf_dispatcher_handle` whose `init` left the request dispatched goes by one module
and one controller exactly when `init` left the names in the request alone. -/
theorem one_module_iff (app : Site → Script γ) (fuel room n : Nat) {response view : Nat}
    {w w₁ : World γ} {made : Made}
    (hmade : makeController (callAt app fuel room) response view w = (.ok (some made), w₁))
    (hpending : w₁.pending = false) (hdispatched : w₁.dispatched = true) :
    handle (callAt app fuel room) response view (n + 1) w =
        ((announce made >>= callAction (callAt app fuel room) response view made) >>=
          afterVisit (callAt app fuel room) response) w₁ ∧
      (Meets (announce made) w₁
          (fun passed w₂ => OneModule made (newEvents w w₁) passed w₂.php) (fun _ _ => False) ↔
        made.LeftAlone w₁.php) := by
  constructor
  · rw [handle_eq_visit]
    unfold handleVisit
    rw [bind_bind, bind_of_ok hmade]
    have hp : w₁.php.exception.isSome = false := hpending
    have hd : w₁.php.request.dispatched = true := hdispatched
    change ((if w₁.php.exception.isSome then _ else if !w₁.php.request.dispatched then _ else _) >>=
      afterVisit (callAt app fuel room) response : Exec γ Bool) w₁ = _
    rw [hp, hd]
    rfl
  · obtain ⟨hdir, hg, hn, hopens⟩ := makeController_made (callAt_quiet app fuel room) hmade
    rw [← announce_meets]
    have hloaded : ∀ entry directory path, .openScript entry directory path ∈ newEvents w w₁ →
        entry = made.entry ∧
          directory = controllersDirectory made.appDir made.module made.defModule := by
      intro entry directory path he
      obtain ⟨hentry, appDir, module, hdir', hg', hd⟩ := hopens _ he
      obtain rfl := Option.some.inj (hdir'.symm.trans hdir)
      obtain rfl := Option.some.inj (hg'.symm.trans hg)
      exact ⟨hentry, hd⟩
    have hflag : made.defModule = true ↔ made.entry.defaultModule = made.module := by
      simp [Made.defModule]
    have hentered := (Zval.text?_eq_some.mp hn).1
    constructor
    · intro h
      exact h.mono (fun _ _ h => ⟨h.published, h.passed, h.recorded⟩) fun _ _ h => h
    · intro h
      exact h.mono (fun _ _ h => ⟨hg, hentered, hloaded, hflag, h.1, h.2.1, h.2.2⟩) fun _ _ h => h

/-- The controller of a run, when one is made. -/
def madeAt (call : Calls γ) (response view : Nat) (w : World γ) : Option Made :=
  match (makeController call response view w).1 with
  | .ok made => made
  | .error _ => none

theorem makeController_of_madeAt {call : Calls γ} {response view : Nat} {w : World γ}
    {made : Made} (h : madeAt call response view w = some made) :
    makeController call response view w =
      (.ok (some made), (makeController call response view w).2) := by
  unfold madeAt at h
  split at h
  · rename_i found hfound
    rw [← h, ← hfound]
  · cases h

end

theorem one_module_iff_sample :
    let call := callAt (forwarder fun _ _ => none) 1 0
    let w := World.start (forwarderPhp [lit "init", lit "indexaction"] 5)
    let w₁ := (makeController call 1 2 w).2
    ∃ made, madeAt call 1 2 w = some made ∧
      handle call 1 2 1 w =
        ((announce made >>= callAction call 1 2 made) >>= afterVisit call 1) w₁ ∧
      (Meets (announce made) w₁
          (fun passed w₂ => OneModule made (newEvents w w₁) passed w₂.php) (fun _ _ => False) ↔
        made.LeftAlone w₁.php) := by
  intro call w w₁
  obtain ⟨made, h⟩ := Option.isSome_iff_exists.mp
    (show (madeAt call 1 2 w).isSome = true by decide)
  exact ⟨made, h, one_module_iff (forwarder fun _ _ => none) 1 0 0 (makeController_of_madeAt h)
    (by decide) (by decide)⟩

/-- An application whose `init` sets another module name and does not forward. -/
def renamer (module : Bytes) : Site → Script Nat
  | .method _ _ name _ =>
    .step (fun php => if name = lit "init" then
        php.setRequest { php.request with module := .string module } else php)
      fun _ => .done (some (.bool false))
  | _ => .done none

/-- It has a second module, and the request is for that one. -/
def adminPhp : Php Nat :=
  { (forwarderPhp [lit "init", lit "indexaction"] 5).setRequest
      { (forwarderPhp [] 5).request with module := .string (lit "Admin") } with
    application := some ⟨[lit "Index", lit "Admin"], none⟩ }

/-- Entered for `Admin`, renamed to `Index` by `init`: the views of `app/modules/Index` are
published, a directory that neither of the two modules has. -/
theorem module_renamed :
    ¬∀ (γ : Type) (app : Site → Script γ) (fuel room response view : Nat) (w w₁ : World γ)
      (made : Made),
      makeController (callAt app fuel room) response view w = (.ok (some made), w₁) →
      w₁.pending = false → w₁.dispatched = true →
      Meets (announce made) w₁
        (fun passed w₂ => OneModule made (newEvents w w₁) passed w₂.php) fun _ _ => False := by
  intro h
  let call := callAt (renamer (lit "Index")) 1 0
  let w := World.start adminPhp
  let w₁ := (makeController call 1 2 w).2
  obtain ⟨made, hmade⟩ := Option.isSome_iff_exists.mp
    (show (madeAt call 1 2 w).isSome = true by decide)
  have hone := h Nat (renamer (lit "Index")) 1 0 1 2 w w₁ made (makeController_of_madeAt hmade)
    (by decide) (by decide)
  have hleft : made.LeftAlone w₁.php := (announce_meets made w₁).mp
    (hone.mono (fun _ _ h => ⟨h.published, h.passed, h.recorded⟩) fun _ _ h => h)
  have hflag : (madeAt call 1 2 w).map Made.defModule = some false := by decide
  have hviews : (madeAt call 1 2 w).map (fun made =>
      ((w₁.php.requests made.entry.request).module.string?.map cstr, cstr made.module)) =
        some (some (lit "Index"), lit "Admin") := by decide
  rw [hmade, Option.map_some, Option.some.injEq] at hflag hviews
  obtain ⟨m, hm, hsame⟩ := hleft.directory hflag
  rw [hm, ← hsame, Prod.mk.injEq] at hviews
  have hbad : lit "Index" = lit "Admin" := by
    rw [← hviews.2]
    exact (Option.some.inj hviews.1).symm
  revert hbad
  decide

end Yaf
