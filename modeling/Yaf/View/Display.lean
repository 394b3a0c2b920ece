import Yaf.View.Render

namespace Yaf.View
open Base Output

/-- Code that, from `d` buffers of its own, closes all it opens before it is done, reaches no buffer
below its own, and never has more than `m` of them open. -/
def Closes (m : Nat) : Nat → ViewScript → Prop
  | d, .done => d = 0
  | _, .exit => True
  | _, .throw _ => True
  | d, .output call k => ∃ d', call.depth d = some d' ∧ d' ≤ m ∧ ∀ v, Closes m d' (k v)
  | d, .assign _ k => Closes m d k
  | d, .setScriptPath _ k => ∀ b, Closes m d (k b)
  | d, .render _ _ k => ∀ v, Closes m d (k v)
  | d, .display _ _ k => ∀ v, Closes m d (k v)
  | d, .eval _ _ k => ∀ v, Closes m d (k v)

/-- Every template, and all code, closes what it opens. -/
structure Templates.Close (env : Templates) (m : Nat) : Prop where
  file : ∀ path template symbols, env.file path = some (.code template) →
    Closes m 0 (template symbols)
  string : ∀ text script symbols, env.string text = .code script → Closes m 0 (script symbols)

/-- An ending that leaves buffers open only if it has to. -/
def Leaves (m : Nat) (e : Ending TemplateException) (own : List OutputBuffer) : Prop :=
  Removable own ∧ (e = .finished → own = []) ∧ (m = 0 → ∀ x, e = .thrown x → own = [])

/-- Work that does the same whatever lies below its own buffers, and writes to it at most. -/
def Framed (m : Nat) (own : List OutputBuffer) (f : Output → Ran) : Prop :=
  ∃ e own' t view, (∀ o, f (under own o) = ⟨e, under own' (o.write t), view⟩) ∧ Leaves m e own'

/-- A rendering that returns its text, and the same one shown: the text goes to the output. -/
def Shown (m : Nat) (rendered displayed : Output → Rendered) : Prop :=
  ∃ e status t own own' view,
    (∀ o, rendered o = ⟨e, status, if status then .string t else .null, under own o, view⟩) ∧
    (∀ o, displayed o = ⟨e, status, .null, under own' (o.write t), view⟩) ∧
    Leaves m e own ∧ Leaves m e own' ∧ (e = .finished → status = false → t = [])

variable {m : Nat}

theorem removable_nil : Removable [] := by
  intro b hb
  cases hb

theorem leaves_nil (e : Ending TemplateException) : Leaves m e [] :=
  ⟨removable_nil, fun _ => rfl, fun _ _ _ => rfl⟩

theorem Leaves.append {e : Ending TemplateException} {own own' : List OutputBuffer}
    (h : Leaves m e own) (he : e ≠ .finished) (hr : Removable own') (hm : own'.length ≤ m) :
    Leaves m e (own ++ own') := by
  refine ⟨?_, fun hf => absurd hf he, ?_⟩
  · intro b hb
    rcases List.mem_append.mp hb with hb | hb
    · exact h.1 b hb
    · exact hr b hb
  · intro hz x hx
    rw [hz] at hm
    rw [h.2.2 hz x hx, List.eq_nil_of_length_eq_zero (Nat.le_zero.mp hm)]
    rfl

/-- A rendering, and the same one shown: they end alike, and if they finish the first left the
output as it was and returned what the second wrote, whatever the output was. -/
def Prints (rendered displayed : Output → Rendered) : Prop :=
  ∃ ending status text view, ∀ o,
    (rendered o).ending = ending ∧ (displayed o).ending = ending ∧
    (rendered o).status = status ∧ (displayed o).status = status ∧
    (rendered o).view = view ∧ (displayed o).view = view ∧
    (rendered o).value = (if status then .string text else .bool false) ∧
    (ending = .finished → (rendered o).output = o ∧
      (displayed o).output = if status then o.write text else o)

theorem prints_of_shown {rendered displayed : Output → Rendered} (h : Shown m rendered displayed) :
    Prints rendered displayed := by
  obtain ⟨e, status, t, own, own', view, hr, hd, hl, hl', hempty⟩ := h
  refine ⟨e, status, t, view, ?_⟩
  intro o
  rw [hr o, hd o]
  refine ⟨rfl, rfl, rfl, rfl, rfl, rfl, ?_, ?_⟩
  · cases status with
    | true => rfl
    | false => rfl
  · intro hf
    rw [hl.2.1 hf, hl'.2.1 hf]
    refine ⟨rfl, ?_⟩
    cases status with
    | true => rfl
    | false => simp [hempty hf rfl]

/-- Work that leaves what it found, under buffers of its own that it could not close. -/
def Quiet (m : Nat) (f : Output → Rendered) : Prop :=
  ∃ own, Removable own ∧ ∀ o, (f o).output = under own o ∧
    ((f o).ending = .finished → (f o).output = o) ∧
    (m = 0 → ∀ x, (f o).ending = .thrown x → (f o).output = o)

theorem quiet_of_leaves {f : Output → Rendered} {e : Ending TemplateException} {status : Bool}
    {ret : Zval} {own : List OutputBuffer} {view : ViewSimple}
    (hf : ∀ o, f o = ⟨e, status, ret, under own o, view⟩) (hl : Leaves m e own) : Quiet m f := by
  refine ⟨own, hl.1, ?_⟩
  intro o
  rw [hf o]
  refine ⟨rfl, ?_, ?_⟩
  · intro he
    rw [hl.2.1 he, under_nil]
  · intro hz x hx
    rw [hl.2.2 hz x hx, under_nil]

/-- What does not touch the output at all. -/
theorem shown_const (e : Ending TemplateException) (view : ViewSimple) :
    Shown m (fun o => ⟨e, false, .null, o, view⟩) (fun o => ⟨e, false, .null, o, view⟩) := by
  refine ⟨e, false, [], [], [], view, fun _ => rfl, ?_, leaves_nil e, leaves_nil e, fun _ _ => rfl⟩
  intro o
  rw [write_nil]
  rfl

/-- The buffer of a rendering once its template has written this. -/
def textBuffer (t : Bytes) : OutputBuffer := { stdBuffer with data := t }

theorem removable_started {own : List OutputBuffer} {t : Bytes} (h : Removable own) :
    Removable (own ++ [textBuffer t]) := by
  intro b hb
  rcases List.mem_append.mp hb with hb | hb
  · exact h b hb
  · rw [List.mem_singleton.mp hb]
    rfl

section exec
variable {env : Templates} {run : ViewScript → Output → ViewSimple → Ran} {view : ViewSimple}

theorem shown_execTpl {script : ViewScript} (h : Framed m [] fun o => run script o view) :
    Shown m (fun o => viewExecTpl run script true o view)
      (fun o => viewExecTpl run script false o view) := by
  obtain ⟨e, own, t, view', hrun, hleaves⟩ := h
  have hstart : ∀ o, run script (o.phpOutputStartUser stdBuffer) view =
      ⟨e, under (own ++ [textBuffer t]) o, view'⟩ := by
    intro o
    have hs : run script (o.phpOutputStartUser stdBuffer) view =
        ⟨e, under own ((o.phpOutputStartUser stdBuffer).write t), view'⟩ :=
      hrun (o.phpOutputStartUser stdBuffer)
    rw [hs, ← under_append]
    rfl
  have hshow : ∀ o, run script o view = ⟨e, under own (o.write t), view'⟩ := hrun
  cases e with
  | finished =>
    have hown := hleaves.2.1 rfl
    subst hown
    refine ⟨.finished, true, t, [], [], view', ?_, ?_, leaves_nil _, leaves_nil _, ?_⟩
    · intro o
      simp only [viewExecTpl, ↓reduceIte, hstart]
      rfl
    · intro o
      simp only [viewExecTpl, Bool.false_eq_true, ↓reduceIte, hshow]
    · intro _ hf
      cases hf
  | thrown x =>
    have hrem : Removable (own ++ [textBuffer t]) := removable_started hleaves.1
    obtain ⟨b, bs, hbs⟩ : ∃ b bs, own ++ [textBuffer t] = b :: bs := by
      cases own with
      | nil => exact ⟨_, _, rfl⟩
      | cons c cs => exact ⟨_, _, rfl⟩
    refine ⟨.thrown x, false, t, bs, own, view', ?_, ?_, ⟨?_, ?_, ?_⟩, hleaves, ?_⟩
    · intro o
      simp only [viewExecTpl, ↓reduceIte, hstart, hbs, discard_under (hbs ▸ hrem)]
      rfl
    · intro o
      simp only [viewExecTpl, Bool.false_eq_true, ↓reduceIte, hshow]
    · rw [hbs] at hrem
      exact hrem.tail
    · intro hf
      cases hf
    · intro hz y _
      rw [hleaves.2.2 hz x rfl, List.nil_append] at hbs
      exact (List.cons.inj hbs).2.symm
    · intro hf
      cases hf
  | _ =>
    refine ⟨_, false, t, own ++ [textBuffer t], own, view', ?_, ?_,
      ⟨removable_started hleaves.1, ?_, ?_⟩, hleaves, ?_⟩
    · intro o
      simp only [viewExecTpl, ↓reduceIte, hstart]
      rfl
    · intro o
      simp only [viewExecTpl, Bool.false_eq_true, ↓reduceIte, hshow]
    · intro hf
      cases hf
    · intro _ x hx
      cases hx
    · intro hf
      cases hf

theorem shown_triggerError (type : YafErr) (message : Bytes) :
    Shown m (fun o => viewTriggerError env type message o view)
      (fun o => viewTriggerError env type message o view) :=
  shown_const _ view

theorem shown_renderTpl (file : ∀ path template symbols, env.file path = some (.code template) →
      Framed m [] fun o => run (template symbols) o view)
    (symbols : Table Bytes Zval) (tpl : Bytes) :
    Shown m (fun o => viewRenderTpl env run symbols tpl true o view)
      (fun o => viewRenderTpl env run symbols tpl false o view) := by
  unfold viewRenderTpl
  cases hf : env.file (cstr tpl) with
  | none => exact shown_triggerError .notfoundView _
  | some compiled =>
    cases compiled with
    | unreadable => exact shown_const .finished view
    | parseError => exact shown_const (.thrown .parseError) view
    | fatal => exact shown_const .halted view
    | code template => exact shown_execTpl (file _ template symbols hf)

/-- Rendering a template and showing it do the same, but for where the text goes. -/
theorem shown_simpleRender (file : ∀ path template symbols, env.file path = some (.code template) →
      Framed m [] fun o => run (template symbols) o view) (tpl : Zval) (vars : Option Zval) :
    Shown m (fun o => viewSimpleRender env run tpl vars true o view)
      (fun o => viewSimpleRender env run tpl vars false o view) := by
  unfold viewSimpleRender
  cases tpl with
  | string t =>
    cases viewBuildSymtable env.scope (some (.array view.tplVars)) vars with
    | none => exact shown_const .halted view
    | some symbols =>
      by_cases habs : isAbsolutePath t = true
      · simp only [habs, ↓reduceIte]
        exact shown_renderTpl file symbols t
      · simp only [habs, Bool.false_eq_true, ↓reduceIte]
        cases view.tplDir.or env.viewDirectory with
        | none => exact shown_triggerError .notfoundView _
        | some dir => exact shown_renderTpl file symbols _
  | _ => exact shown_const .finished view

/-- Evaluated code leaves the output alone: what it prints is returned. -/
theorem eval_apart (string : ∀ text script symbols, env.string text = .code script →
      Framed m [] fun o => run (script symbols) o view) (tpl : Zval) (vars : Option Zval) :
    ∃ e status ret own view',
      (∀ o, viewSimpleEval env run tpl vars o view = ⟨e, status, ret, under own o, view'⟩) ∧
      Leaves m e own := by
  unfold viewSimpleEval
  cases tpl with
  | string t =>
    cases viewBuildSymtable env.scope (some (.array view.tplVars)) vars with
    | none => exact ⟨.halted, false, .null, [], view, fun _ => rfl, leaves_nil _⟩
    | some symbols =>
      by_cases hempty : t.isEmpty = true
      · refine ⟨.finished, true, .null, [], view, ?_, leaves_nil _⟩
        intro o
        simp only [hempty, ↓reduceIte]
        rfl
      · simp only [hempty, Bool.false_eq_true, ↓reduceIte]
        cases hc : env.string (cstr t) with
        | unreadable => exact ⟨.finished, true, .null, [], view, fun _ => rfl, leaves_nil _⟩
        | parseError =>
          exact ⟨.thrown .parseError, true, .null, [], view, fun _ => rfl, leaves_nil _⟩
        | fatal => exact ⟨.halted, true, .null, [], view, fun _ => rfl, leaves_nil _⟩
        | code script =>
          obtain ⟨e, status, t', own, own', view', hr, -, hl, -, -⟩ :=
            shown_execTpl (string _ script symbols hc)
          refine ⟨e, true, if status then .string t' else .null, own, view', ?_, hl⟩
          intro o
          have ho : viewExecTpl run (script symbols) true o view =
              ⟨e, status, if status then .string t' else .null, under own o, view'⟩ := hr o
          simp only [ho]
  | _ => exact ⟨.finished, false, .null, [], view, fun _ => rfl, leaves_nil _⟩

/-- Code that goes on after a call of the view is framed if what it goes on with is. -/
theorem framed_continue {own own₁ own₂ : List OutputBuffer} {r : Output → Rendered}
    {e : Ending TemplateException} {status : Bool} {ret : Zval} {t : Bytes} {view' : ViewSimple}
    {k : Bool → Zval → Output → ViewSimple → Ran}
    (hr : ∀ o, r (under own o) = ⟨e, status, ret, under own₁ (under own₂ (o.write t)), view'⟩)
    (hl : Leaves m e own₁) (removable : Removable own₂) (le : own₂.length ≤ m)
    (hk : Framed m own₂ fun o => k status ret o view') :
    Framed m own fun o => (r o).continue (k (r o).status (r o).ret) := by
  by_cases he : e = .finished
  · have hown : own₁ = [] := hl.2.1 he
    obtain ⟨e', own', t', view'', hrun, hleaves⟩ := hk
    refine ⟨e', own', t ++ t', view'', ?_, hleaves⟩
    intro o
    simp only [hr, he, hown, under_nil, Rendered.continue]
    rw [← write_write]
    exact hrun (o.write t)
  · refine ⟨e, own₁ ++ own₂, t, view', ?_, hl.append he removable le⟩
    intro o
    simp only [hr, under_append]
    cases e with
    | finished => exact absurd rfl he
    | _ => rfl

end exec

section runScript
variable {env : Templates} {run : ViewScript → Output → ViewSimple → Ran}

/-- Code that closes what it opens keeps to its own buffers, if the templates it renders do. -/
theorem framed_runScript
    (file : ∀ path template symbols, env.file path = some (.code template) →
      ∀ view, Framed m [] fun o => run (template symbols) o view)
    (string : ∀ text script symbols, env.string text = .code script →
      ∀ view, Framed m [] fun o => run (script symbols) o view)
    {script : ViewScript} {own : List OutputBuffer} (view : ViewSimple)
    (closes : Closes m own.length script) (removable : Removable own) (le : own.length ≤ m) :
    Framed m own fun o => runScript env run script o view := by
  induction script generalizing own view with
  | done =>
    have hown : own = [] := List.eq_nil_of_length_eq_zero closes
    subst hown
    refine ⟨.finished, [], [], view, ?_, leaves_nil _⟩
    intro o
    rw [write_nil]
    rfl
  | exit =>
    refine ⟨.halted, own, [], view, ?_, removable, ?_, ?_⟩
    · intro o
      rw [write_nil]
      rfl
    · intro hf
      cases hf
    · intro _ x hx
      cases hx
  | throw e =>
    refine ⟨.thrown e, own, [], view, ?_, removable, ?_, ?_⟩
    · intro o
      rw [write_nil]
      rfl
    · intro hf
      cases hf
    · intro hz _ _
      rw [hz] at le
      exact List.eq_nil_of_length_eq_zero (Nat.le_zero.mp le)
  | output call k ih =>
    obtain ⟨d, hd, hdm, hk⟩ := closes
    obtain ⟨v, own', t, happly, hlen, hrem⟩ := OutputCall.apply_under removable hd
    obtain ⟨e, own'', t', view', hrun, hleaves⟩ :=
      ih v view (hlen ▸ hk v) hrem (hlen ▸ hdm)
    refine ⟨e, own'', t ++ t', view', ?_, hleaves⟩
    intro o
    simp only [runScript, happly]
    rw [← write_write]
    exact hrun (o.write t)
  | assign call k ih =>
    exact ih { view with tplVars := call.apply view.tplVars } closes removable le
  | setScriptPath tplDir k ih =>
    exact ih _ (viewSimpleSetScriptPath tplDir view).2 (closes _) removable le
  | render tpl vars k ih =>
    obtain ⟨e, status, t, own₁, -, view', hr, -, hl, -, -⟩ :=
      shown_simpleRender (fun path template symbols h => file path template symbols h view) tpl vars
    have hown : ∀ o, viewSimpleRender env run tpl vars true (under own o) view =
        ⟨e, status, if status then .string t else .null, under own₁ (under own (o.write [])),
          view'⟩ := by
      intro o
      rw [write_nil]
      exact hr (under own o)
    exact framed_continue
      (k := fun s v o view => runScript env run (k (if s then v else .bool false)) o view) hown hl
        removable le (ih _ view' (closes _) removable le)
  | display tpl vars k ih =>
    obtain ⟨e, status, t, -, own₁, view', -, hd, -, hl, -⟩ :=
      shown_simpleRender (fun path template symbols h => file path template symbols h view) tpl vars
    obtain ⟨own₂, t', hw, hlen, hrem⟩ := write_under removable t
    have hown : ∀ o, viewSimpleRender env run tpl vars false (under own o) view =
        ⟨e, status, .null, under own₁ (under own₂ (o.write t')), view'⟩ := by
      intro o
      rw [← hw]
      exact hd (under own o)
    exact framed_continue (k := fun s _ o view => runScript env run (k (.bool s)) o view)
      hown hl hrem (hlen ▸ le) (ih _ view' (hlen ▸ closes _) hrem (hlen ▸ le))
  | eval tpl vars k ih =>
    obtain ⟨e, status, ret, own₁, view', hr, hl⟩ :=
      eval_apart (fun text script symbols h => string text script symbols h view) tpl vars
    have hown : ∀ o, viewSimpleEval env run tpl vars (under own o) view =
        ⟨e, status, ret, under own₁ (under own (o.write [])), view'⟩ := by
      intro o
      rw [write_nil]
      exact hr (under own o)
    exact framed_continue
      (k := fun s v o view => runScript env run (k (if s then v else .bool false)) o view) hown hl
        removable le (ih _ view' (closes _) removable le)

end runScript

section engine
variable {env : Templates}

/-- The induction is on how deep templates may nest. -/
theorem framed_zendExecute (h : env.Close m) {script : ViewScript} {own : List OutputBuffer}
    (depth : Nat) (view : ViewSimple) (closes : Closes m own.length script)
    (removable : Removable own) (le : own.length ≤ m) :
    Framed m own fun o => zendExecute env depth script o view := by
  induction depth generalizing script own view with
  | zero =>
    refine ⟨.unfinished, own, [], view, ?_, removable, ?_, ?_⟩
    · intro o
      rw [write_nil]
      rfl
    · intro hf
      cases hf
    · intro _ x hx
      cases hx
  | succ depth ih =>
    apply framed_runScript ?_ ?_ view closes removable le
    · intro path template symbols hfile view
      exact ih view (h.file path template symbols hfile) removable_nil (Nat.zero_le m)
    · intro text script symbols hstring view
      exact ih view (h.string text script symbols hstring) removable_nil (Nat.zero_le m)

def visitor (symbols : Table Bytes Zval) : Bytes :=
  match symbols.find? (lit "name") with
  | some (.string name) => name
  | _ => lit "stranger"

/-- A page that greets through a buffer of its own. -/
def samplePage (symbols : Table Bytes Zval) : ViewScript :=
  .output (.obStart true true true) fun _ =>
    .output (.echo (lit "hello ")) fun _ =>
      .output .obEndFlush fun _ =>
        .output (.echo (visitor symbols)) fun _ => .done

def sampleTemplates : Templates where
  file path := if path = lit "/views/index.phtml" then some (.code samplePage) else none
  string _ := .parseError
  strerror _ := lit "No such file or directory"
  throwException := true
  recovery _ := .halts
  viewDirectory := none
  scope := some (lit "Yaf_View_Simple")
  className := lit "Yaf_View_Simple"

def sampleView : ViewSimple where
  tplVars := [(.name (lit "name"), .string (lit "Ada"))]
  tplDir := some (lit "/views")

theorem sampleTemplates_close : sampleTemplates.Close 1 := by
  refine ⟨?_, ?_⟩
  · intro path template symbols h
    unfold sampleTemplates at h
    simp only at h
    split at h
    · cases h
      refine ⟨1, rfl, le_refl 1, fun _ => ⟨1, rfl, le_refl 1, fun _ => ⟨0, rfl, Nat.zero_le 1, ?_⟩⟩⟩
      intro _
      exact ⟨0, rfl, Nat.zero_le 1, fun _ => rfl⟩
    · cases h
  · intro text script symbols h
    cases h

theorem shown_render (h : env.Close m) (depth : Nat) (tpl : Zval) (vars : Option Zval)
    (view : ViewSimple) :
    Shown m (env.render depth tpl vars view) (env.display depth tpl vars view) :=
  shown_simpleRender (fun path template symbols hfile =>
    framed_zendExecute h depth view (h.file path template symbols hfile) removable_nil
      (Nat.zero_le m)) tpl vars

/-- Showing a template does what rendering it does, and prints the text that rendering returns. -/
theorem display_prints_what_render_returns (h : env.Close m) (depth : Nat) (tpl : Zval)
    (vars : Option Zval) (view : ViewSimple) :
    Prints (env.render depth tpl vars view) (env.display depth tpl vars view) :=
  prints_of_shown (shown_render h depth tpl vars view)

theorem display_prints_index :
    Prints (sampleTemplates.render 1 (.string (lit "index.phtml")) none sampleView)
      (sampleTemplates.display 1 (.string (lit "index.phtml")) none sampleView) ∧
    (sampleTemplates.render 1 (.string (lit "index.phtml")) none sampleView ⟨[], []⟩).value =
      .string (lit "hello Ada") :=
  ⟨display_prints_what_render_returns sampleTemplates_close 1 _ none sampleView, rfl⟩

/-- Rendering and evaluating change nothing that was there before, however they end. They leave
buffers of their own only on top, none when they finish, and none after an exception where templates
start no buffers. -/
theorem rendering_is_quiet (h : env.Close m) (depth : Nat) (tpl : Zval) (vars : Option Zval)
    (view : ViewSimple) :
    Quiet m (env.render depth tpl vars view) ∧ Quiet m (env.eval depth tpl vars view) := by
  constructor
  · obtain ⟨e, status, t, own, -, view', hr, -, hl, -, -⟩ := shown_render h depth tpl vars view
    exact quiet_of_leaves hr hl
  · have heval : ∃ e status ret own view',
        (∀ o, env.eval depth tpl vars view o = ⟨e, status, ret, under own o, view'⟩) ∧
          Leaves m e own :=
      eval_apart (fun text script symbols hstring =>
        framed_zendExecute h depth view (h.string text script symbols hstring) removable_nil
          (Nat.zero_le m)) tpl vars
    obtain ⟨e, status, ret, own, view', hr, hl⟩ := heval
    exact quiet_of_leaves hr hl

theorem index_is_quiet :
    Quiet 1 (sampleTemplates.render 1 (.string (lit "index.phtml")) none sampleView) ∧
      Quiet 1 (sampleTemplates.eval 1 (.string (lit "index.phtml")) none sampleView) :=
  rendering_is_quiet sampleTemplates_close 1 (.string (lit "index.phtml")) none sampleView

end engine

end Yaf.View
