import Yaf.Exception
import Yaf.Php.Output
import Yaf.View.Assigned

namespace Yaf.View
open Base Output

/-- What a template or evaluated code throws. -/
inductive TemplateException where
  | yaf (type : YafErr) (message : Bytes)
  | parseError
  | user (code : Nat)
  deriving DecidableEq, Repr

/-- The code of a template, as far as the output layer and the view see it. It goes on with what a
call returned. -/
inductive ViewScript where
  | done
  | exit
  | throw (e : TemplateException)
  | output (call : OutputCall) (k : Zval → ViewScript)
  | assign (call : ViewCall) (k : ViewScript)
  | setScriptPath (tplDir : Zval) (k : Bool → ViewScript)
  | render (tpl : Zval) (vars : Option Zval) (k : Zval → ViewScript)
  | display (tpl : Zval) (vars : Option Zval) (k : Zval → ViewScript)
  | eval (tpl : Zval) (vars : Option Zval) (k : Zval → ViewScript)

/-- What `E_RECOVERABLE_ERROR` comes to where `yaf.throw_exception` is off. -/
inductive Recovery where
  | handled
  | halts
  deriving DecidableEq, Repr

/-- What the engine makes of a piece of code: no code where it cannot be opened, a `ParseError`, a
fatal error of the compiler, or code over the symbols it is given. -/
inductive Compiled where
  | unreadable
  | parseError
  | fatal
  | code (script : Table Bytes Zval → ViewScript)

/-- What rendering finds around it: the files, what compiles, and the settings. A file is none where
`realpath` fails. -/
structure Templates where
  file : Bytes → Option Compiled
  string : Bytes → Compiled
  strerror : Bytes → Bytes
  throwException : Bool
  recovery : YafErr → Recovery
  viewDirectory : Option Bytes
  scope : Option Bytes
  className : Bytes

/-- The properties of a `Yaf_View_Simple` that rendering reads. -/
structure ViewSimple where
  tplVars : Table Key Zval
  tplDir : Option Bytes

/-- What a step of rendering leaves: how it ended, its status, the value it set, and the world. -/
structure Rendered where
  ending : Ending TemplateException
  status : Bool
  ret : Zval
  output : Output
  view : ViewSimple

/-- What running code leaves. -/
structure Ran where
  ending : Ending TemplateException
  output : Output
  view : ViewSimple

/-- `yaf_trigger_error`, for the status and value of the function that calls it. -/
def viewTriggerError (env : Templates) (type : YafErr) (message : Bytes) (o : Output)
    (view : ViewSimple) : Rendered :=
  let ending := if env.throwException then .thrown (.yaf type message)
    else match env.recovery type with
      | .handled => .finished
      | .halts => .halted
  ⟨ending, false, .null, o, view⟩

section exec
variable (env : Templates) (run : ViewScript → Output → ViewSimple → Ran)

/-- `yaf_view_exec_tpl`; `ret` says whether the caller wants the text. -/
def viewExecTpl (script : ViewScript) (ret : Bool) (o : Output) (view : ViewSimple) : Rendered :=
  let r := run script (if ret then o.phpOutputStartUser stdBuffer else o) view
  match r.ending with
  | .thrown e =>
    ⟨.thrown e, false, .null, if ret then r.output.phpOutputDiscard.2 else r.output, r.view⟩
  | .finished =>
    if ret then
      match r.output.phpOutputGetContents with
      | none => ⟨.finished, false, .null, r.output.phpOutputEnd.2, r.view⟩
      | some text =>
        ⟨.finished, r.output.phpOutputDiscard.1, .string text, r.output.phpOutputDiscard.2, r.view⟩
    else ⟨.finished, true, .null, r.output, r.view⟩
  | e => ⟨e, false, .null, r.output, r.view⟩

/-- `yaf_view_render_tpl` -/
def viewRenderTpl (symbols : Table Bytes Zval) (tpl : Bytes) (ret : Bool) (o : Output)
    (view : ViewSimple) : Rendered :=
  match env.file (cstr tpl) with
  | none =>
    viewTriggerError env .notfoundView
      (lit "Failed opening template " ++ cstr tpl ++ lit ": " ++ env.strerror (cstr tpl)) o view
  | some .unreadable => ⟨.finished, false, .null, o, view⟩
  | some .parseError => ⟨.thrown .parseError, false, .null, o, view⟩
  | some .fatal => ⟨.halted, false, .null, o, view⟩
  | some (.code template) => viewExecTpl run (template symbols) ret o view

/-- `yaf_view_simple_render` -/
def viewSimpleRender (tpl : Zval) (vars : Option Zval) (ret : Bool) (o : Output)
    (view : ViewSimple) : Rendered :=
  match tpl with
  | .string t =>
    match viewBuildSymtable env.scope (some (.array view.tplVars)) vars with
    | none => ⟨.halted, false, .null, o, view⟩
    | some symbols =>
      if isAbsolutePath t then viewRenderTpl env run symbols t ret o view
      else
        match view.tplDir.or env.viewDirectory with
        | some dir => viewRenderTpl env run symbols (cstr dir ++ slash :: cstr t) ret o view
        | none =>
          viewTriggerError env .notfoundView
            (lit "Could not determine the view script path, you should call " ++ env.className ++
              lit "::setScriptPath to specific it") o view
  | _ => ⟨.finished, false, .null, o, view⟩

/-- `yaf_view_simple_eval`: how the code ran is not looked at. -/
def viewSimpleEval (tpl : Zval) (vars : Option Zval) (o : Output) (view : ViewSimple) : Rendered :=
  match tpl with
  | .string t =>
    match viewBuildSymtable env.scope (some (.array view.tplVars)) vars with
    | none => ⟨.halted, false, .null, o, view⟩
    | some symbols =>
      if t.isEmpty then ⟨.finished, true, .null, o, view⟩
      else
        match env.string (cstr t) with
        | .unreadable => ⟨.finished, true, .null, o, view⟩
        | .parseError => ⟨.thrown .parseError, true, .null, o, view⟩
        | .fatal => ⟨.halted, true, .null, o, view⟩
        | .code script => { viewExecTpl run (script symbols) true o view with status := true }
  | _ => ⟨.finished, false, .null, o, view⟩

/-- `Yaf_View_Simple::setScriptPath`, with whether the object comes back. -/
def viewSimpleSetScriptPath (tplDir : Zval) (view : ViewSimple) : Bool × ViewSimple :=
  match tplDir with
  | .string dir =>
    if isAbsolutePath dir then (true, { view with tplDir := some dir }) else (false, view)
  | _ => (false, view)

/-- The value `render` and `eval` return. -/
def Rendered.value (r : Rendered) : Zval := if r.status then r.ret else .bool false

/-- Code goes on after a call that finished. -/
def Rendered.continue (r : Rendered) (k : Output → ViewSimple → Ran) : Ran :=
  match r.ending with
  | .finished => k r.output r.view
  | e => ⟨e, r.output, r.view⟩

/-- Runs code whose calls of the view run the code of templates by `run`. -/
def runScript : ViewScript → Output → ViewSimple → Ran
  | .done, o, view => ⟨.finished, o, view⟩
  | .exit, o, view => ⟨.halted, o, view⟩
  | .throw e, o, view => ⟨.thrown e, o, view⟩
  | .output call k, o, view => runScript (k (call.apply o).1) (call.apply o).2 view
  | .assign call k, o, view => runScript k o { view with tplVars := call.apply view.tplVars }
  | .setScriptPath tplDir k, o, view =>
    runScript (k (viewSimpleSetScriptPath tplDir view).1) o (viewSimpleSetScriptPath tplDir view).2
  | .render tpl vars k, o, view =>
    let r := viewSimpleRender env run tpl vars true o view
    r.continue fun o view => runScript (k r.value) o view
  | .display tpl vars k, o, view =>
    let r := viewSimpleRender env run tpl vars false o view
    r.continue fun o view => runScript (k (.bool r.status)) o view
  | .eval tpl vars k, o, view =>
    let r := viewSimpleEval env run tpl vars o view
    r.continue fun o view => runScript (k r.value) o view

end exec

/-- The engine, with templates nested this deep at most. -/
def zendExecute (env : Templates) : Nat → ViewScript → Output → ViewSimple → Ran
  | 0 => fun _ o view => ⟨.unfinished, o, view⟩
  | depth + 1 => runScript env (zendExecute env depth)

namespace Templates
variable (env : Templates) (depth : Nat) (tpl : Zval) (vars : Option Zval) (view : ViewSimple)

/-- `Yaf_View_Simple::render` -/
def render (o : Output) : Rendered :=
  viewSimpleRender env (zendExecute env depth) tpl vars true o view

/-- `Yaf_View_Simple::display` -/
def display (o : Output) : Rendered :=
  viewSimpleRender env (zendExecute env depth) tpl vars false o view

/-- `Yaf_View_Simple::eval` -/
def eval (o : Output) : Rendered := viewSimpleEval env (zendExecute env depth) tpl vars o view

end Templates

end Yaf.View
