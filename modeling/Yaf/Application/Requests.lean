import Yaf.Application.Options
import Yaf.Base.Client
import Yaf.Loader.Namespace

namespace Yaf
open Base

/-- What code of a request can do to the globals of the extension, and a look at all of them. -/
inductive SettingCall where
  | construct (conf : Table Key Zval)
  | destruct
  | setAppDirectory (directory : Bytes)
  | throwException (flag : Bool)
  | catchException (flag : Bool)
  | localNamespace (call : NamespaceCall)
  | publishViews (directory : Bytes)
  | handleException
  | iniSet (name value : Bytes)
  | iniRestore (name : Bytes)
  | look

inductive SettingAnswer where
  | bool (b : Bool)
  | failed (t : Trigger)
  | text (s : Bytes)
  | settings (g : Settings)

/-- A request that is being served: the globals, and whether an application is registered and the
one dispatcher made. -/
structure Serving where
  settings : Settings
  application : Bool
  dispatcher : Bool

namespace Serving
variable (doubleText : UInt64 → Bytes) (objectText : Nat → Bytes) (behind : Bytes)

/-- An error of the extension. Without exceptions it is kept in the application, which has to be
there. -/
def raise (s : Serving) (t : Trigger) : Except Unit (SettingAnswer × Serving) :=
  if s.settings.throwException || s.application then .ok (.failed t, s) else .error ()

/-- `Yaf_Application::__construct`, as far as it sets the globals. A dispatcher that is there
already is not handed over by `yaf_dispatcher_instance`: the configuration has been parsed by then.
-/
def construct (s : Serving) (conf : Table Key Zval) : Except Unit (SettingAnswer × Serving) :=
  if s.application then s.raise ⟨.startupFailed, lit "Only one application can be initialized"⟩
  else
    match s.settings.parseOption doubleText objectText behind conf with
    | none => .error ()
    | some (.error _) =>
      s.raise ⟨.startupFailed, lit "Initialization of application config failed"⟩
    | some (.ok settings) =>
      if s.dispatcher then
        { s with settings }.raise
          ⟨.startupFailed, lit "Instantiation of application dispatcher failed"⟩
      else .ok (.bool true, ⟨settings, true, true⟩)

/-- `Yaf_Application::setAppDirectory`. It releases the directory that is there. -/
def setAppDirectory (s : Serving) (directory : Bytes) : Except Unit (SettingAnswer × Serving) :=
  if directory.isEmpty || !isAbsolutePath directory then .ok (.bool false, s)
  else
    match s.settings.paths.directory with
    | none => .error ()
    | some _ => .ok (.bool true, { s with settings.paths.directory := some directory })

/-- `ini_set`, which answers what the value was. -/
def iniSet (s : Serving) (name value : Bytes) : SettingAnswer × Serving :=
  let r := s.settings.ini.zendAlterIniEntry name value
  let old := (YafIni.ofName name).map fun n => cstr (s.settings.ini.entries n).value
  (if r.1 then .text (old.getD []) else .bool false, { s with settings.ini := r.2 })

def apply (s : Serving) : SettingCall → Except Unit (SettingAnswer × Serving)
  | .construct conf => s.construct doubleText objectText behind conf
  | .destruct => .ok (.bool true, { s with application := false })
  | .setAppDirectory directory => s.setAppDirectory directory
  | .throwException flag => .ok (.bool true, { s with settings.throwException := flag })
  | .catchException flag => .ok (.bool true, { s with settings.catchException := flag })
  | .localNamespace call =>
    match call.step s.settings.paths.localNamespaces with
    | none => .error ()
    | some names => .ok (.bool true, { s with settings.paths.localNamespaces := names })
  | .publishViews directory =>
    .ok (.bool true, { s with settings.viewDirectory := some directory })
  | .handleException => .ok (.bool true, { s with settings.inException := true })
  | .iniSet name value => .ok (s.iniSet name value)
  | .iniRestore name =>
    .ok (.bool true, { s with settings.ini := s.settings.ini.zendRestoreIniEntry name })
  | .look => .ok (.settings s.settings, s)

end Serving

namespace Settings

/-- The globals after the module was started. -/
def minit (configured : YafIni → Option Bytes) : Settings :=
  ⟨⟨none, [], none, none, none, [], none⟩, ⟨[], [], []⟩, false, false, none, none, none, false,
    Ini.register configured⟩

/-- `PHP_RINIT_FUNCTION` -/
def rinit (g : Settings) : Settings :=
  { g with
    throwException := true
    paths := { g.paths with ext := lit "php", viewExt := lit "phtml" }
    defaults := initialDefaults }

/-- `PHP_RSHUTDOWN_FUNCTION`. What it releases and does not clear is left as it was. -/
def rshutdown (g : Settings) : Settings :=
  { g with
    inException := false
    catchException := false
    paths := { g.paths with
      directory := none
      localLibrary := none
      localNamespaces := none
      bootstrap := none
      baseUri := none }
    modules := none
    viewDirectory := none
    defaultRoute := none }

section
variable (doubleText : UInt64 → Bytes) (objectText : Nat → Bytes) (behind : Bytes) {β : Type}

/-- A request is served from its start to its end. A crash ends the process. -/
def serve (p : Client SettingCall SettingAnswer β) (g : Settings) : Except Unit (β × Settings) :=
  match p.run (Serving.apply doubleText objectText behind) ⟨g.rinit, false, false⟩ with
  | .error e => .error e
  | .ok (b, s) =>
    let g := s.settings.rshutdown
    .ok (b, { g with ini := g.ini.zendIniDeactivate })

/-- A process serves requests one after the other. -/
def serveAll :
    List (Client SettingCall SettingAnswer β) → Settings → Except Unit (List β × Settings)
  | [], g => .ok ([], g)
  | p :: ps, g =>
    match serve doubleText objectText behind p g with
    | .error e => .error e
    | .ok (b, g) =>
      match serveAll ps g with
      | .error e => .error e
      | .ok (bs, g) => .ok (b :: bs, g)

/-- What a request results in when the process has just been started. -/
def firstRequest (base : YafIni → Bytes) (p : Client SettingCall SettingAnswer β) : Except Unit β :=
  (p.run (Serving.apply doubleText objectText behind) ⟨start base, false, false⟩).map Prod.fst

end
end Settings

section
variable {doubleText : UInt64 → Bytes} {objectText : Nat → Bytes} {behind : Bytes}
  {base : YafIni → Bytes} {s s' : Serving} {a : SettingAnswer}

theorem sound_parseSystem {ini ini' : Ini} (h : ini.Sound base) {system : Table Key Zval}
    (parsed : parseSystem doubleText objectText ini system = some ini') : ini'.Sound base := by
  induction system generalizing ini with
  | nil =>
    cases parsed
    exact h
  | cons p system ih =>
    obtain ⟨key, value⟩ := p
    cases key with
    | index i => cases parsed
    | name key => exact ih (h.zendAlterIniEntry _ _) parsed

theorem sound_parseOption {conf : Table Key Zval} {g g' : Settings} (h : g.ini.Sound base)
    (parsed : g.parseOption doubleText objectText behind conf = some (.ok g')) :
    g'.ini.Sound base := by
  obtain ⟨app, paths, modules, ini, -, -, -, hsystem, rfl⟩ := Settings.parseOption_ok _ _ parsed
  unfold systemOption at hsystem
  split at hsystem
  · exact sound_parseSystem h hsystem
  · cases hsystem
    exact h

theorem Serving.raise_ok {t : Trigger} (h : s.raise t = .ok (a, s')) : s' = s := by
  unfold Serving.raise at h
  split at h
  · cases h
    rfl
  · cases h

/-- The step lemma: every call leaves the settings as they can be taken back. -/
theorem Serving.sound_apply {c : SettingCall} (h : s.settings.ini.Sound base)
    (hcall : s.apply doubleText objectText behind c = .ok (a, s')) :
    s'.settings.ini.Sound base := by
  cases c with
  | construct conf =>
    change s.construct doubleText objectText behind conf = _ at hcall
    unfold Serving.construct at hcall
    split at hcall
    · rw [Serving.raise_ok hcall]
      exact h
    · split at hcall
      · cases hcall
      · rw [Serving.raise_ok hcall]
        exact h
      · rename_i parsed
        have hparsed := sound_parseOption h parsed
        split at hcall
        · rw [Serving.raise_ok hcall]
          exact hparsed
        · cases hcall
          exact hparsed
  | setAppDirectory directory =>
    change s.setAppDirectory directory = _ at hcall
    unfold Serving.setAppDirectory at hcall
    split at hcall
    · cases hcall
      exact h
    · split at hcall
      · cases hcall
      · cases hcall
        exact h
  | localNamespace call =>
    unfold Serving.apply at hcall
    simp only at hcall
    split at hcall
    · cases hcall
    · cases hcall
      exact h
  | iniSet name value =>
    cases hcall
    exact h.zendAlterIniEntry name value
  | iniRestore name =>
    cases hcall
    exact h.zendRestoreIniEntry name
  | _ =>
    cases hcall
    exact h

/-- A change that `ini_set` answers false to leaves the values and the globals. -/
theorem Serving.iniSet_refused {name value : Bytes}
    (h : s.iniSet name value = (.bool false, s')) :
    s'.settings.ini.globals = s.settings.ini.globals ∧
      ∀ n, (s'.settings.ini.entries n).value = (s.settings.ini.entries n).value := by
  obtain ⟨hanswer, rfl⟩ := Prod.mk.inj h
  cases hr : (s.settings.ini.zendAlterIniEntry name value).1 with
  | true =>
    rw [hr] at hanswer
    cases hanswer
  | false => exact Ini.zendAlterIniEntry_refused hr

theorem Serving.sound_run {β : Type} {p : Client SettingCall SettingAnswer β} {b : β}
    (h : s.settings.ini.Sound base)
    (hrun : p.run (Serving.apply doubleText objectText behind) s = .ok (b, s')) :
    s'.settings.ini.Sound base :=
  Client.run_fold (f := fun u _ => u) (I := fun s (_ : Unit) => s.settings.ini.Sound base) (d := ())
    (fun _ _ _ _ _ h hcall => Serving.sound_apply h hcall) h hrun

end

namespace Settings
section
variable {doubleText : UInt64 → Bytes} {objectText : Nat → Bytes} {behind : Bytes}
  {configured : YafIni → Option Bytes} {base : YafIni → Bytes} {g g' : Settings} {β : Type}

theorem sound_start (configured : YafIni → Option Bytes) :
    (start (Ini.startValue configured)).ini.Sound (Ini.startValue configured) :=
  Ini.Sound.of_fresh fun n => Ini.startValue_fits configured n _

theorem rinit_minit (configured : YafIni → Option Bytes) :
    (minit configured).rinit = start (Ini.startValue configured) := by
  unfold minit rinit start
  rw [Ini.register_eq]
  rfl

/-- Whatever a request left, the next one finds the globals as they were at first. -/
theorem rinit_ended (h : g.ini.Sound base) :
    rinit { g.rshutdown with ini := g.rshutdown.ini.zendIniDeactivate } = start base := by
  change rinit { g.rshutdown with ini := g.ini.zendIniDeactivate } = start base
  rw [h.zendIniDeactivate]
  rfl

/-- A request is answered as a first one where it finds the globals so. -/
theorem serve_first {base : YafIni → Bytes} (hg : g.rinit = start base)
    (p : Client SettingCall SettingAnswer β) :
    (serve doubleText objectText behind p g).map Prod.fst =
      firstRequest doubleText objectText behind base p := by
  unfold serve firstRequest
  rw [hg]
  cases p.run (Serving.apply doubleText objectText behind) ⟨start base, false, false⟩ with
  | error e => rfl
  | ok r => rfl

/-- The step lemma of the process: behind a request the next one finds the globals so again. -/
theorem serve_next (hg : g.rinit = start (Ini.startValue configured))
    {p : Client SettingCall SettingAnswer β} {b : β}
    (h : serve doubleText objectText behind p g = .ok (b, g')) :
    g'.rinit = start (Ini.startValue configured) := by
  unfold serve at h
  rw [hg] at h
  cases hrun : p.run (Serving.apply doubleText objectText behind)
      ⟨start (Ini.startValue configured), false, false⟩ with
  | error e =>
    rw [hrun] at h
    cases h
  | ok r =>
    obtain ⟨b', s⟩ := r
    rw [hrun] at h
    cases h
    exact rinit_ended (Serving.sound_run (sound_start configured) hrun)

/-- Requests that one process serves do not see each other: each of them results in what it results
in when it is the first. -/
theorem requests_apart (doubleText : UInt64 → Bytes) (objectText : Nat → Bytes) (behind : Bytes)
    (configured : YafIni → Option Bytes) (ps : List (Client SettingCall SettingAnswer β)) :
    (serveAll doubleText objectText behind ps (minit configured)).map Prod.fst =
      ps.mapM (firstRequest doubleText objectText behind (Ini.startValue configured)) := by
  have hfold : ∀ g : Settings, g.rinit = start (Ini.startValue configured) →
      (serveAll doubleText objectText behind ps g).map Prod.fst =
        ps.mapM (firstRequest doubleText objectText behind (Ini.startValue configured)) := by
    induction ps with
    | nil =>
      intro g _
      rfl
    | cons p ps ih =>
      intro g hg
      rw [serveAll, List.mapM_cons]
      have hfirst : (serve doubleText objectText behind p g).map Prod.fst = _ := serve_first hg p
      rw [← hfirst]
      cases hserve : serve doubleText objectText behind p g with
      | error e => rfl
      | ok r =>
        obtain ⟨b, g'⟩ := r
        simp only
        have hrest := ih g' (serve_next hg hserve)
        rw [← hrest]
        cases serveAll doubleText objectText behind ps g' with
        | error e => rfl
        | ok r' => rfl
  exact hfold _ (rinit_minit configured)

/-- In every state of a request the extension acts by the settings as they can be read, a change
that is refused leaves both as they are, the forward limit is no negative number, and the
environment and the class names are as they were configured. -/
theorem settings_follow {p : Client SettingCall SettingAnswer β} {b : β} {s : Serving}
    (hrun : p.run (Serving.apply doubleText objectText behind)
      ⟨start (Ini.startValue configured), false, false⟩ = .ok (b, s)) :
    s.settings.ini.globals = iniGlobals (fun n => (s.settings.ini.entries n).value) ∧
      (∀ name value after, s.iniSet name value = (.bool false, after) →
        after.settings.ini.globals = s.settings.ini.globals ∧
          ∀ n, (after.settings.ini.entries n).value = (s.settings.ini.entries n).value) ∧
      0 ≤ s.settings.ini.globals.forwardLimit ∧
      ∀ n, n.isUser = false → (s.settings.ini.entries n).value = Ini.startValue configured n := by
  obtain ⟨hfollows, hlimit, hfixed⟩ := (Serving.sound_run (sound_start configured) hrun).globals
  refine ⟨hfollows, ?_, hlimit, hfixed⟩
  intro name value after hrefused
  exact Serving.iniSet_refused hrefused

/-- The limit is lowered by the configuration, and set to a text that is not taken. -/
def limitProgram : Client SettingCall SettingAnswer SettingAnswer :=
  .call (.construct [(.name (lit "yaf"), .array [(.name (lit "directory"), .string (lit "/app")),
      (.name (lit "system"), .array [(.name (lit "forward_limit"), .long 2)])])]) fun _ =>
    .call (.iniSet (lit "yaf.forward_limit") (lit "-1")) .done

theorem settings_follow_limit :
    ∃ s, limitProgram.run (Serving.apply (fun _ => []) (fun _ => []) [])
        ⟨start (Ini.startValue fun _ => none), false, false⟩ = .ok (.bool false, s) ∧
      s.settings.ini.globals = iniGlobals (fun n => (s.settings.ini.entries n).value) ∧
        (∀ name value after, s.iniSet name value = (.bool false, after) →
          after.settings.ini.globals = s.settings.ini.globals ∧
            ∀ n, (after.settings.ini.entries n).value = (s.settings.ini.entries n).value) ∧
        0 ≤ s.settings.ini.globals.forwardLimit ∧
        ∀ n, n.isUser = false →
          (s.settings.ini.entries n).value = Ini.startValue (fun _ => none) n := by
  obtain ⟨s, hrun⟩ : ∃ s, limitProgram.run (Serving.apply (fun _ => []) (fun _ => []) [])
      ⟨start (Ini.startValue fun _ => none), false, false⟩ = .ok (.bool false, s) := ⟨_, rfl⟩
  exact ⟨s, hrun, settings_follow hrun⟩

end
end Settings
end Yaf
