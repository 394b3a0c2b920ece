import Yaf.Dispatcher.Handle
import Yaf.Dispatcher.Spelling

namespace Yaf
open Base

/-- The names `PHP_RINIT_FUNCTION` starts from. -/
def initialDefaults : DefaultNames := ⟨lit "Index", lit "Index", lit "index"⟩

/-- A default name out of the array of `application.dispatcher`, when it is a string there. -/
def dispatcherOption (options : Table Key Zval) (name : Bytes) (std : Bytes → Bytes)
    (default : Bytes) : Bytes :=
  match Table.find? options (.name name) with
  | some (.string s) => std s
  | _ => default

/-- The two copies that raise the first letter of the lowered name, and nothing behind it. -/
def raiseFirst (s : Bytes) : Bytes := upperFirst (s.map toLower)

/-- `yaf_application_parse_option`, as far as it sets the default names. Without a usable
application or directory it fails before that. -/
def applicationParseOption (conf : Table Key Zval) (defaults : DefaultNames) : DefaultNames :=
  match (Table.find? conf (.name (lit "application"))).or
      (Table.find? conf (.name (lit "yaf"))) with
  | some (.array app) =>
    match (Table.find? app (.name (lit "directory"))).bind Zval.text?,
        Table.find? app (.name (lit "dispatcher")) with
    | some _, some (.array options) =>
      { module := dispatcherOption options (lit "defaultModule") raiseFirst defaults.module
        controller := dispatcherOption options (lit "defaultController") raiseFirst
          defaults.controller
        action := dispatcherOption options (lit "defaultAction") (List.map toLower)
          defaults.action }
    | _, _ => defaults
  | _ => defaults

/-- `setDefaultModule`. `ZVAL_STRING` takes the lowered copy up to its first NUL. `none` is the
answer false. -/
def setDefaultModule (modules : List Bytes) (name : Zval) (defaults : DefaultNames) :
    Option DefaultNames :=
  match name.text? with
  | some s =>
    if applicationIsModuleName modules s then
      some { defaults with module := upperFirst (cstr (s.map toLower)) }
    else none
  | none => none

/-- `setDefaultController`. -/
def setDefaultController (name : Zval) (defaults : DefaultNames) : Option DefaultNames :=
  name.text?.map fun s => { defaults with controller := upperFirst (cstr (s.map toLower)) }

/-- `setDefaultAction`. -/
def setDefaultAction (name : Zval) (defaults : DefaultNames) : Option DefaultNames :=
  name.text?.map fun s => { defaults with action := cstr (s.map toLower) }

/-- A call that sets a default name. The declared modules are those at the time of the call. -/
inductive DefaultCall where
  | module (modules : List Bytes) (name : Zval)
  | controller (name : Zval)
  | action (name : Zval)

def DefaultCall.run (defaults : DefaultNames) : DefaultCall → DefaultNames
  | .module modules name => (setDefaultModule modules name defaults).getD defaults
  | .controller name => (setDefaultController name defaults).getD defaults
  | .action name => (setDefaultAction name defaults).getD defaults

/-- The default names of a dispatcher: the configuration, then the calls. -/
def dispatcherDefaults (conf : Table Key Zval) (calls : List DefaultCall) : DefaultNames :=
  calls.foldl DefaultCall.run (applicationParseOption conf initialDefaults)

/-- What all of these leave behind: the module and the controller are lowered with their first
letter raised, the action is lowered. -/
structure DefaultNames.Configured (defaults : DefaultNames) : Prop where
  module : ∃ s, defaults.module = raiseFirst s
  controller : ∃ s, defaults.controller = raiseFirst s
  action : ∃ s : Bytes, defaults.action = s.map toLower

theorem upperFirst_cstr (s : Bytes) : upperFirst (cstr (s.map toLower)) = raiseFirst (cstr s) := by
  rw [cstr_map_toLower, raiseFirst]

theorem initialDefaults_configured : initialDefaults.Configured where
  module := ⟨lit "Index", by decide +kernel⟩
  controller := ⟨lit "Index", by decide +kernel⟩
  action := ⟨lit "index", by decide +kernel⟩

theorem dispatcherOption_configured {options : Table Key Zval} {name default : Bytes}
    {std : Bytes → Bytes} (h : ∃ s, default = std s) :
    ∃ s, dispatcherOption options name std default = std s := by
  unfold dispatcherOption
  split
  · exact ⟨_, rfl⟩
  · exact h

theorem applicationParseOption_configured (conf : Table Key Zval) {defaults : DefaultNames}
    (h : defaults.Configured) : (applicationParseOption conf defaults).Configured := by
  unfold applicationParseOption
  split
  · split
    · exact ⟨dispatcherOption_configured h.module, dispatcherOption_configured h.controller,
        dispatcherOption_configured h.action⟩
    · exact h
  · exact h

/-- A call changes one name, if any. -/
theorem DefaultCall.run_configured (call : DefaultCall) {defaults : DefaultNames}
    (h : defaults.Configured) :
    (call.run defaults).Configured := by
  cases call with
  | module modules name =>
    rw [DefaultCall.run, setDefaultModule]
    split
    · rename_i s _
      split
      · exact ⟨⟨_, upperFirst_cstr s⟩, h.controller, h.action⟩
      · exact h
    · exact h
  | controller name =>
    rw [DefaultCall.run, setDefaultController]
    cases name.text? with
    | none => exact h
    | some s => exact ⟨h.module, ⟨_, upperFirst_cstr s⟩, h.action⟩
  | action name =>
    rw [DefaultCall.run, setDefaultAction]
    cases name.text? with
    | none => exact h
    | some s => exact ⟨h.module, h.controller, ⟨cstr s, cstr_map_toLower s⟩⟩

theorem dispatcherDefaults_configured (conf : Table Key Zval) (calls : List DefaultCall) :
    (dispatcherDefaults conf calls).Configured := by
  have hrun : ∀ defaults : DefaultNames, defaults.Configured →
      (calls.foldl DefaultCall.run defaults).Configured := by
    induction calls with
    | nil => exact fun _ h => h
    | cons call calls ih => exact fun _ h => ih _ (call.run_configured h)
  exact hrun _ (applicationParseOption_configured conf initialDefaults_configured)

/-- Nothing is raised from the first NUL on. -/
theorem raiseAfter_nul {s : Bytes} (hs : NUL ∉ s) (t : Bytes) :
    raiseAfter (s ++ NUL :: t) = raiseAfter s ++ NUL :: t := by
  fun_induction raiseAfter s with
  | case1 => simp [raiseAfter.eq_def]
  | case2 => simp at hs
  | case3 c hn hc => simp [raiseAfter, hn, hc]
  | case4 => simp at hs
  | case5 c hn hc d s hd ih =>
    have hs' : NUL ∉ s := fun h => hs (by simp [h])
    simp [raiseAfter, hn, hc, hd, ih hs']
  | case6 c s hn hc ih =>
    have hs' : NUL ∉ s := fun h => hs (by simp [h])
    rw [List.cons_append, raiseAfter.eq_def]
    simp [hn, hc, ih hs']

/-- Up to its first NUL, the letters behind an odd number of separators are upper case. -/
def RaisedBehindOdd (s : Bytes) : Prop :=
  ∀ i c, (cstr s)[i]? = some c → separatorsBefore (cstr s) i % 2 = 1 → toUpper c = c

theorem raiseAfter_eq_self {s : Bytes} (hs : NUL ∉ s) :
    raiseAfter s = s ↔
      ∀ i c, s[i]? = some c → separatorsBefore s i % 2 = 1 → toUpper c = c := by
  constructor
  · intro h i c hc hodd
    have hraised := getElem?_raiseAfter hs i
    rw [h, hc, Option.map_some, if_pos hodd] at hraised
    exact (Option.some.inj hraised).symm
  · intro h
    apply List.ext_getElem?
    intro i
    rw [getElem?_raiseAfter hs]
    cases hc : s[i]? with
    | none => rfl
    | some c =>
      rw [Option.map_some]
      split_ifs with hodd
      · rw [h i c hc hodd]
      · rfl

theorem raiseAfter_eq_self_iff (s : Bytes) : raiseAfter s = s ↔ RaisedBehindOdd s := by
  have hcstr := raiseAfter_eq_self (nul_not_mem_cstr s)
  rcases cstr_split s with h | ⟨t, h⟩
  · rw [RaisedBehindOdd, ← hcstr, ← h]
  · rw [RaisedBehindOdd, ← hcstr]
    conv_lhs => rw [h, raiseAfter_nul (nul_not_mem_cstr s), List.append_left_inj]

/-- Twice in a row does what once does. -/
def FixedOnce (defaults : DefaultNames) (request : Request) : Prop :=
  (dispatcherFixDefault defaults (dispatcherFixDefault defaults request)).names =
    (dispatcherFixDefault defaults request).names

theorem fixController_raiseFirst (s : Bytes) :
    fixController (raiseFirst s) = raiseAfter (raiseFirst s) := by
  cases s with
  | nil => simp [raiseFirst, upperFirst, fixController, raiseAfter]
  | cons c s =>
    simp [raiseFirst, upperFirst, fixController, toLower_toUpper, toLower_toLower,
      toUpper_toLower, Function.comp_def]

section
variable {fix : Bytes → Bytes} {default : Bytes} (slot : Zval)

/-- Once a default is taken it is treated like any other name. -/
theorem fixName_twice (hi : ∀ s, fix (fix s) = fix s) (hn : ∀ s, fix s = [] → s = []) :
    fixName fix default (fixName fix default slot) = fixName fix default slot ↔
      slot.text? ≠ none ∨ default = [] ∨ fix default = default := by
  cases hslot : slot.text? with
  | none =>
    have hone : fixName fix default slot = .string default := by rw [fixName, hslot]
    rw [hone]
    by_cases hd : default = []
    · simp [hd, fixName, Zval.text?]
    · simp [fixName_string hd, hd]
  | some s =>
    obtain ⟨rfl, hs⟩ := Zval.text?_eq_some.mp hslot
    have hne : fix s ≠ [] := fun h => hs (hn s h)
    simp [fixName_string hs, fixName_string hne, hi]

end

theorem fixedOnce_iff (conf : Table Key Zval) (calls : List DefaultCall) (request : Request) :
    FixedOnce (dispatcherDefaults conf calls) request ↔
      request.controller.text? ≠ none ∨
        RaisedBehindOdd (dispatcherDefaults conf calls).controller := by
  have hd := dispatcherDefaults_configured conf calls
  generalize dispatcherDefaults conf calls = defaults at hd ⊢
  obtain ⟨m, hm⟩ := hd.module
  obtain ⟨c, hc⟩ := hd.controller
  obtain ⟨a, ha⟩ := hd.action
  have hmodule : fixModule defaults.module = defaults.module := by
    rw [hm]
    exact fixModule_idem m
  have haction : fixAction defaults.action = defaults.action := by
    rw [ha]
    exact fixAction_idem a
  have hcontroller : defaults.controller = [] ∨
      fixController defaults.controller = defaults.controller ↔
        RaisedBehindOdd defaults.controller := by
    rw [← raiseAfter_eq_self_iff, hc, fixController_raiseFirst]
    apply or_iff_right_of_imp
    intro h
    rw [h, raiseAfter]
  simp only [FixedOnce, dispatcherFixDefault, Request.names, Names.mk.injEq,
    fixName_twice _ fixModule_idem fixModule_eq_nil,
    fixName_twice _ fixController_idem fixController_eq_nil,
    fixName_twice _ fixAction_idem fixAction_eq_nil, hmodule, haction, hcontroller, or_true,
    true_and, and_true]

/-- The default `Index_sub` is looked for as `Index_Sub` the second time. -/
theorem default_controller_raised_late :
    ¬FixedOnce
      (dispatcherDefaults
        [(.name (lit "application"), .array [(.name (lit "directory"), .string (lit "app"))])]
        [.controller (.string (lit "index_sub"))])
      (freshRequest (lit "/")) := by
  intro h
  have hcontroller := congrArg (fun names => names.controller.string?) h
  revert hcontroller
  decide +kernel

end Yaf
