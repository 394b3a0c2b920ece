import Yaf.Loader
import Yaf.Request

namespace Yaf

/-- The three names of a request. -/
structure Names where
  module : Zval
  controller : Zval
  action : Zval

def Request.names (request : Request) : Names :=
  ⟨request.module, request.controller, request.action⟩

/-- The default names of the dispatcher. -/
structure DefaultNames where
  module : Bytes
  controller : Bytes
  action : Bytes
  deriving DecidableEq, Repr

/-- Raise the letter behind each underscore or backslash, up to the first NUL. The letter that is
raised is not looked at again. -/
def raiseAfter : Bytes → Bytes
  | [] => []
  | c :: s =>
    if c = NUL then c :: s
    else if c = underscore ∨ c = backslash then
      match s with
      | [] => [c]
      | d :: s => if d = NUL then c :: d :: s else c :: toUpper d :: raiseAfter s
    else c :: raiseAfter s

def fixModule (s : Bytes) : Bytes :=
  match s.map toLower with
  | [] => []
  | c :: s => toUpper c :: s

def fixController (s : Bytes) : Bytes :=
  match s.map toLower with
  | [] => []
  | c :: s => raiseAfter (toUpper c :: s)

def fixAction (s : Bytes) : Bytes := s.map toLower

/-- A name that is not a non-empty string gives way to the default, which is taken as it is. -/
def fixName (fix : Bytes → Bytes) (default : Bytes) (slot : Zval) : Zval :=
  match slot.text? with
  | none => .string default
  | some s => .string (fix s)

/-- `yaf_dispatcher_fix_default`. -/
def dispatcherFixDefault (defaults : DefaultNames) (request : Request) : Request :=
  { request with
    module := fixName fixModule defaults.module request.module
    controller := fixName fixController defaults.controller request.controller
    action := fixName fixAction defaults.action request.action }

theorem raiseAfter_sameCi (s : Bytes) : SameCi (raiseAfter s) s := by
  fun_induction raiseAfter s with
  | case1 => rfl
  | case2 => rfl
  | case3 c hc hu => rfl
  | case4 => rfl
  | case5 c hc hu d s hd ih => simp [SameCi, toLower_toUpper, show s.map toLower = _ from ih.symm]
  | case6 c s hc hu ih => exact ih.cons c

/-- Normalising a controller changes the case of its letters only. -/
theorem fixController_sameCi (s : Bytes) : SameCi (fixController s) s := by
  cases s with
  | nil => rfl
  | cons c s =>
    have hraise := raiseAfter_sameCi (toUpper (toLower c) :: s.map toLower)
    refine hraise.trans ?_
    simp [SameCi, toLower_toUpper, toLower_toLower, Function.comp_def]

theorem fixModule_idem (s : Bytes) : fixModule (fixModule s) = fixModule s := by
  have hlower : (fixModule s).map toLower = s.map toLower := by
    cases s with
    | nil => rfl
    | cons c s => simp [fixModule, toLower_toUpper, toLower_toLower, Function.comp_def]
  rw [fixModule, hlower, ← fixModule]

theorem fixController_idem (s : Bytes) : fixController (fixController s) = fixController s := by
  have hlower : (fixController s).map toLower = s.map toLower := fixController_sameCi s
  rw [fixController, hlower, ← fixController]

theorem fixAction_idem (s : Bytes) : fixAction (fixAction s) = fixAction s := by
  simp [fixAction, toLower_toLower, Function.comp_def]

/-- A name in the form `fix` produces. -/
def NormalName (fix : Bytes → Bytes) (s : Bytes) : Prop := s ≠ [] ∧ fix s = s

instance (fix : Bytes → Bytes) (s : Bytes) : Decidable (NormalName fix s) :=
  inferInstanceAs (Decidable (_ ∧ _))

/-- A slot with such a name. -/
def NormalSlot (fix : Bytes → Bytes) (slot : Zval) : Prop :=
  ∃ s, slot = .string s ∧ NormalName fix s

structure DefaultNames.Normal (defaults : DefaultNames) : Prop where
  module : NormalName fixModule defaults.module
  controller : NormalName fixController defaults.controller
  action : NormalName fixAction defaults.action

/-- The three names are non-empty strings in the form `yaf_dispatcher_fix_default` produces. -/
structure Names.Normal (names : Names) : Prop where
  module : NormalSlot fixModule names.module
  controller : NormalSlot fixController names.controller
  action : NormalSlot fixAction names.action

section
variable {fix : Bytes → Bytes} {default : Bytes} {slot : Zval}

theorem fixName_string {s : Bytes} (hs : s ≠ []) :
    fixName fix default (.string s) = .string (fix s) := by
  cases s with
  | nil => exact absurd rfl hs
  | cons c s => rfl

theorem fixName_of_normal (h : NormalSlot fix slot) : fixName fix default slot = slot := by
  obtain ⟨s, rfl, hs, hfix⟩ := h
  rw [fixName_string hs, hfix]

theorem fixName_normal (hd : NormalName fix default) (hn : ∀ s, fix s = [] → s = [])
    (hi : ∀ s, fix (fix s) = fix s) : NormalSlot fix (fixName fix default slot) := by
  unfold fixName
  split
  · exact ⟨default, rfl, hd⟩
  · rename_i s hs
    obtain ⟨-, hne⟩ := Zval.text?_eq_some.mp hs
    exact ⟨fix s, rfl, fun h => hne (hn s h), hi s⟩

end

theorem fixModule_eq_nil (s : Bytes) (h : fixModule s = []) : s = [] := by
  cases s with
  | nil => rfl
  | cons c s => simp [fixModule] at h

theorem fixController_eq_nil (s : Bytes) (h : fixController s = []) : s = [] := by
  have hlower : (fixController s).map toLower = s.map toLower := fixController_sameCi s
  rw [h] at hlower
  simpa using hlower.symm

theorem fixAction_eq_nil (s : Bytes) (h : fixAction s = []) : s = [] := by
  simpa [fixAction] using h

/-- With normal defaults the names are normal, whatever they were. -/
theorem dispatcherFixDefault_normal {defaults : DefaultNames} (hd : defaults.Normal)
    (request : Request) : (dispatcherFixDefault defaults request).names.Normal where
  module := fixName_normal hd.module fixModule_eq_nil fixModule_idem
  controller := fixName_normal hd.controller fixController_eq_nil fixController_idem
  action := fixName_normal hd.action fixAction_eq_nil fixAction_idem

/-- Normal names stay as they are. -/
theorem dispatcherFixDefault_of_normal {defaults : DefaultNames} {request : Request}
    (h : request.names.Normal) : dispatcherFixDefault defaults request = request := by
  have hm : fixName fixModule defaults.module request.module = request.module :=
    fixName_of_normal h.module
  have hc : fixName fixController defaults.controller request.controller = request.controller :=
    fixName_of_normal h.controller
  have ha : fixName fixAction defaults.action request.action = request.action :=
    fixName_of_normal h.action
  rw [dispatcherFixDefault, hm, hc, ha]

end Yaf
