import Yaf.Dispatcher.Names
import Yaf.Router

namespace Yaf
open Base

/-- The directory `yaf_dispatcher_get_controller` looks in. -/
def controllersDirectory (appDir module : Bytes) (defModule : Bool) : Bytes :=
  if defModule then cstr appDir ++ slash :: lit "controllers"
  else
    cstr appDir ++ slash :: lit "modules" ++ slash :: cstr module ++ slash :: lit "controllers"

/-- Read segment by segment, the path goes down from the directory and never up. -/
def StaysInside (directory path : Bytes) : Prop :=
  ∃ rest, path = directory ++ slash :: rest ∧ lit ".." ∉ rest.splitOn slash

/-- A name that brings a segment of two dots into the path, by a slash or by an underscore. -/
def ClimbsOut (ext name : Bytes) : Prop := lit ".." ∈ (asPath name ++ dot :: ext).splitOn slash

instance (ext name : Bytes) : Decidable (ClimbsOut ext name) :=
  inferInstanceAs (Decidable (_ ∈ _))

/-- The controller the dispatcher goes by before it is normalised. -/
def controllerText (defaults : DefaultNames) (slot : Zval) : Bytes :=
  slot.text?.getD defaults.controller

theorem toLower_underscore (c : UInt8) : toLower c = underscore ↔ c = underscore :=
  toLower_eq_iff (by decide) c

theorem toLower_nul (c : UInt8) : toLower c = NUL ↔ c = NUL := toLower_eq_iff (by decide) c

theorem map_toLower_dotdot (s : Bytes) : s.map toLower = lit ".." ↔ s = lit ".." := by
  have hdot : ∀ c, toLower c = dot ↔ c = dot := toLower_eq_iff (by decide)
  rw [show lit ".." = [dot, dot] from by decide]
  cases s with
  | nil => simp
  | cons c s =>
    cases s with
    | nil => simp
    | cons d s => simp [hdot]

/-- The case of letters does not make a segment of two dots. -/
theorem SameCi.dotdot {s t : Bytes} (h : SameCi s t) :
    lit ".." ∈ s.splitOn slash ↔ lit ".." ∈ t.splitOn slash := by
  have hlower : ∀ x : Bytes,
      lit ".." ∈ x.splitOn slash ↔ lit ".." ∈ (x.map toLower).splitOn slash := by
    intro x
    rw [splitOn_map toLower_slash, List.mem_map]
    constructor
    · intro hm
      exact ⟨_, hm, (map_toLower_dotdot _).mpr rfl⟩
    · rintro ⟨y, hy, he⟩
      exact (map_toLower_dotdot y).mp he ▸ hy
  rw [hlower s, hlower t, h]

theorem cstr_map_toLower (s : Bytes) : cstr (s.map toLower) = (cstr s).map toLower := by
  induction s with
  | nil => rfl
  | cons c s ih =>
    unfold cstr at ih ⊢
    by_cases hc : c = NUL
    · simp [hc, (toLower_nul NUL).mpr rfl]
    · simp [hc, (toLower_nul c).not.mpr hc, ih]

theorem asPath_map_toLower (s : Bytes) : asPath (s.map toLower) = (asPath s).map toLower := by
  cases s with
  | nil => rfl
  | cons c s =>
    have hmem : underscore ∈ (cstr s).map toLower ↔ underscore ∈ cstr s := by
      simp [List.mem_map, toLower_underscore]
    rw [List.map_cons, asPath, asPath, cstr_map_toLower]
    simp only [hmem, toLower_nul]
    by_cases hc : c = NUL ∧ underscore ∉ cstr s
    · rw [if_pos hc, if_pos hc, List.map_nil]
    · rw [if_neg hc, if_neg hc, List.map_cons, List.map_map, List.map_map]
      congr 1
      apply List.map_congr_left
      intro d _
      simp only [Function.comp_apply, toLower_underscore]
      split
      · exact ((toLower_slash slash).mpr rfl).symm
      · rfl

theorem SameCi.asPath {s t : Bytes} (h : SameCi s t) : SameCi (asPath s) (asPath t) := by
  rw [SameCi, ← asPath_map_toLower, ← asPath_map_toLower, h]

theorem SameCi.climbsOut {s t : Bytes} (h : SameCi s t) (ext : Bytes) :
    ClimbsOut ext s ↔ ClimbsOut ext t :=
  (h.asPath.append (SameCi.refl (dot :: ext))).dotdot

/-- The imported path stays inside unless the name climbs out. -/
theorem autoloadPath_stays_inside (lowcasePath : Bool) (ext directory name : Bytes) :
    StaysInside directory (autoloadPath lowcasePath ext directory name) ↔
      ¬ClimbsOut ext name := by
  obtain ⟨x, hx, hpath⟩ := autoloadPath_asPath lowcasePath ext directory name
  have hdots := (hx.append (SameCi.refl (dot :: ext))).dotdot
  rw [ClimbsOut, ← hdots, hpath]
  constructor
  · rintro ⟨rest, he, hrest⟩
    have he := List.append_cancel_left he
    rw [List.cons.injEq] at he
    rwa [he.2]
  · intro hno
    exact ⟨_, rfl, hno⟩

/-- A default controller is taken as it is, any other one is normalised. -/
theorem fixName_controller (defaults : DefaultNames) (slot : Zval) :
    ∃ c, fixName fixController defaults.controller slot = .string c ∧
      SameCi c (controllerText defaults slot) := by
  unfold fixName controllerText
  cases slot.text? with
  | none => exact ⟨_, rfl, rfl⟩
  | some s => exact ⟨_, rfl, fixController_sameCi s⟩

theorem fixName_module (defaults : DefaultNames) (slot : Zval) :
    ∃ m, fixName fixModule defaults.module slot = .string m := by
  unfold fixName
  cases slot.text? <;> exact ⟨_, rfl⟩

/-- Whichever built-in route picked the controller, its script is looked for inside the
controllers directory exactly when the text it was picked from does not climb out. -/
theorem controller_script_stays_inside {env : RouteEnv} {route : BuiltinRoute}
    {request r : Request} {ok : Bool} (defaults : DefaultNames) (lowcasePath : Bool)
    (ext appDir : Bytes) (h : route.route env request = some (ok, r)) :
    ∃ m c, (dispatcherFixDefault defaults r).module = .string m ∧
      (dispatcherFixDefault defaults r).controller = .string c ∧
      (StaysInside (controllersDirectory appDir m (defaults.module == m))
          (autoloadPath lowcasePath ext
            (controllersDirectory appDir m (defaults.module == m)) c) ↔
        ¬ClimbsOut ext (controllerText defaults (route.pickedController env request))) := by
  obtain ⟨m, hm⟩ := fixName_module defaults r.module
  obtain ⟨c, hc, hsame⟩ := fixName_controller defaults r.controller
  refine ⟨m, c, hm, hc, ?_⟩
  rw [autoloadPath_stays_inside, hsame.climbsOut, BuiltinRoute.route_controller h]

def sampleEnv : RouteEnv := ⟨[lit "Index"], false, [], fun _ _ => none⟩

def sampleDefaults : DefaultNames := ⟨lit "Index", lit "Index", lit "index"⟩

def sampleRequest : Request := freshRequest (lit "/admin_users/list")

theorem controller_script_stays_inside_admin :
    let r := (routeStaticRoute [lit "Index"] false sampleRequest).2
    ∃ m c, (dispatcherFixDefault sampleDefaults r).module = .string m ∧
      (dispatcherFixDefault sampleDefaults r).controller = .string c ∧
      (StaysInside (controllersDirectory (lit "app") m (sampleDefaults.module == m))
          (autoloadPath false (lit "php")
            (controllersDirectory (lit "app") m (sampleDefaults.module == m)) c) ↔
        ¬ClimbsOut (lit "php") (controllerText sampleDefaults
          (BuiltinRoute.static.pickedController sampleEnv sampleRequest))) := by
  have h : BuiltinRoute.static.route sampleEnv sampleRequest =
      some (true, (routeStaticRoute [lit "Index"] false sampleRequest).2) := rfl
  exact controller_script_stays_inside sampleDefaults false (lit "php") (lit "app") h

/-- `/.._admin/index` opens `app/controllers/../Admin.php`. -/
theorem static_uri_climbs_out :
    let r := (routeStaticRoute [lit "Index"] false (freshRequest (lit "/.._admin/index"))).2
    (dispatcherFixDefault sampleDefaults r).module = .string (lit "Index") ∧
      (dispatcherFixDefault sampleDefaults r).controller = .string (lit ".._Admin") ∧
      autoloadPath false (lit "php") (controllersDirectory (lit "app") (lit "Index") true)
        (lit ".._Admin") = lit "app/controllers/../Admin.php" ∧
      ¬StaysInside (controllersDirectory (lit "app") (lit "Index") true)
        (autoloadPath false (lit "php") (controllersDirectory (lit "app") (lit "Index") true)
          (lit ".._Admin")) := by
  intro r
  have hm : (dispatcherFixDefault sampleDefaults r).module.text? = some (lit "Index") := by
    decide +kernel
  have hc : (dispatcherFixDefault sampleDefaults r).controller.text? = some (lit ".._Admin") := by
    decide +kernel
  have hpath : autoloadPath false (lit "php")
      (controllersDirectory (lit "app") (lit "Index") true) (lit ".._Admin") =
        lit "app/controllers/../Admin.php" := by
    decide +kernel
  have hclimbs : ClimbsOut (lit "php") (lit ".._Admin") := by
    decide +kernel
  exact ⟨(Zval.text?_eq_some.mp hm).1, (Zval.text?_eq_some.mp hc).1, hpath,
    fun hin => (autoloadPath_stays_inside _ _ _ _).mp hin hclimbs⟩

end Yaf
