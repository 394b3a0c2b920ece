import Yaf.Application.Options
import Yaf.Dispatcher.Gate

namespace Yaf
open Base

/-- A name the list of modules can carry. -/
structure ModuleName (s : Bytes) : Prop where
  nonempty : s ≠ []
  nul : NUL ∉ s
  comma : Yaf.comma ∉ s

/-- A configuration with a usable directory that lists these modules. -/
structure ModulesOption (conf : Table Key Zval) (names : List Bytes) : Prop where
  listed : ∃ app, applicationOption conf = .ok app ∧
    Table.find? app (.name (lit "modules")) = some (.string ([comma].intercalate names))
  filled : names ≠ []
  names : ∀ n ∈ names, ModuleName n

/-- What the dispatcher opens with these modules declared is for a module of these names. -/
def Event.OpensOnly (modules names : List Bytes) : Event → Prop
  | .openScript entry directory _ => entry.modules = modules →
      ∃ appDir module, entry.names.module = .string module ∧
        directory = controllersDirectory appDir module (entry.defaultModule == module) ∧
          ∃ n ∈ names, equalsCi n module = true
  | .newController entry _ => entry.modules = modules →
      ∃ module, entry.names.module = .string module ∧ ∃ n ∈ names, equalsCi n module = true
  | _ => True

section
variable {names : List Bytes} {n m : Bytes}

/-- Names joined by commas are cut apart again. -/
theorem strtok_intercalate (hnames : ∀ n ∈ names, ModuleName n) (filled : names ≠ []) :
    strtok comma ([comma].intercalate names) = names := by
  have hnul : NUL ∉ [comma].intercalate names :=
    not_mem_intercalate (by decide) fun n hn => (hnames n hn).nul
  rw [strtok, cstr_of_no_nul hnul,
    List.splitOn_intercalate comma (fun n hn => (hnames n hn).comma) filled, List.filter_eq_self]
  intro n hn
  simpa using (hnames n hn).nonempty

theorem parseModules_intercalate (hnames : ∀ n ∈ names, ModuleName n) (filled : names ≠ []) :
    parseModules ([comma].intercalate names) = some (names.map upperFirst) := by
  have hnul : NUL ∉ [comma].intercalate names :=
    not_mem_intercalate (by decide) fun n hn => (hnames n hn).nul
  rw [parseModules_eq, cstr_of_no_nul hnul, strtok_intercalate hnames filled]

theorem equalsCi_upperFirst : equalsCi (upperFirst n) m = equalsCi n m := by
  unfold equalsCi
  cases n with
  | nil => rfl
  | cons c n => simp [upperFirst, toLower_toUpper]

/-- The declared modules are the names, whatever case they are in. -/
theorem isModuleName_configured :
    applicationIsModuleName (names.map upperFirst) m = names.any (equalsCi · m) := by
  unfold applicationIsModuleName
  rw [List.any_map]
  apply List.any_congr rfl
  intro n
  exact equalsCi_upperFirst

theorem intercalate_ne_nil (hnames : ∀ n ∈ names, ModuleName n) (filled : names ≠ []) :
    [comma].intercalate names ≠ [] := by
  intro h
  have hcut := strtok_intercalate hnames filled
  rw [h, strtok_nil] at hcut
  exact filled hcut.symm

/-- What is parsed of such a configuration declares these modules. -/
theorem parseOption_modules {doubleText : UInt64 → Bytes} {objectText : Nat → Bytes}
    {behind : Bytes} {conf : Table Key Zval} {g g' : Settings} (h : ModulesOption conf names)
    (parsed : g.parseOption doubleText objectText behind conf = some (.ok g')) :
    g'.modules = some (names.map upperFirst) := by
  obtain ⟨app, happ, hmodules⟩ := h.listed
  have hne := intercalate_ne_nil h.names h.filled
  have htext : (Zval.string ([comma].intercalate names)).text? =
      some ([comma].intercalate names) := Zval.text?_eq_some.mpr ⟨rfl, hne⟩
  obtain ⟨app', paths, modules, ini, happ', -, hmods, -, rfl⟩ := Settings.parseOption_ok _ _ parsed
  rw [happ] at happ'
  cases happ'
  rw [modulesOption, hmodules, Option.bind_some, htext] at hmods
  simp only [parseModules_intercalate h.names h.filled] at hmods
  rw [← hmods]

theorem Gated.opensOnly {e : Event} (h : Gated e) : e.OpensOnly (names.map upperFirst) names := by
  have hdeclared : ∀ {declared module : Bytes}, declared ∈ names.map upperFirst →
      equalsCi declared module = true → ∃ n ∈ names, equalsCi n module = true := by
    intro declared module hd hequal
    obtain ⟨n, hn, rfl⟩ := List.mem_map.mp hd
    exact ⟨n, hn, by rw [← hequal, equalsCi_upperFirst]⟩
  cases e with
  | openScript entry directory path =>
    intro hmodules
    obtain ⟨appDir, module, -, hmodule, -, ⟨declared, hd, hequal⟩, hdir, -⟩ := h
    rw [hmodules] at hd
    exact ⟨appDir, module, hmodule, hdir, hdeclared hd hequal⟩
  | newController entry name =>
    intro hmodules
    obtain ⟨module, hmodule, -, declared, hd, hequal⟩ := h
    rw [hmodules] at hd
    exact ⟨module, hmodule, hdeclared hd hequal⟩
  | _ => trivial

end

/-- From the text of `application.modules` to the runs: exactly the names between the commas, in any
case, are modules, and no run opens anything for another one. -/
theorem configured_modules {names : List Bytes} {conf : Table Key Zval} {g g' : Settings}
    {doubleText : UInt64 → Bytes} {objectText : Nat → Bytes} {behind : Bytes}
    (h : ModulesOption conf names)
    (parsed : g.parseOption doubleText objectText behind conf = some (.ok g')) :
    ∃ modules, g'.modules = some modules ∧
      (∀ m, applicationIsModuleName modules m = names.any (equalsCi · m)) ∧
      ∀ {γ : Type} (app : Site → Script γ) (fuel room : Nat) (main : Script γ) (w : World γ),
        ∃ new, (phpRequest app fuel room main w).2.log = w.log ++ new ∧
          ∀ e ∈ new, e.2.OpensOnly modules names := by
  refine ⟨_, parseOption_modules h parsed, fun m => isModuleName_configured, ?_⟩
  intro γ app fuel room main w
  have hruns : Extends Gated w (phpRequest app fuel room main w).2 :=
    phpRequest_within (extends_trail Gated) (fun _ _ => ⟨[], by simp, by simp⟩)
      (fun _ => dispatch_gated) room main w
  obtain ⟨new, hlog, hgated⟩ := hruns
  refine ⟨new, hlog, ?_⟩
  intro e he
  exact (hgated e he).opensOnly

def modulesApp : Table Key Zval :=
  [(.name (lit "directory"), .string (lit "/app/")),
    (.name (lit "modules"), .string (lit "Index,admin"))]

def modulesConf : Table Key Zval := [(.name (lit "application"), .array modulesApp)]

theorem modulesConf_lists : ModulesOption modulesConf [lit "Index", lit "admin"] where
  listed := ⟨modulesApp, rfl, rfl⟩
  filled := by simp
  names := by
    intro n hn
    rcases List.mem_cons.mp hn with rfl | hn
    · exact ⟨by decide, by decide, by decide⟩
    · rw [List.mem_singleton.mp hn]
      exact ⟨by decide, by decide, by decide⟩

theorem configured_modules_two :
    ∃ (g' : Settings) (modules : List Bytes), g'.modules = some modules ∧
      (∀ m, applicationIsModuleName modules m =
        [lit "Index", lit "admin"].any (equalsCi · m)) ∧
      ∀ {γ : Type} (app : Site → Script γ) (fuel room : Nat) (main : Script γ) (w : World γ),
        ∃ new, (phpRequest app fuel room main w).2.log = w.log ++ new ∧
          ∀ e ∈ new, e.2.OpensOnly modules [lit "Index", lit "admin"] := by
  obtain ⟨g', parsed⟩ : ∃ g', (Settings.start YafIni.defaultValue).parseOption (fun _ => [])
      (fun _ => []) [] modulesConf = some (.ok g') := by
    have hmodules : modulesOption modulesApp (lit "Index") = some _ :=
      parseModules_intercalate modulesConf_lists.names modulesConf_lists.filled
    exact ⟨_, Settings.parseOption_eq _ _ rfl rfl hmodules rfl⟩
  exact ⟨g', configured_modules modulesConf_lists parsed⟩

end Yaf
