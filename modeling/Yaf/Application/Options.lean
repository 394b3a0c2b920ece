import Yaf.Dispatcher.Defaults
import Yaf.Dispatcher.Dispatch
import Yaf.Loader.LibraryPath
import Yaf.Php.Ini
import Yaf.Php.StrtokR

namespace Yaf
open Base

/-- The globals of the extension. -/
structure Settings where
  paths : PathGlobals
  defaults : DefaultNames
  throwException : Bool
  catchException : Bool
  defaultRoute : Option (Table Key Zval)
  modules : Option (List Bytes)
  viewDirectory : Option Bytes
  inException : Bool
  ini : Ini

/-- The globals as a request finds them, over these settings. -/
def Settings.start (base : YafIni → Bytes) : Settings :=
  ⟨initialPaths, initialDefaults, true, false, none, none, none, false, Ini.fresh base⟩

/-- `zval_get_string`. How a double is written and what an object answers is not decided here. -/
def zvalGetString (doubleText : UInt64 → Bytes) (objectText : Nat → Bytes) : Zval → Bytes
  | .null => []
  | .bool false => []
  | .bool true => lit "1"
  | .long n => longText n
  | .double bits => doubleText bits
  | .string s => s
  | .array _ => lit "Array"
  | .object handle => objectText handle

/-- The loop over the names of `modules`, with the name as the last call left it. `none` stands for
an access outside the copy, or for no end in time. -/
def parseModulesLoop : Nat → Tokenizer → Option (List Bytes)
  | 0, _ => none
  | fuel + 1, t =>
    match t.token with
    | none => some []
    | some seg => do
      let s ← Buffer.text? NUL t.buf seg
      let next ← phpStrtokR [comma] t.buf none t.last
      let modules ← parseModulesLoop fuel next
      pure (if s.length ≠ 0 then upperFirst s :: modules else modules)

/-- The names of `modules`, in its copy. -/
def parseModules (val : Bytes) : Option (List Bytes) := do
  let copy := val ++ [NUL]
  let t ← phpStrtokR [comma] copy (some 0) none
  parseModulesLoop (copy.length + 1) t

section
variable (doubleText : UInt64 → Bytes) (objectText : Nat → Bytes)

/-- The settings of `system`: a name is cut to its buffer. An integer key has no name. -/
def parseSystem (ini : Ini) : Table Key Zval → Option Ini
  | [] => some ini
  | (.name key, value) :: system =>
    let name := (lit "yaf." ++ cstr key).take 127
    let val := zvalGetString doubleText objectText value
    parseSystem (ini.zendAlterIniEntry name val).2 system
  | (.index _, _) :: _ => none

/-- The entries of `dispatcher`, where it is an array. -/
def dispatcherOptions (app : Table Key Zval) : Table Key Zval :=
  match Table.find? app (.name (lit "dispatcher")) with
  | some (.array options) => options
  | _ => []

def flagOption (options : Table Key Zval) (name : Bytes) (flag : Bool) : Bool :=
  ((Table.find? options (.name name)).map Zval.isTrue).getD flag

def routeOption (options : Table Key Zval) (route : Option (Table Key Zval)) :
    Option (Table Key Zval) :=
  match Table.find? options (.name (lit "defaultRoute")) with
  | some (.array route) => some route
  | _ => route

/-- The declared modules: without a text for them there is the default module alone. -/
def modulesOption (app : Table Key Zval) (defaultModule : Bytes) : Option (List Bytes) :=
  match (Table.find? app (.name (lit "modules"))).bind Zval.text? with
  | some val => parseModules val
  | none => some [defaultModule]

def systemOption (app : Table Key Zval) (ini : Ini) : Option Ini :=
  match Table.find? app (.name (lit "system")) with
  | some (.array system) => parseSystem doubleText objectText ini system
  | _ => some ini

/-- `yaf_application_parse_option`, with the error it raises when it fails. `none` is a crash. -/
def Settings.parseOption (behind : Bytes) (conf : Table Key Zval) (g : Settings) :
    Option (Except Trigger Settings) :=
  match applicationOption conf, applicationParsePaths behind conf g.paths with
  | .error t, _ => some (.error t)
  | _, .error t => some (.error t)
  | .ok app, .ok paths => do
    let defaults := applicationParseOption conf g.defaults
    let options := dispatcherOptions app
    let modules ← modulesOption app defaults.module
    let ini ← systemOption doubleText objectText app g.ini
    some (.ok { g with
      paths, defaults, ini
      modules := some modules
      throwException := flagOption options (lit "throwException") g.throwException
      catchException := flagOption options (lit "catchException") g.catchException
      defaultRoute := routeOption options g.defaultRoute })

/-- A configuration whose parts are usable is parsed. -/
theorem Settings.parseOption_eq {behind : Bytes} {conf app : Table Key Zval} {g : Settings}
    {paths : PathGlobals} {modules : List Bytes} {ini : Ini}
    (happ : applicationOption conf = .ok app)
    (hpaths : applicationParsePaths behind conf g.paths = .ok paths)
    (hmodules : modulesOption app (applicationParseOption conf g.defaults).module = some modules)
    (hini : systemOption doubleText objectText app g.ini = some ini) :
    g.parseOption doubleText objectText behind conf = some (.ok { g with
      paths, ini
      defaults := applicationParseOption conf g.defaults
      modules := some modules
      throwException := flagOption (dispatcherOptions app) (lit "throwException") g.throwException
      catchException := flagOption (dispatcherOptions app) (lit "catchException") g.catchException
      defaultRoute := routeOption (dispatcherOptions app) g.defaultRoute }) := by
  unfold Settings.parseOption
  rw [happ, hpaths]
  simp only [hmodules, hini, Option.bind_eq_bind, Option.bind_some]

/-- What was parsed when it did not fail. -/
theorem Settings.parseOption_ok {behind : Bytes} {conf : Table Key Zval} {g g' : Settings}
    (h : g.parseOption doubleText objectText behind conf = some (.ok g')) :
    ∃ app paths modules ini, applicationOption conf = .ok app ∧
      applicationParsePaths behind conf g.paths = .ok paths ∧
      modulesOption app (applicationParseOption conf g.defaults).module = some modules ∧
      systemOption doubleText objectText app g.ini = some ini ∧
      g' = { g with
        paths, ini
        defaults := applicationParseOption conf g.defaults
        modules := some modules
        throwException :=
          flagOption (dispatcherOptions app) (lit "throwException") g.throwException
        catchException :=
          flagOption (dispatcherOptions app) (lit "catchException") g.catchException
        defaultRoute := routeOption (dispatcherOptions app) g.defaultRoute } := by
  unfold Settings.parseOption at h
  cases happ : applicationOption conf with
  | error t =>
    rw [happ] at h
    cases h
  | ok app =>
    cases hpaths : applicationParsePaths behind conf g.paths with
    | error t =>
      rw [happ, hpaths] at h
      cases h
    | ok paths =>
      rw [happ, hpaths] at h
      obtain ⟨modules, hmodules, h⟩ := Option.bind_eq_some_iff.mp h
      obtain ⟨ini, hini, h⟩ := Option.bind_eq_some_iff.mp h
      cases h
      exact ⟨app, paths, modules, ini, rfl, rfl, hmodules, hini, rfl⟩

end

section modules
variable {front buf : Bytes} {last : Option Nat}

theorem parseModulesLoop_tokens {toks : List Bytes} (hfree : ∀ t ∈ toks, t ≠ [] ∧ NUL ∉ t)
    {fuel : Nat} {t : Tokenizer} (h : Awaits comma front buf last toks)
    (hcall : phpStrtokR [comma] buf none last = some t) (hfuel : toks.length < fuel) :
    parseModulesLoop fuel t = some (toks.map upperFirst) := by
  induction toks generalizing front buf last fuel t with
  | nil =>
    obtain ⟨fuel, rfl⟩ := Nat.exists_eq_succ_of_ne_zero (by omega : fuel ≠ 0)
    rw [phpStrtokR_nil (by decide) h] at hcall
    cases hcall
    rfl
  | cons tok toks ih =>
    obtain ⟨fuel, rfl⟩ := Nat.exists_eq_succ_of_ne_zero (by omega : fuel ≠ 0)
    obtain ⟨skipped, buf', last', htok, hawaits⟩ := phpStrtokR_cons (by decide) h
    rw [hcall] at htok
    obtain rfl := Option.some.inj htok
    obtain ⟨hne, hnul⟩ := hfree tok List.mem_cons_self
    obtain ⟨next, hnext⟩ := phpStrtokR_inside (by decide) hawaits
    have htext : Buffer.text? NUL buf' (front ++ skipped).length = some tok := by
      obtain ⟨post, rfl⟩ := hawaits.1
      simpa using Buffer.text?_middle hnul (front ++ skipped) post
    have hrest := ih (fun t ht => hfree t (List.mem_cons_of_mem _ ht)) hawaits hnext
      (by simpa using hfuel : toks.length < fuel)
    rw [parseModulesLoop]
    dsimp only
    rw [htext, Option.bind_eq_bind, Option.bind_some, hnext]
    dsimp only [Option.bind_eq_bind, Option.bind_some]
    rw [hrest]
    simp [hne]

/-- The walk over the copy ends with the names up to a NUL, their first letters raised. -/
theorem parseModules_eq (val : Bytes) :
    parseModules val = some ((strtok comma (cstr val)).map upperFirst) := by
  have hawaits : Awaits comma [] (val ++ [NUL]) (some 0) (strtok comma (cstr val)) := by
    refine ⟨List.nil_prefix, Or.inr ?_⟩
    have hcut := tokenCut_strtok (d := comma) (by decide) (nul_not_mem_cstr val)
    rcases cstr_split val with h | ⟨t, h⟩
    · exact ⟨cstr val, [], nul_not_mem_cstr val, by rw [← h]; rfl, rfl, hcut⟩
    · refine ⟨cstr val, t ++ [NUL], nul_not_mem_cstr val, ?_, rfl, hcut⟩
      conv_lhs => rw [h]
      simp
  obtain ⟨t, ht⟩ := phpStrtokR_inside (by decide) hawaits
  have hstart : phpStrtokR [comma] (val ++ [NUL]) (some 0) none = some t := ht
  have hlen : (strtok comma (cstr val)).length < (val ++ [NUL]).length + 1 := by
    have hfilter : (strtok comma (cstr val)).length ≤ ((cstr (cstr val)).splitOn comma).length :=
      List.length_filter_le _ _
    have hpieces := length_splitOn_le comma (cstr (cstr val))
    have hcut : (cstr (cstr val)).length ≤ (cstr val).length :=
      (List.takeWhile_prefix _).length_le
    have hcut' : (cstr val).length ≤ val.length := (List.takeWhile_prefix _).length_le
    rw [List.length_append, List.length_singleton]
    omega
  rw [parseModules, hstart, Option.bind_eq_bind, Option.bind_some]
  have hfree : ∀ s ∈ strtok comma (cstr val), s ≠ [] ∧ NUL ∉ s := fun s hs =>
    ⟨(mem_strtok hs).1, (mem_strtok hs).2.1⟩
  exact parseModulesLoop_tokens hfree hawaits ht hlen

end modules
end Yaf
