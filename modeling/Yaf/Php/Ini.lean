import Yaf.Php.Numeric

namespace Yaf

/-- The settings the extension registers. -/
inductive YafIni where
  | library
  | actionPrefer
  | lowcasePath
  | useSplAutoload
  | forwardLimit
  | nameSuffix
  | nameSeparator
  | stCompatible
  | environ
  | useNamespace
  deriving DecidableEq, Repr

namespace YafIni

def all : List YafIni :=
  [library, actionPrefer, lowcasePath, useSplAutoload, forwardLimit, nameSuffix, nameSeparator,
    stCompatible, environ, useNamespace]

def name : YafIni → Bytes
  | library => lit "yaf.library"
  | actionPrefer => lit "yaf.action_prefer"
  | lowcasePath => lit "yaf.lowcase_path"
  | useSplAutoload => lit "yaf.use_spl_autoload"
  | forwardLimit => lit "yaf.forward_limit"
  | nameSuffix => lit "yaf.name_suffix"
  | nameSeparator => lit "yaf.name_separator"
  | stCompatible => lit "yaf.st_compatible"
  | environ => lit "yaf.environ"
  | useNamespace => lit "yaf.use_namespace"

def defaultValue : YafIni → Bytes
  | library => []
  | actionPrefer => lit "0"
  | lowcasePath => lit "0"
  | useSplAutoload => lit "0"
  | forwardLimit => lit "5"
  | nameSuffix => lit "1"
  | nameSeparator => []
  | stCompatible => lit "0"
  | environ => lit "product"
  | useNamespace => lit "0"

/-- `PHP_INI_SYSTEM` for the last two and `PHP_INI_ALL` for the others: who may change it. -/
def isUser : YafIni → Bool
  | environ => false
  | useNamespace => false
  | _ => true

def ofName (s : Bytes) : Option YafIni := all.find? fun n => n.name == s

end YafIni

/-- The globals that follow the settings. -/
structure IniGlobals where
  globalLibrary : Bytes
  actionPrefer : Bool
  lowcasePath : Bool
  useSplAutoload : Bool
  forwardLimit : Int
  nameSuffix : Bool
  nameSeparator : Bytes
  stCompatible : Bool
  environName : Bytes
  useNamespace : Bool
  deriving DecidableEq, Repr

/-- `memset` before the settings are registered. -/
def zeroGlobals : IniGlobals := ⟨[], false, false, false, 0, false, [], false, [], false⟩

/-- `OnUpdateBool`. The number is cut to a byte. -/
def onUpdateBool (value : Bytes) : Bool :=
  equalsCi value (lit "on") || equalsCi value (lit "yes") || equalsCi value (lit "true") ||
    atoi value % 256 != 0

def digitValue (c : UInt8) : Nat :=
  if isDigit c then c.toNat - 48
  else if 97 ≤ toLower c && toLower c ≤ 122 then (toLower c).toNat - 87
  else 36

/-- `strtol` in base 0. -/
def strtol (s : Bytes) : Int :=
  let (neg, ds) := signDigits s
  let (base, ds) :=
    if ds.head? = some 48 then
      if (ds.tail.head?.map toLower) = some 120 then (16, ds.drop 2) else (8, ds)
    else (10, ds)
  let n : Int := (ds.takeWhile fun c => digitValue c < base).foldl
    (fun n c => n * base + digitValue c) 0
  if neg then max (-n) (-LONG_MAX - 1) else min n LONG_MAX

/-- `zend_atol`, on any text: what it ends in may be a unit. -/
def zendAtolUnit (s : Bytes) : Int :=
  let unit : Int := match s.getLast?.map toLower with
    | some 103 => 1024 ^ 3
    | some 109 => 1024 ^ 2
    | some 107 => 1024
    | _ => 1
  Int.bmod (strtol s * unit) (2 ^ 64)

/-- What a setting does to its global; `OnUpdateLongGEZero` takes no negative number. -/
def onModify (n : YafIni) (value : Bytes) (g : IniGlobals) : Option IniGlobals :=
  match n with
  | .library => some { g with globalLibrary := value }
  | .actionPrefer => some { g with actionPrefer := onUpdateBool value }
  | .lowcasePath => some { g with lowcasePath := onUpdateBool value }
  | .useSplAutoload => some { g with useSplAutoload := onUpdateBool value }
  | .forwardLimit =>
    if zendAtolUnit value < 0 then none else some { g with forwardLimit := zendAtolUnit value }
  | .nameSuffix => some { g with nameSuffix := onUpdateBool value }
  | .nameSeparator => some { g with nameSeparator := value }
  | .stCompatible => some { g with stCompatible := onUpdateBool value }
  | .environ => some { g with environName := value }
  | .useNamespace => some { g with useNamespace := onUpdateBool value }

/-- `zend_ini_entry`, as far as it changes. -/
structure IniEntry where
  value : Bytes
  origValue : Option Bytes
  modified : Bool
  deriving DecidableEq, Repr

/-- The settings with the globals that follow them, and the list of those changed in the request. -/
structure Ini where
  entries : YafIni → IniEntry
  modifiedDirectives : List YafIni
  globals : IniGlobals

namespace Ini

/-- `zend_register_ini_entries`, for one setting. `configured` is what the configuration of the
engine has for it. -/
def registerEntry (configured : YafIni → Option Bytes) (ini : Ini) (n : YafIni) : Ini :=
  match (configured n).bind fun value => (onModify n value ini.globals).map (value, ·) with
  | some (value, globals) =>
    { ini with
      entries := Function.update ini.entries n ⟨value, none, false⟩
      globals }
  | none =>
    { ini with
      entries := Function.update ini.entries n ⟨n.defaultValue, none, false⟩
      globals := (onModify n n.defaultValue ini.globals).getD ini.globals }

def register (configured : YafIni → Option Bytes) : Ini :=
  YafIni.all.foldl (registerEntry configured) ⟨fun _ => ⟨[], none, false⟩, [], zeroGlobals⟩

/-- `zend_alter_ini_entry`, by code of the request. -/
def zendAlterIniEntry (ini : Ini) (name value : Bytes) : Bool × Ini :=
  match YafIni.ofName name with
  | none => (false, ini)
  | some n =>
    if !n.isUser then (false, ini)
    else
      let entry := ini.entries n
      -- what the value was is kept at the first change
      let kept := if entry.modified then entry else { entry with origValue := some entry.value }
      let modifiedDirectives :=
        if entry.modified then ini.modifiedDirectives else ini.modifiedDirectives ++ [n]
      match onModify n value ini.globals with
      | some globals =>
        (true, ⟨Function.update ini.entries n { kept with value, modified := true },
          modifiedDirectives, globals⟩)
      | none =>
        (false, ⟨Function.update ini.entries n { kept with modified := true }, modifiedDirectives,
          ini.globals⟩)

/-- What is refused changes no value and no global. -/
theorem zendAlterIniEntry_refused {ini : Ini} {name value : Bytes}
    (h : (ini.zendAlterIniEntry name value).1 = false) :
    (ini.zendAlterIniEntry name value).2.globals = ini.globals ∧
      ∀ n, ((ini.zendAlterIniEntry name value).2.entries n).value = (ini.entries n).value := by
  cases hm : YafIni.ofName name with
  | none => simp [zendAlterIniEntry, hm]
  | some m =>
    cases hu : m.isUser with
    | false => simp [zendAlterIniEntry, hm, hu]
    | true =>
      cases ht : onModify m value ini.globals with
      | some g => simp [zendAlterIniEntry, hm, hu, ht] at h
      | none =>
        refine ⟨by simp [zendAlterIniEntry, hm, hu, ht], ?_⟩
        intro n
        by_cases hn : n = m
        · subst hn
          simp only [zendAlterIniEntry, hm, hu, ht, Function.update_self, Bool.not_true,
            Bool.false_eq_true, if_false]
          split <;> rfl
        · simp [zendAlterIniEntry, hm, hu, ht, Function.update_of_ne hn]

/-- `zend_restore_ini_entry_cb`, with whether it restored. At the end of a request it restores in
any case. -/
def restoreEntry (ini : Ini) (n : YafIni) (runtime : Bool) : Bool × Ini :=
  let entry := ini.entries n
  if !entry.modified then (true, ini)
  else
    let orig := entry.origValue.getD []
    let restored := onModify n orig ini.globals
    if runtime && restored.isNone then (false, ini)
    else
      (true, { ini with
        entries := Function.update ini.entries n ⟨orig, none, false⟩
        globals := restored.getD ini.globals })

/-- `ini_restore`, by `zend_restore_ini_entry`. -/
def zendRestoreIniEntry (ini : Ini) (name : Bytes) : Ini :=
  match YafIni.ofName name with
  | none => ini
  | some n =>
    if !n.isUser then ini
    else
      let r := ini.restoreEntry n true
      if r.1 then { r.2 with modifiedDirectives := r.2.modifiedDirectives.filter (· ≠ n) } else r.2

def restoreAll (ini : Ini) (ns : List YafIni) : Ini :=
  ns.foldl (fun ini n => (ini.restoreEntry n false).2) ini

/-- `zend_ini_deactivate` -/
def zendIniDeactivate (ini : Ini) : Ini :=
  { ini.restoreAll ini.modifiedDirectives with modifiedDirectives := [] }

end Ini

section onModify
variable {n m : YafIni} {v u : Bytes} {g g' : IniGlobals}

theorem onModify_again (h : onModify n v g = some g') : onModify n v g' = some g' := by
  cases n with
  | forwardLimit =>
    unfold onModify at h ⊢
    simp only at h ⊢
    split at h
    · cases h
    · rename_i hv
      cases h
      rw [if_neg hv]
  | _ =>
    cases h
    rfl

/-- A setting changes no other one's global. -/
theorem onModify_other (hne : n ≠ m) (h : onModify n v g = some g') (hm : onModify m u g = some g) :
    onModify m u g' = some g' := by
  cases n <;> cases m <;> simp_all [onModify] <;> grind

/-- Whether a value is taken does not depend on the globals. -/
theorem onModify_isSome (n : YafIni) (v : Bytes) (g g' : IniGlobals) :
    (onModify n v g).isSome = (onModify n v g').isSome := by
  cases n with
  | forwardLimit =>
    unfold onModify
    simp only
    split <;> rfl
  | _ => rfl

/-- What a forward limit that is taken leaves. -/
theorem forwardLimit_onModify (h : onModify .forwardLimit v g = some g') :
    g' = { g with forwardLimit := zendAtolUnit v } := by
  unfold onModify at h
  simp only at h
  split at h
  · cases h
  · exact (Option.some.inj h).symm

/-- The globals these values give. -/
def iniGlobals (value : YafIni → Bytes) : IniGlobals where
  globalLibrary := value .library
  actionPrefer := onUpdateBool (value .actionPrefer)
  lowcasePath := onUpdateBool (value .lowcasePath)
  useSplAutoload := onUpdateBool (value .useSplAutoload)
  forwardLimit := zendAtolUnit (value .forwardLimit)
  nameSuffix := onUpdateBool (value .nameSuffix)
  nameSeparator := value .nameSeparator
  stCompatible := onUpdateBool (value .stCompatible)
  environName := value .environ
  useNamespace := onUpdateBool (value .useNamespace)

/-- Globals that no setting changes any more are those of its values. -/
theorem eq_iniGlobals {value : YafIni → Bytes} (h : ∀ n, onModify n (value n) g = some g) :
    g = iniGlobals value := by
  have hlimit := congrArg IniGlobals.forwardLimit (forwardLimit_onModify (h .forwardLimit))
  have hlibrary := congrArg IniGlobals.globalLibrary (Option.some.inj (h .library))
  have hprefer := congrArg IniGlobals.actionPrefer (Option.some.inj (h .actionPrefer))
  have hlowcase := congrArg IniGlobals.lowcasePath (Option.some.inj (h .lowcasePath))
  have hspl := congrArg IniGlobals.useSplAutoload (Option.some.inj (h .useSplAutoload))
  have hsuffix := congrArg IniGlobals.nameSuffix (Option.some.inj (h .nameSuffix))
  have hseparator := congrArg IniGlobals.nameSeparator (Option.some.inj (h .nameSeparator))
  have hst := congrArg IniGlobals.stCompatible (Option.some.inj (h .stCompatible))
  have henviron := congrArg IniGlobals.environName (Option.some.inj (h .environ))
  have hnamespace := congrArg IniGlobals.useNamespace (Option.some.inj (h .useNamespace))
  cases g
  unfold iniGlobals
  simp only at *
  simp only [hlimit, ← hlibrary, ← hprefer, ← hlowcase, ← hspl, ← hsuffix, ← hseparator, ← hst,
    ← henviron, ← hnamespace]

end onModify

namespace Ini

/-- What every run of a request keeps: a setting that was not changed has its base value, one that
was remembers it and is listed, and the globals follow the settings. -/
structure Sound (base : YafIni → Bytes) (ini : Ini) : Prop where
  fits : ∀ n, (onModify n (base n) ini.globals).isSome
  unmodified : ∀ n, (ini.entries n).modified = false → ini.entries n = ⟨base n, none, false⟩
  modified : ∀ n, (ini.entries n).modified = true →
    (ini.entries n).origValue = some (base n) ∧ n ∈ ini.modifiedDirectives
  follows : ∀ n, onModify n (ini.entries n).value ini.globals = some ini.globals
  user : ∀ n, (ini.entries n).modified = true → n.isUser = true

/-- The settings as a request finds them. -/
def fresh (base : YafIni → Bytes) : Ini := ⟨fun n => ⟨base n, none, false⟩, [], iniGlobals base⟩

section sound
variable {base : YafIni → Bytes} {ini : Ini} {n : YafIni} {value : Bytes} {g : IniGlobals}

/-- The step lemma: an entry takes a value with its global, and remembers its base value. -/
theorem Sound.write (h : ini.Sound base) {entry : IniEntry} {directives : List YafIni}
    (taken : onModify n entry.value ini.globals = some g)
    (unmodified : entry.modified = false → entry = ⟨base n, none, false⟩)
    (modified : entry.modified = true → entry.origValue = some (base n) ∧ n ∈ directives)
    (listed : ∀ m, m ≠ n → m ∈ ini.modifiedDirectives → m ∈ directives)
    (user : entry.modified = true → n.isUser = true) :
    Sound base ⟨Function.update ini.entries n entry, directives, g⟩ := by
  refine ⟨?_, ?_, ?_, ?_, ?_⟩
  · intro m
    rw [onModify_isSome m _ _ ini.globals]
    exact h.fits m
  · intro m hm
    by_cases hmn : m = n
    · subst hmn
      simp only [Function.update_self] at hm ⊢
      exact unmodified hm
    · simp only [Function.update_of_ne hmn] at hm ⊢
      exact h.unmodified m hm
  · intro m hm
    by_cases hmn : m = n
    · subst hmn
      simp only [Function.update_self] at hm ⊢
      exact modified hm
    · simp only [Function.update_of_ne hmn] at hm ⊢
      obtain ⟨horig, hmem⟩ := h.modified m hm
      exact ⟨horig, listed m hmn hmem⟩
  · intro m
    by_cases hmn : m = n
    · subst hmn
      simp only [Function.update_self]
      exact onModify_again taken
    · simp only [Function.update_of_ne hmn]
      exact onModify_other (Ne.symm hmn) taken (h.follows m)
  · intro m hm
    by_cases hmn : m = n
    · subst hmn
      simp only [Function.update_self] at hm
      exact user hm
    · simp only [Function.update_of_ne hmn] at hm
      exact h.user m hm

theorem Sound.zendAlterIniEntry (h : ini.Sound base) (name value : Bytes) :
    (ini.zendAlterIniEntry name value).2.Sound base := by
  unfold Ini.zendAlterIniEntry
  split
  · exact h
  · rename_i n _
    split
    · exact h
    · rename_i huser
      have huser' : n.isUser = true := by simpa using huser
      simp only
      have hkept : (if (ini.entries n).modified then ini.entries n
          else { ini.entries n with origValue := some (ini.entries n).value }).origValue =
            some (base n) := by
        cases hm : (ini.entries n).modified with
        | true => exact (h.modified n hm).1
        | false => simp [h.unmodified n hm]
      have hmem : n ∈ if (ini.entries n).modified then ini.modifiedDirectives
          else ini.modifiedDirectives ++ [n] := by
        cases hm : (ini.entries n).modified with
        | true => exact (h.modified n hm).2
        | false => simp
      have hlisted : ∀ m, m ≠ n → m ∈ ini.modifiedDirectives →
          m ∈ if (ini.entries n).modified then ini.modifiedDirectives
            else ini.modifiedDirectives ++ [n] := by
        intro m _ hm
        split
        · exact hm
        · exact List.mem_append_left _ hm
      split
      · rename_i g hg
        exact h.write hg (fun hm => by cases hm) (fun _ => ⟨hkept, hmem⟩) hlisted fun _ => huser'
      · have hvalue : (if (ini.entries n).modified then ini.entries n
            else { ini.entries n with origValue := some (ini.entries n).value }).value =
              (ini.entries n).value := by
          split <;> rfl
        refine h.write ?_ (fun hm => by cases hm) (fun _ => ⟨hkept, hmem⟩) hlisted fun _ => huser'
        change onModify n (ite _ _ _ : IniEntry).value _ = _
        rw [hvalue]
        exact h.follows n

theorem restoreEntry_unmodified (hm : (ini.entries n).modified = false) {runtime : Bool} :
    ini.restoreEntry n runtime = (true, ini) := by
  simp [restoreEntry, hm]

/-- A restored setting has its base value again. -/
theorem Sound.restoreEntry (h : ini.Sound base) (n : YafIni) (runtime : Bool) :
    ini.restoreEntry n runtime = (true, (ini.restoreEntry n runtime).2) ∧
      (ini.restoreEntry n runtime).2.entries =
        Function.update ini.entries n ⟨base n, none, false⟩ ∧
      (ini.restoreEntry n runtime).2.modifiedDirectives = ini.modifiedDirectives ∧
      onModify n (base n) ini.globals = some (ini.restoreEntry n runtime).2.globals := by
  cases hm : (ini.entries n).modified with
  | false =>
    have hentry := h.unmodified n hm
    rw [restoreEntry_unmodified hm]
    refine ⟨rfl, ?_, rfl, ?_⟩
    · rw [← hentry, Function.update_eq_self]
    · have hfollows := h.follows n
      rw [hentry] at hfollows
      exact hfollows
  | true =>
    obtain ⟨g, hg⟩ := Option.isSome_iff_exists.mp (h.fits n)
    simp [Ini.restoreEntry, hm, (h.modified n hm).1, hg]

theorem Sound.zendRestoreIniEntry (h : ini.Sound base) (name : Bytes) :
    (ini.zendRestoreIniEntry name).Sound base := by
  unfold Ini.zendRestoreIniEntry
  split
  · exact h
  · rename_i n _
    split
    · exact h
    · obtain ⟨hok, hentries, hlist, htaken⟩ := h.restoreEntry n true
      simp only
      rw [hok]
      simp only [if_true, hentries, hlist]
      apply h.write htaken (fun _ => rfl) (fun hm => by cases hm) _ (fun hm => by cases hm)
      intro m hne hm
      exact List.mem_filter.mpr ⟨hm, by simpa using hne⟩

/-- The walk over the changed settings: those behind it have their base values. -/
theorem Sound.restoreAll (h : ini.Sound base) (ns : List YafIni) :
    (ini.restoreAll ns).Sound base ∧
      ∀ m, (ini.restoreAll ns).entries m =
        if m ∈ ns then ⟨base m, none, false⟩ else ini.entries m := by
  induction ns generalizing ini with
  | nil =>
    refine ⟨h, ?_⟩
    intro m
    simp [Ini.restoreAll]
  | cons n ns ih =>
    obtain ⟨-, hentries, hlist, htaken⟩ := h.restoreEntry n false
    have hstep : (ini.restoreEntry n false).2.Sound base := by
      have hwrite : Sound base ⟨_, ini.modifiedDirectives, _⟩ := h.write htaken (fun _ => rfl)
        (fun hm => by cases hm) (fun _ _ hm => hm) (fun hm => by cases hm)
      rw [← hentries, ← hlist] at hwrite
      exact hwrite
    obtain ⟨hsound, hrest⟩ := ih hstep
    refine ⟨hsound, ?_⟩
    intro m
    change ((ini.restoreEntry n false).2.restoreAll ns).entries m = _
    rw [hrest m, hentries]
    by_cases hmn : m = n
    · subst hmn
      simp
    · simp [hmn]

/-- The globals are those of the values, the limit is no negative number, and a setting that is not
for users has its base value. -/
theorem Sound.globals (h : ini.Sound base) :
    ini.globals = iniGlobals (fun n => (ini.entries n).value) ∧ 0 ≤ ini.globals.forwardLimit ∧
      ∀ n, n.isUser = false → (ini.entries n).value = base n := by
  have hglobals : ini.globals = iniGlobals fun n => (ini.entries n).value := eq_iniGlobals h.follows
  refine ⟨hglobals, ?_, ?_⟩
  · rw [hglobals]
    have hlimit := h.follows .forwardLimit
    unfold onModify at hlimit
    simp only at hlimit
    split at hlimit
    · cases hlimit
    · rename_i hneg
      exact Int.not_lt.mp hneg
  · intro n hn
    cases hm : (ini.entries n).modified with
    | false => rw [h.unmodified n hm]
    | true =>
      rw [h.user n hm] at hn
      cases hn

/-- The end of a request takes every change back. -/
theorem Sound.zendIniDeactivate (h : ini.Sound base) : ini.zendIniDeactivate = fresh base := by
  obtain ⟨hsound, hentries⟩ := h.restoreAll ini.modifiedDirectives
  have hbase : ∀ m, (ini.restoreAll ini.modifiedDirectives).entries m = ⟨base m, none, false⟩ := by
    intro m
    rw [hentries m]
    split
    · rfl
    · rename_i hmem
      apply h.unmodified m
      cases hm : (ini.entries m).modified with
      | false => rfl
      | true => exact absurd (h.modified m hm).2 hmem
  have hglobals : (ini.restoreAll ini.modifiedDirectives).globals = iniGlobals base := by
    apply eq_iniGlobals
    intro n
    have hfollows := hsound.follows n
    rw [hbase n] at hfollows
    exact hfollows
  exact congrArg₂ (fun entries globals => Ini.mk entries [] globals) (funext hbase) hglobals

theorem Sound.of_fresh (fits : ∀ n, (onModify n (base n) (iniGlobals base)).isSome) :
    (fresh base).Sound base where
  fits := fits
  unmodified _ _ := rfl
  modified n hm := by cases hm
  user n hm := by cases hm
  follows n := by
    cases n with
    | forwardLimit =>
      have hfits := fits .forwardLimit
      unfold onModify at hfits
      simp only at hfits
      change onModify .forwardLimit (base .forwardLimit) (iniGlobals base) = some (iniGlobals base)
      unfold onModify
      simp only
      split at hfits
      · cases hfits
      · rename_i hlimit
        rw [if_neg hlimit]
        rfl
    | _ => rfl

/-- The value a setting starts with. -/
def startValue (configured : YafIni → Option Bytes) (n : YafIni) : Bytes :=
  ((configured n).filter fun value => (onModify n value zeroGlobals).isSome).getD n.defaultValue

theorem startValue_fits (configured : YafIni → Option Bytes) (n : YafIni) (g : IniGlobals) :
    (onModify n (startValue configured n) g).isSome := by
  rw [onModify_isSome n _ g zeroGlobals]
  unfold startValue
  cases hv : (configured n).filter fun value => (onModify n value zeroGlobals).isSome with
  | some v =>
    obtain ⟨-, hfits⟩ := Option.filter_eq_some_iff.mp hv
    exact hfits
  | none =>
    cases n with
    | _ => rfl

theorem registerEntry_eq (configured : YafIni → Option Bytes) (ini : Ini) (n : YafIni) :
    ∃ g, onModify n (startValue configured n) ini.globals = some g ∧
      registerEntry configured ini n =
        ⟨Function.update ini.entries n ⟨startValue configured n, none, false⟩,
          ini.modifiedDirectives, g⟩ := by
  obtain ⟨g, hg⟩ := Option.isSome_iff_exists.mp (startValue_fits configured n ini.globals)
  refine ⟨g, hg, ?_⟩
  unfold registerEntry
  unfold startValue at hg ⊢
  cases hv : configured n with
  | none =>
    rw [hv] at hg
    simp only [Option.filter_none, Option.getD_none] at hg ⊢
    simp [hg]
  | some v =>
    rw [hv] at hg
    have hsame := onModify_isSome n v zeroGlobals ini.globals
    cases htaken : onModify n v ini.globals with
    | none =>
      rw [htaken] at hsame
      simp [Option.filter, hsame] at hg
      simp [Option.filter, hsame, hg, htaken]
    | some g' =>
      rw [htaken] at hsame
      simp [Option.filter, hsame, htaken] at hg
      simp [Option.filter, hsame, hg, htaken]

/-- Registered settings have their start values, and their globals follow them. -/
theorem register_fold (configured : YafIni → Option Bytes) (ns : List YafIni) (ini : Ini) :
    (ns.foldl (registerEntry configured) ini).modifiedDirectives = ini.modifiedDirectives ∧
      ∀ n, (n ∈ ns → (ns.foldl (registerEntry configured) ini).entries n =
          ⟨startValue configured n, none, false⟩) ∧
        (n ∈ ns ∨ onModify n (startValue configured n) ini.globals = some ini.globals →
          onModify n (startValue configured n) (ns.foldl (registerEntry configured) ini).globals =
            some (ns.foldl (registerEntry configured) ini).globals) := by
  induction ns using List.reverseRecOn with
  | nil => simp
  | append_singleton ns k ih =>
    obtain ⟨hlist, hrest⟩ := ih
    rw [List.foldl_concat]
    generalize ns.foldl (registerEntry configured) ini = mid at hlist hrest
    obtain ⟨g, hg, heq⟩ := registerEntry_eq configured mid k
    rw [heq]
    refine ⟨hlist, ?_⟩
    intro n
    obtain ⟨hentry, hfollows⟩ := hrest n
    by_cases hnk : n = k
    · subst hnk
      exact ⟨fun _ => Function.update_self _ _ _, fun _ => onModify_again hg⟩
    · refine ⟨?_, ?_⟩
      · intro hn
        simp only [List.mem_append, List.mem_singleton, hnk, or_false] at hn
        simp only [Function.update_of_ne hnk]
        exact hentry hn
      · intro hn
        simp only [List.mem_append, List.mem_singleton, hnk, or_false] at hn
        exact onModify_other (Ne.symm hnk) hg (hfollows hn)

/-- After their registration the settings are as every request finds them. -/
theorem register_eq (configured : YafIni → Option Bytes) :
    register configured = fresh (startValue configured) := by
  obtain ⟨hlist, hrest⟩ := register_fold configured YafIni.all
    ⟨fun _ => ⟨[], none, false⟩, [], zeroGlobals⟩
  have hall : ∀ n, n ∈ YafIni.all := by
    intro n
    cases n <;> decide
  have hentries := funext fun n => (hrest n).1 (hall n)
  have hglobals := eq_iniGlobals fun n => (hrest n).2 (Or.inl (hall n))
  have hbuild : ∀ ini : Ini, ini.modifiedDirectives = [] →
      ini = ⟨ini.entries, [], ini.globals⟩ := by
    intro ini h
    cases ini
    cases h
    rfl
  calc register configured
      = ⟨(register configured).entries, [], (register configured).globals⟩ := hbuild _ hlist
    _ = fresh (startValue configured) :=
        congrArg₂ (fun entries globals => Ini.mk entries [] globals) hentries hglobals

end sound
end Ini
end Yaf
