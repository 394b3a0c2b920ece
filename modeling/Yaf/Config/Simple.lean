import Yaf.Php.Numeric
import Yaf.Php.Value

namespace Yaf
open Base

/-- A `Yaf_Config_Simple`: its `_config` and `_readonly`. -/
structure ConfigSimple (ν : Type) where
  config : Table Key ν
  readonly : Bool

namespace ConfigSimple

variable {ν : Type}

/-- The value `get` finds: by index when `is_numeric_string` reads an integer. -/
def lookup (c : ConfigSimple ν) (name : Bytes) : Option ν := Table.find? c.config (numericKey name)

/-- `set`, and whether it answers true. The name is taken as it is, an integer or not. -/
def set (c : ConfigSimple ν) (name : Bytes) (value : ν) : ConfigSimple ν × Bool :=
  if c.readonly then (c, false)
  else ({ c with config := Table.update c.config (.name name) value }, true)

def isset (c : ConfigSimple ν) (name : Bytes) : Bool :=
  (Table.find? c.config (.name name)).isSome

def offsetUnset (c : ConfigSimple ν) (name : Bytes) : ConfigSimple ν × Bool :=
  if c.readonly then (c, false)
  else if c.isset name then ({ c with config := Table.erase c.config (.name name) }, true)
  else (c, false)

/-- What a call of `get` gives back. -/
inductive Found where
  | value (v : Zval)
  | config (c : ConfigSimple Zval)

/-- An array comes back as a configuration over it, and nothing found as FALSE. -/
def format (readonly : Bool) : Option Zval → Found
  | none => .value (.bool false)
  | some (.array t) => .config ⟨t, readonly⟩
  | some v => .value v

def get (c : ConfigSimple Zval) (name : Bytes) : Found := format c.readonly (c.lookup name)

/-- A call on a configuration. -/
inductive Call where
  | set (name : Bytes) (value : Zval)
  | offsetUnset (name : Bytes)
  | get (name : Bytes)
  | isset (name : Bytes)

def Call.name : Call → Bytes
  | .set name _ => name
  | .offsetUnset name => name
  | .get name => name
  | .isset name => name

/-- The values the calls store are scalars other than null. -/
def Call.storesScalar : Call → Prop
  | .set _ (.array _) => False
  | .set _ (.object _) => False
  | .set _ .null => False
  | _ => True

def apply (c : ConfigSimple Zval) : Call → ConfigSimple Zval
  | .set name value => (c.set name value).1
  | .offsetUnset name => (c.offsetUnset name).1
  | .get _ => c
  | .isset _ => c

def run (c : ConfigSimple Zval) (calls : List Call) : ConfigSimple Zval := calls.foldl apply c

/-- What a call does to the value a map holds under a key. -/
def Call.effect (key : Key) (held : Option Zval) : Call → Option Zval
  | .set name value => if symtableKey name = key then some value else held
  | .offsetUnset name => if symtableKey name = key then none else held
  | _ => held

/-- The value a map holds under a name after the calls: the last one set and not unset since, or
the first. -/
def held (initial : Table Key Zval) (calls : List Call) (name : Bytes) : Option Zval :=
  calls.foldl (Call.effect (symtableKey name)) (Table.find? initial (symtableKey name))

/-- An array of the language: no key twice, and no string that is spelled like an integer. -/
structure PhpArray (t : Table Key Zval) : Prop where
  nodup : (Table.keys t).Nodup
  keys : ∀ s, .name s ∈ Table.keys t → handleNumericStr s = none

/-- The laws of a map, for one name, over every run of a writable configuration. -/
structure MapLaws (name : Bytes) (initial : Table Key Zval) (calls : List Call) : Prop where
  get : (run ⟨initial, false⟩ calls).get name = format false (held initial calls name)
  isset : (run ⟨initial, false⟩ calls).isset name = (held initial calls name).isSome
  other : ∀ call : Call, symtableKey call.name ≠ symtableKey name →
    ((run ⟨initial, false⟩ calls).apply call).get name = (run ⟨initial, false⟩ calls).get name

/-- The configuration is a map as far as this name goes. -/
def IsMapAt (name : Bytes) : Prop :=
  ∀ initial, PhpArray initial → ∀ calls : List Call, (∀ call ∈ calls, call.storesScalar) →
    MapLaws name initial calls

section
variable {name : Bytes} {c : ConfigSimple Zval} {call : Call}

theorem plain_keys (hp : isNumericLong name = false) :
    numericKey name = .name name ∧ symtableKey name = .name name := by
  have hkey := numericKey_eq_name_iff.mpr hp
  refine ⟨hkey, ?_⟩
  rw [← hkey]
  exact (numericKey_eq_iff.mpr fun h => by rw [hp] at h; cases h).symm

theorem apply_readonly (c : ConfigSimple Zval) (call : Call) :
    (c.apply call).readonly = c.readonly := by
  cases call with
  | set name value =>
    simp only [apply, set]
    split <;> rfl
  | offsetUnset name =>
    simp only [apply, offsetUnset]
    split
    · rfl
    · split <;> rfl
  | get name => rfl
  | isset name => rfl

theorem apply_nodup (hn : (Table.keys c.config).Nodup) :
    (Table.keys (c.apply call).config).Nodup := by
  cases call with
  | set name value =>
    simp only [apply, set]
    split
    · exact hn
    · exact Table.nodup_update hn _ _
  | offsetUnset name =>
    simp only [apply, offsetUnset]
    split
    · exact hn
    · split
      · exact Table.nodup_erase hn _
      · exact hn
  | get name => exact hn
  | isset name => exact hn

/-- A call keeps what is stored under a string key other than its own name. -/
theorem find?_apply_other (h : call.name ≠ name) :
    Table.find? (c.apply call).config (.name name) = Table.find? c.config (.name name) := by
  have hkey : Key.name name ≠ .name call.name := fun he => h (Key.name.inj he).symm
  cases call with
  | set other value =>
    simp only [apply, set]
    split
    · rfl
    · exact Table.find?_update_other _ _ hkey
  | offsetUnset other =>
    simp only [apply, offsetUnset]
    split
    · rfl
    · split
      · exact Table.find?_erase_other _ hkey
      · rfl
  | get other => rfl
  | isset other => rfl

/-- On a plain name one call does what it does on a map. -/
theorem find?_apply (hp : isNumericLong name = false) (hr : c.readonly = false)
    (hn : (Table.keys c.config).Nodup) :
    Table.find? (c.apply call).config (.name name) =
      call.effect (.name name) (Table.find? c.config (.name name)) := by
  have hsame := (plain_keys hp).2
  have hother : ∀ other : Bytes, other ≠ name → symtableKey other ≠ .name name := by
    intro other hne he
    exact hne (symtableKey_eq_name he)
  by_cases hname : call.name = name
  · cases call with
    | set other value =>
      obtain rfl : other = name := hname
      simp [apply, set, hr, Call.effect, hsame]
    | offsetUnset other =>
      obtain rfl : other = name := hname
      simp only [apply, offsetUnset, hr, Bool.false_eq_true, if_false, Call.effect, hsame, if_true]
      split
      · exact Table.find?_erase_self hn _
      · rename_i hi
        simpa [isset] using hi
    | get other => rfl
    | isset other => rfl
  · rw [find?_apply_other hname]
    cases call with
    | set other value => rw [Call.effect, if_neg (hother other hname)]
    | offsetUnset other => rw [Call.effect, if_neg (hother other hname)]
    | get other => rfl
    | isset other => rfl

/-- A whole run does what it does on a map. -/
theorem find?_run (hp : isNumericLong name = false) (calls : List Call) :
    ∀ {c : ConfigSimple Zval}, c.readonly = false → (Table.keys c.config).Nodup →
      Table.find? (c.run calls).config (.name name) =
          calls.foldl (Call.effect (.name name)) (Table.find? c.config (.name name)) ∧
        (c.run calls).readonly = false := by
  induction calls with
  | nil => exact fun hr _ => ⟨rfl, hr⟩
  | cons call calls ih =>
    intro c hr hn
    rw [List.foldl_cons, ← find?_apply hp hr hn]
    exact ih ((apply_readonly c call).trans hr) (apply_nodup hn)

end

/-- What is set under an integer is not found: it is stored as a string and looked up by index. -/
theorem IsMapAt.plain {name : Bytes} (h : IsMapAt name) : isNumericLong name = false := by
  rw [← numericKey_eq_name_iff]
  by_contra hkey
  have hlaws := h [] ⟨List.nodup_nil, by simp⟩ [.set name (.long 1)] (by simp [Call.storesScalar])
  have hget := hlaws.get
  have hmiss : Table.find? [(Key.name name, Zval.long 1)] (numericKey name) = none := by
    simp [Table.find?, Ne.symm hkey]
  simp only [run, apply, set, get, lookup, List.foldl_cons, List.foldl_nil, Bool.false_eq_true,
    if_false, Table.update, hmiss, format, held, Call.effect, if_true] at hget
  cases hget

/-- A configuration is a map on a name, over every run, exactly if the name is no integer. -/
theorem is_map_at_iff (name : Bytes) : IsMapAt name ↔ isNumericLong name = false := by
  constructor
  · exact IsMapAt.plain
  · intro hp initial ha calls _
    obtain ⟨hkey, hsame⟩ := plain_keys hp
    obtain ⟨hfind, hr⟩ := find?_run hp calls (c := ⟨initial, false⟩) rfl ha.nodup
    refine ⟨?_, ?_, fun call hother => ?_⟩
    · rw [get, lookup, hkey, hfind, hr, held, hsame]
    · rw [isset, hfind, held, hsame]
    · rw [get, get, lookup, lookup, hkey, apply_readonly, find?_apply_other]
      rintro rfl
      exact hother rfl

/-- What is set under `5` is not what `get` gives back for it. -/
theorem integer_name_lost : ¬IsMapAt (lit "5") := by
  intro h
  have hplain := h.plain
  revert hplain
  decide

end ConfigSimple

end Yaf
