import Yaf.Base.LastWord
import Yaf.Php.Numeric
import Yaf.Php.Value

namespace Yaf
open Base

/-- What `yaf_response_alter_header` reads and writes of a response, and the code next to it. -/
structure HttpResponse where
  header : Table Key Bytes := []
  responseCode : Int := 0
  deriving DecidableEq, Repr

def headerGlue : Bytes := lit ", "

/-- A header that is there, written again. -/
def alteredHeader (oheader value : Bytes) (rep : Bool) : Bytes :=
  if rep then value else oheader ++ headerGlue ++ value

/-- `yaf_response_alter_header`. The name is looked up as it is, and added by
`add_assoc_stringl_ex`, which reads a decimal name as a number. -/
def responseAlterHeader (headers : Table Key Bytes) (name : Option Bytes) (value : Bytes)
    (rep : Bool) : Table Key Bytes :=
  match name with
  | none => headers
  | some name =>
    match Table.find? headers (.name name) with
    | none => Table.update headers (symtableKey name) value
    | some oheader => Table.update headers (.name name) (alteredHeader oheader value rep)

/-- `yaf_response_clear_header`. -/
def responseClearHeader (headers : Table Key Bytes) (name : Option Bytes) : Table Key Bytes :=
  match name with
  | none => []
  | some name => Table.erase headers (.name name)

/-- `getHeader`, by `yaf_response_get_header`. -/
def HttpResponse.getHeader (r : HttpResponse) (name : Option Bytes) : Zval :=
  match name with
  | none => .array (r.header.map fun p => (p.1, .string p.2))
  | some name =>
    match Table.find? r.header (.name name) with
    | none => .null
    | some pzval => .string pzval

/-- `setHeader`. -/
def HttpResponse.setHeader (r : HttpResponse) (name value : Bytes) (rep : Bool)
    (responseCode : Int) : HttpResponse where
  header := responseAlterHeader r.header (some name) value rep
  responseCode := if responseCode ≠ 0 then responseCode else r.responseCode

/-- `setAllHeaders`, each entry as `zval_get_string` gives it. An integer key has no name. -/
def HttpResponse.setAllHeaders (r : HttpResponse) (headers : Table Key Bytes) : HttpResponse where
  header := headers.foldl (fun t p => responseAlterHeader t p.1.name? p.2 true) r.header
  responseCode := r.responseCode

def HttpResponse.clearHeaders (r : HttpResponse) : HttpResponse where
  header := responseClearHeader r.header none
  responseCode := r.responseCode

/-- A call that writes headers. -/
inductive HeaderCall where
  | setHeader (name value : Bytes) (rep : Bool) (responseCode : Int)
  | setAllHeaders (headers : Table Key Bytes)
  | clearHeaders
  deriving DecidableEq, Repr

namespace HeaderCall

def apply (r : HttpResponse) : HeaderCall → HttpResponse
  | setHeader name value rep responseCode => r.setHeader name value rep responseCode
  | setAllHeaders headers => r.setAllHeaders headers
  | clearHeaders => r.clearHeaders

/-- A new response after some calls. -/
def run (calls : List HeaderCall) : HttpResponse := calls.foldl apply {}

/-- What a call means for one name: overwrite, join, replace or remove. -/
def effect (name : Bytes) (text : Option Bytes) : HeaderCall → Option Bytes
  | setHeader n value rep _ =>
    if n = name then
      some (text.elim value fun old => if rep then value else old ++ headerGlue ++ value)
    else text
  | setAllHeaders headers =>
    headers.foldl (fun t p => if p.1 = .name name then some p.2 else t) text
  | clearHeaders => none

/-- The fold of the calls on one name. -/
def folded (name : Bytes) (calls : List HeaderCall) : Option Bytes := calls.foldl (effect name) none

/-- The call writes the header of that name. -/
def Sets (name : Bytes) : HeaderCall → Prop
  | setHeader n _ _ _ => n = name
  | setAllHeaders headers => .name name ∈ Table.keys headers
  | clearHeaders => False

/-- `getHeader` answers with the fold on its name, and a call that neither writes a name nor clears
leaves what it answers for it. -/
structure Keeps (calls : List HeaderCall) : Prop where
  get : ∀ name, (run calls).getHeader (some name) = (folded name calls).elim .null .string
  other : ∀ (r : HttpResponse) (call : HeaderCall) (name : Bytes), call ∈ calls →
    ¬call.Sets name → call ≠ clearHeaders →
      (call.apply r).getHeader (some name) = r.getHeader (some name)

/-- After the last clear some call writes the header. -/
def Leaves (name : Bytes) (calls : List HeaderCall) : Prop :=
  LastWord (Sets name) (· = clearHeaders) calls

section
variable {name m : Bytes} {headers : Table Key Bytes} {r : HttpResponse} {calls : List HeaderCall}
  {call : HeaderCall}

theorem find?_alter_other (value : Bytes) (rep : Bool) (hm : m ≠ name) :
    Table.find? (responseAlterHeader headers (some m) value rep) (.name name) =
      Table.find? headers (.name name) := by
  have hkey : Key.name name ≠ symtableKey m := fun h => hm (symtableKey_eq_name h.symm)
  have hname : Key.name name ≠ .name m := fun h => hm (Key.name.inj h).symm
  rw [responseAlterHeader]
  cases Table.find? headers (.name m) with
  | none => exact Table.find?_update_other _ _ hkey
  | some oheader => exact Table.find?_update_other _ _ hname

/-- A name that is no number is written where it is looked up. -/
theorem find?_alter_self (value : Bytes) (rep : Bool) (hplain : symtableKey name = .name name) :
    Table.find? (responseAlterHeader headers (some name) value rep) (.name name) =
      some ((Table.find? headers (.name name)).elim value (alteredHeader · value rep)) := by
  rw [responseAlterHeader]
  cases Table.find? headers (.name name) with
  | none =>
    dsimp only
    rw [hplain, Table.find?_update_self]
    rfl
  | some oheader => exact Table.find?_update_self _ _ _

/-- A decimal name is never found. -/
theorem find?_alter_decimal (value : Bytes) (rep : Bool) (hdecimal : symtableKey name ≠ .name name)
    (hnone : Table.find? headers (.name name) = none) :
    Table.find? (responseAlterHeader headers (some m) value rep) (.name name) = none := by
  by_cases hm : m = name
  · subst hm
    rw [responseAlterHeader, hnone]
    dsimp only
    rw [Table.find?_update_other _ _ (Ne.symm hdecimal), hnone]
  · rw [find?_alter_other value rep hm, hnone]

/-- The answer of `getHeader` is what is found under the name. -/
theorem getHeader_name (r : HttpResponse) (name : Bytes) :
    r.getHeader (some name) = (Table.find? r.header (.name name)).elim .null .string := by
  rw [HttpResponse.getHeader]
  cases Table.find? r.header (.name name) with
  | none => rfl
  | some pzval => rfl

theorem elim_string_inj {x y : Option Bytes}
    (h : x.elim Zval.null Zval.string = y.elim Zval.null Zval.string) : x = y := by
  cases x with
  | none =>
    cases y with
    | none => rfl
    | some t => cases h
  | some s =>
    cases y with
    | none => cases h
    | some t => rw [Zval.string.inj h]

/-- An entry of `setAllHeaders` under another key. -/
theorem find?_entry_other (headers : Table Key Bytes) {p : Key × Bytes} (hp : p.1 ≠ .name name) :
    Table.find? (responseAlterHeader headers p.1.name? p.2 true) (.name name) =
      Table.find? headers (.name name) := by
  obtain ⟨k, value⟩ := p
  cases k with
  | index i => rfl
  | name m =>
    apply find?_alter_other value true
    intro h
    exact hp (congrArg Key.name h)

theorem find?_entry (hplain : symtableKey name = .name name) (headers : Table Key Bytes)
    (p : Key × Bytes) :
    Table.find? (responseAlterHeader headers p.1.name? p.2 true) (.name name) =
      if p.1 = .name name then some p.2 else Table.find? headers (.name name) := by
  by_cases hp : p.1 = .name name
  · obtain ⟨k, value⟩ := p
    cases hp
    rw [if_pos rfl]
    refine (find?_alter_self value true hplain).trans ?_
    cases Table.find? headers (.name name) with
    | none => rfl
    | some oheader => rfl
  · rw [if_neg hp, find?_entry_other headers hp]

/-- What a call does to the header of a name that is no number. -/
theorem find?_apply (hplain : symtableKey name = .name name) (r : HttpResponse)
    (call : HeaderCall) :
    Table.find? (call.apply r).header (.name name) =
      effect name (Table.find? r.header (.name name)) call := by
  cases call with
  | setHeader m value rep responseCode =>
    by_cases hm : m = name
    · subst hm
      rw [effect, if_pos rfl]
      exact find?_alter_self value rep hplain
    · rw [effect, if_neg hm]
      exact find?_alter_other value rep hm
  | setAllHeaders entries =>
    rw [effect, apply, HttpResponse.setAllHeaders]
    dsimp only
    generalize r.header = headers
    induction entries generalizing headers with
    | nil => rfl
    | cons p entries ih => rw [List.foldl_cons, List.foldl_cons, ih, find?_entry hplain]
  | clearHeaders => rfl

/-- A call that does not write a name leaves its header, unless it clears. -/
theorem find?_apply_other (r : HttpResponse) (hsets : ¬call.Sets name)
    (hclear : call ≠ clearHeaders) :
    Table.find? (call.apply r).header (.name name) = Table.find? r.header (.name name) := by
  cases call with
  | setHeader m value rep responseCode => exact find?_alter_other value rep hsets
  | setAllHeaders entries =>
    refine List.foldlRecOn
      (motive := fun t : Table Key Bytes => Table.find? t (.name name) = _) entries _ rfl ?_
    intro headers hsame p hp
    have hkey : p.1 ≠ .name name := by
      intro h
      apply hsets
      rw [Sets, ← h]
      exact List.mem_map_of_mem hp
    exact (find?_entry_other headers hkey).trans hsame
  | clearHeaders => exact absurd rfl hclear

/-- No call brings in a decimal name. -/
theorem find?_apply_decimal (hdecimal : symtableKey name ≠ .name name) (call : HeaderCall)
    (hnone : Table.find? r.header (.name name) = none) :
    Table.find? (call.apply r).header (.name name) = none := by
  cases call with
  | setHeader m value rep responseCode => exact find?_alter_decimal value rep hdecimal hnone
  | setAllHeaders entries =>
    refine List.foldlRecOn
      (motive := fun t : Table Key Bytes => Table.find? t (.name name) = none) entries _ hnone ?_
    intro headers hnone p hp
    cases hname : p.1.name? with
    | none => exact hnone
    | some m => exact find?_alter_decimal p.2 true hdecimal hnone
  | clearHeaders => rfl

theorem run_concat (calls : List HeaderCall) (call : HeaderCall) :
    run (calls ++ [call]) = call.apply (run calls) := by
  rw [run, List.foldl_concat, run]

theorem folded_concat (name : Bytes) (calls : List HeaderCall) (call : HeaderCall) :
    folded name (calls ++ [call]) = effect name (folded name calls) call := by
  rw [folded, List.foldl_concat, folded]

theorem find?_run (hplain : symtableKey name = .name name) (calls : List HeaderCall) :
    Table.find? (run calls).header (.name name) = folded name calls := by
  induction calls using List.reverseRecOn with
  | nil => rfl
  | append_singleton calls call ih => rw [run_concat, find?_apply hplain, ih, folded_concat]

theorem find?_run_decimal (hdecimal : symtableKey name ≠ .name name) (calls : List HeaderCall) :
    Table.find? (run calls).header (.name name) = none := by
  induction calls using List.reverseRecOn with
  | nil => rfl
  | append_singleton calls call ih =>
    rw [run_concat]
    exact find?_apply_decimal hdecimal call ih

/-- The fold finds something after a call that writes the name, or when it did before and the call
does not clear. -/
theorem effect_isSome_iff (name : Bytes) (text : Option Bytes) (call : HeaderCall) :
    (effect name text call).isSome = true ↔
      call.Sets name ∨ text.isSome = true ∧ call ≠ clearHeaders := by
  cases call with
  | setHeader m value rep responseCode =>
    rw [effect, Sets]
    split <;> simp [*]
  | setAllHeaders entries =>
    rw [effect, Sets]
    induction entries generalizing text with
    | nil => simp
    | cons p entries ih =>
      rw [List.foldl_cons, ih, Table.keys_cons, List.mem_cons]
      by_cases hp : p.1 = .name name
      · simp [hp]
      · simp [hp, Ne.symm hp]
  | clearHeaders => simp [effect, Sets]

/-- The fold finds something when some call wrote the name since the last clear. -/
theorem folded_isSome_iff (name : Bytes) (calls : List HeaderCall) :
    (folded name calls).isSome = true ↔ Leaves name calls := by
  unfold Leaves
  induction calls using List.reverseRecOn with
  | nil => exact iff_of_false (by simp [folded]) not_lastWord_nil
  | append_singleton calls call ih =>
    rw [folded_concat, effect_isSome_iff, ih, lastWord_concat]

/-- What the calls wrote is kept when no name they leave is a number. -/
theorem keeps_iff (calls : List HeaderCall) :
    Keeps calls ↔ ∀ name, Leaves name calls → symtableKey name = .name name := by
  constructor
  · intro h name hleaves
    by_contra hdecimal
    have hget := h.get name
    rw [getHeader_name, find?_run_decimal hdecimal] at hget
    have hsome := (folded_isSome_iff name calls).mpr hleaves
    rw [← elim_string_inj hget] at hsome
    cases hsome
  · intro h
    constructor
    · intro name
      rw [getHeader_name]
      by_cases hplain : symtableKey name = .name name
      · rw [find?_run hplain]
      · have hnone : folded name calls = none := by
          by_contra hsome
          exact hplain
            (h name ((folded_isSome_iff name calls).mp (Option.isSome_iff_ne_none.mpr hsome)))
        rw [find?_run_decimal hplain, hnone]
    · intro r call name _ hsets hclear
      rw [getHeader_name, getHeader_name, find?_apply_other r hsets hclear]

end

end HeaderCall

/-- The header store keeps the calls on every name exactly when none leaves a header whose name is
a decimal integer. -/
theorem header_store_iff (calls : List HeaderCall) :
    HeaderCall.Keeps calls ↔
      ∀ name, HeaderCall.Leaves name calls → symtableKey name = .name name :=
  HeaderCall.keeps_iff calls

/-- A header with the name 404 is stored under the integer, and not found again. -/
theorem decimal_header_lost :
    (HeaderCall.run [.setHeader (lit "404") (lit "x") true 0]).getHeader (some (lit "404")) =
    .null ∧
      HeaderCall.folded (lit "404") [.setHeader (lit "404") (lit "x") true 0] = some (lit "x") ∧
        ¬HeaderCall.Keeps [.setHeader (lit "404") (lit "x") true 0] := by
  have hget : (HeaderCall.run [.setHeader (lit "404") (lit "x") true 0]).getHeader
      (some (lit "404")) = .null := rfl
  refine ⟨hget, by decide, ?_⟩
  intro h
  have hfold := h.get (lit "404")
  rw [hget] at hfold
  cases hfold

end Yaf
