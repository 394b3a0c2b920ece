import Yaf.Dispatcher.Dispatch
import Yaf.Route.Regex

namespace Yaf
open Base

/-- The scalar values of PHP. -/
inductive ScalarValue where
  | null
  | bool (b : Bool)
  | long (n : Int)
  | double (bits : UInt64)
  | string (s : Bytes)
  deriving DecidableEq, Repr

namespace ScalarValue

def isString : ScalarValue → Bool
  | string _ => true
  | _ => false

/-- `zval_get_string`. How a double is written depends on the settings of PHP. -/
def text (doubleText : UInt64 → Bytes) : ScalarValue → Bytes
  | null => []
  | bool false => []
  | bool true => lit "1"
  | long n => longText n
  | double bits => doubleText bits
  | string s => s

/-- The value replaced by its string conversion. -/
def asText (doubleText : UInt64 → Bytes) (v : ScalarValue) : ScalarValue :=
  string (v.text doubleText)

/-- What an assembler reads of a value. -/
def infoValue (doubleText : UInt64 → Bytes) (v : ScalarValue) : InfoValue where
  isString := v.isString
  text := v.text doubleText

end ScalarValue

def infoValues (doubleText : UInt64 → Bytes) (t : Table Key ScalarValue) : Table Key InfoValue :=
  t.map fun p => (p.1, p.2.infoValue doubleText)

def stringified (doubleText : UInt64 → Bytes) (t : Table Key ScalarValue) : Table Key ScalarValue :=
  t.map fun p => (p.1, p.2.asText doubleText)

/-- `yaf_route_regex_assemble` on arrays of scalars. -/
def regexAssembleScalars (doubleText : UInt64 → Bytes) (route : RouteRegex)
    (info : Table Key ScalarValue) (query : Option (Table Key ScalarValue)) :
    Option (Except Trigger Bytes) :=
  routeRegexAssemble route (infoValues doubleText info) (query.map (infoValues doubleText))

/-- No value is read as a string that is none, and the result is that of the string conversions. -/
def ScalarsAsTexts (doubleText : UInt64 → Bytes) (route : RouteRegex) (info : Table Key ScalarValue)
    (query : Option (Table Key ScalarValue)) : Prop :=
  regexAssembleScalars doubleText route info query ≠ none ∧
    regexAssembleScalars doubleText route info query =
      regexAssembleScalars doubleText route (stringified doubleText info)
        (query.map (stringified doubleText))

/-- The values the code reads without their conversion are strings already. -/
def RawStrings (info : Table Key ScalarValue) (query : Option (Table Key ScalarValue)) : Prop :=
  (∀ v, Table.find? info (.name (lit ":a")) = some v → v.isString = true) ∧
    ∀ t, query = some t → ∀ p ∈ t, p.1.isName = true → p.2.isString = true

section
variable {doubleText : UInt64 → Bytes} {route : RouteRegex} {info t : Table Key ScalarValue}
  {query : Option (Table Key ScalarValue)}

theorem find?_infoValues (key : Key) :
    Table.find? (infoValues doubleText info) key =
      (Table.find? info key).map (ScalarValue.infoValue doubleText) :=
  Table.find?_map_values info _ key

theorem find?_stringified (key : Key) :
    Table.find? (infoValues doubleText (stringified doubleText info)) key =
      (Table.find? info key).map fun v => ⟨true, v.text doubleText⟩ := by
  rw [find?_infoValues, stringified, Table.find?_map_values, Option.map_map]
  rfl

/-- A replacement takes the text of the value only. -/
theorem reverseName_stringified (fmt uri : Bytes) :
    reverseName (infoValues doubleText (stringified doubleText info)) fmt uri =
      reverseName (infoValues doubleText info) fmt uri := by
  unfold reverseName
  rw [find?_stringified, find?_infoValues]
  cases Table.find? info (.name fmt) with
  | none => rfl
  | some v => rfl

/-- So does the query. -/
theorem queryTexts_stringified :
    (infoValues doubleText (stringified doubleText t)).map (fun p => (p.1, p.2.text)) =
      (infoValues doubleText t).map fun p => (p.1, p.2.text) := by
  simp [infoValues, stringified, ScalarValue.infoValue, ScalarValue.asText, ScalarValue.text]

/-- The action is read raw. -/
theorem rawAction_iff :
    ((Table.find? (infoValues doubleText info) (.name (lit ":a"))).any (!·.isString)) = false ↔
      ∀ v, Table.find? info (.name (lit ":a")) = some v → v.isString = true := by
  rw [find?_infoValues]
  cases Table.find? info (.name (lit ":a")) with
  | none => simp
  | some v => simp [ScalarValue.infoValue]

theorem rawQuery_iff :
    ((infoValues doubleText t).any fun p => p.1.isName && !p.2.isString) = false ↔
      ∀ p ∈ t, p.1.isName = true → p.2.isString = true := by
  simp [infoValues, ScalarValue.infoValue, List.any_eq_false]

theorem rawStrings_stringified :
    RawStrings (stringified doubleText info) (query.map (stringified doubleText)) := by
  constructor
  · intro v hv
    rw [stringified, Table.find?_map_values] at hv
    obtain ⟨u, -, rfl⟩ := Option.map_eq_some_iff.mp hv
    rfl
  · intro t ht p hp _
    obtain ⟨u, -, rfl⟩ := Option.map_eq_some_iff.mp ht
    obtain ⟨q, -, rfl⟩ := List.mem_map.mp hp
    rfl

/-- What comes out when nothing is read raw that is no string. -/
def assembledText (doubleText : UInt64 → Bytes) (reverse : Bytes) (info : Table Key ScalarValue)
    (query : Option (Table Key ScalarValue)) : Bytes :=
  let values := infoValues doubleText info
  reverseName values (lit ":a") (reverseName values (lit ":c") (reverseName values (lit ":m")
    reverse)) ++
    (query.map fun t => rewriteQuery ((infoValues doubleText t).map fun p =>
      (p.1, p.2.text))).getD []

theorem assembledText_stringified (reverse : Bytes) :
    assembledText doubleText reverse (stringified doubleText info)
      (query.map (stringified doubleText)) = assembledText doubleText reverse info query := by
  simp only [assembledText, reverseName_stringified]
  cases query with
  | none => rfl
  | some t => simp only [Option.map_some, queryTexts_stringified]

theorem regexAssembleScalars_of_raw {reverse : Bytes} (hr : route.reverse = some reverse)
    (h : RawStrings info query) :
    regexAssembleScalars doubleText route info query =
      some (.ok (assembledText doubleText reverse info query)) := by
  have haction := (@rawAction_iff doubleText info).mpr h.1
  unfold regexAssembleScalars routeRegexAssemble
  simp only [hr, haction]
  cases query with
  | none => simp [assembledText]
  | some t =>
    have hquery := (@rawQuery_iff doubleText t).mpr (h.2 t rfl)
    simp [hquery, assembledText]

/-- A value is read as a string exactly when one of those read raw is none. -/
theorem rawStrings_of_assembled {reverse : Bytes} (hr : route.reverse = some reverse)
    (h : regexAssembleScalars doubleText route info query ≠ none) : RawStrings info query := by
  unfold regexAssembleScalars routeRegexAssemble at h
  simp only [hr] at h
  constructor
  · apply (@rawAction_iff doubleText info).mp
    by_contra haction
    rw [Bool.not_eq_false] at haction
    simp [haction] at h
  · intro t ht
    subst ht
    apply (@rawQuery_iff doubleText t).mp
    by_contra hquery
    rw [Bool.not_eq_false] at hquery
    simp [hquery] at h

end

/-- Scalars count as their texts exactly when the action and the query hold strings. -/
theorem scalarsAsTexts_iff (doubleText : UInt64 → Bytes) (route : RouteRegex)
    (info : Table Key ScalarValue) (query : Option (Table Key ScalarValue)) :
    ScalarsAsTexts doubleText route info query ↔
      route.reverse = none ∨ RawStrings info query := by
  cases hr : route.reverse with
  | none =>
    have hall : ∀ i q, regexAssembleScalars doubleText route i q =
        some (.error ⟨.typeError, lit "Reverse property is not a valid string"⟩) := by
      intro i q
      simp [regexAssembleScalars, routeRegexAssemble, hr]
    constructor
    · exact fun _ => Or.inl rfl
    · intro _
      rw [ScalarsAsTexts, hall, hall]
      exact ⟨Option.some_ne_none _, rfl⟩
  | some reverse =>
    constructor
    · exact fun h => Or.inr (rawStrings_of_assembled hr h.1)
    · intro h
      have hraw := h.resolve_left (fun h => by cases h)
      rw [ScalarsAsTexts, regexAssembleScalars_of_raw hr hraw,
        regexAssembleScalars_of_raw hr rawStrings_stringified, assembledText_stringified]
      exact ⟨Option.some_ne_none _, rfl⟩

/-- An integer for the action is read as a string. -/
theorem integer_action_read :
    ¬ScalarsAsTexts (fun _ => []) (routeRegexInstance [] [] none none (some (.string (lit "/:a"))))
      [(.name (lit ":a"), .long 5)] none := by
  intro h
  apply h.1
  have hfind : Table.find? [(Key.name (lit ":a"), ScalarValue.long 5)] (.name (lit ":a")) =
      some (.long 5) := by
    rw [Table.find?, if_pos rfl]
  simp [regexAssembleScalars, routeRegexAssemble, routeRegexInstance, Zval.string?,
    find?_infoValues, hfind, ScalarValue.infoValue, ScalarValue.isString]

end Yaf
