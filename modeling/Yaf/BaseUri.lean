import Yaf.Php.Path
import Yaf.Route.Query

namespace Yaf
open Base

/-- An entry of the server variables that is a string. -/
def serverText (server : Table Key Zval) (name : Bytes) : Option Bytes :=
  match requestQuery server name with
  | some (.string s) => some s
  | _ => none

/-- Where the path of the script is looked for, in this order. -/
def scriptVariables : List Bytes := [lit "SCRIPT_NAME", lit "PHP_SELF", lit "ORIG_SCRIPT_NAME"]

/-- The first of the variables whose last component starts with the name of the script file. -/
def scriptPath (mblen : Mblen) (ext : Bytes) (server : Table Key Zval) : Option Bytes := do
  let filename ← serverText server (lit "SCRIPT_FILENAME")
  let fileName := phpBasename mblen filename (some ext)
  scriptVariables.findSome? fun name =>
    (serverText server name).filter fun path =>
      strncmp fileName (phpBasename mblen path none) fileName.length

/-- The directory of the script, nothing for the root. -/
def scriptDirectory (path : Bytes) : Bytes :=
  let dir := phpDirname path
  if dir.getLast? = some slash then dir.dropLast else dir

/-- The base the path of the script gives: the path itself, or its directory. An empty path is read
in front of its first character. -/
def detectBaseUri (path requestUri : Bytes) : Option Bytes :=
  if strncmp requestUri path path.length then
    if path = [] then none
    else some (if path.getLast? = some slash then path.dropLast else path)
  else
    let dir := scriptDirectory path
    if dir ≠ [] ∧ strncmp requestUri dir dir.length then some dir else some []

/-- `yaf_request_set_base_uri`. -/
def requestSetBaseUri (mblen : Mblen) (ext : Bytes) (server : Table Key Zval) (request : Request)
    (baseUri : Option Bytes) (requestUri : Bytes) : Option Request :=
  match baseUri with
  | some baseUri => some { request with baseUri := .string baseUri }
  | none =>
    match scriptPath mblen ext server with
    | some path => (detectBaseUri path requestUri).map fun base =>
        { request with baseUri := .string base }
    | none => some { request with baseUri := .string [] }

/-- The URI starts with the text, and a segment of the URI ends there. -/
def SegmentPrefix (text uri : Bytes) : Prop :=
  text <+: uri ∧ ((uri.drop text.length) = [] ∨ (uri.drop text.length).head? = some slash)

instance (text uri : Bytes) : Decidable (SegmentPrefix text uri) :=
  inferInstanceAs (Decidable (_ ∧ _))

/-- A base that can be taken off the URI. -/
def IsBaseOf (base uri : Bytes) : Prop :=
  base = [] ∨ SegmentPrefix base uri ∧ base.getLast? ≠ some slash

instance (base uri : Bytes) : Decidable (IsBaseOf base uri) :=
  inferInstanceAs (Decidable (_ ∨ _))

/-- Detection reads inside its strings and stores a base of the URI. -/
def DetectsBase (mblen : Mblen) (ext : Bytes) (server : Table Key Zval) (request : Request)
    (requestUri : Bytes) : Prop :=
  ∃ base, requestSetBaseUri mblen ext server request none requestUri =
    some { request with baseUri := .string base } ∧ IsBaseOf base requestUri

/-- The URI does not go on inside a segment behind the path of the script, or behind its directory
when it is elsewhere. A slash at the end of the path ends the segment, a second one does not. -/
structure ScriptFits (path requestUri : Bytes) : Prop where
  nonempty : path ≠ []
  script : strncmp requestUri path path.length = true → path.getLast? ≠ some slash →
    SegmentPrefix path requestUri
  slashed : ∀ s, strncmp requestUri path path.length = true → path = s ++ [slash] →
    s.getLast? ≠ some slash ∧ (path <+: requestUri ∨ requestUri = s)
  directory : strncmp requestUri path path.length = false → scriptDirectory path ≠ [] →
    strncmp requestUri (scriptDirectory path) (scriptDirectory path).length = true →
    SegmentPrefix (scriptDirectory path) requestUri

theorem scriptDirectory_no_slash (path : Bytes) :
    (scriptDirectory path).getLast? ≠ some slash := by
  unfold scriptDirectory
  dsimp only
  split
  · rename_i h
    rw [phpDirname_slash h]
    simp
  · assumption

theorem segmentPrefix_of_slash {s uri : Bytes} :
    SegmentPrefix s uri ↔ s ++ [slash] <+: uri ∨ uri = s := by
  constructor
  · rintro ⟨⟨rest, rfl⟩, hrest⟩
    rw [List.drop_left] at hrest
    rcases hrest with rfl | hrest
    · exact Or.inr (by simp)
    · obtain ⟨rest', rfl⟩ := List.head?_eq_some_iff.mp hrest
      exact Or.inl ⟨rest', by simp⟩
  · rintro (⟨rest, rfl⟩ | rfl)
    · exact ⟨⟨slash :: rest, by simp⟩, Or.inr (by simp)⟩
    · exact ⟨List.prefix_rfl, Or.inl (by simp)⟩

section
variable {path uri : Bytes}

/-- The path of the script itself is the base. -/
theorem detect_script_iff (hc : strncmp uri path path.length = true) (hne : path ≠ [])
    (hlast : path.getLast? ≠ some slash) :
    (∃ base, detectBaseUri path uri = some base ∧ IsBaseOf base uri) ↔ ScriptFits path uri := by
  have hdetect : detectBaseUri path uri = some path := by
    rw [detectBaseUri, if_pos hc, if_neg hne, if_neg hlast]
  simp only [hdetect, Option.some.injEq, exists_eq_left']
  constructor
  · rintro (hnil | ⟨hseg, -⟩)
    · exact absurd hnil hne
    · refine ⟨hne, fun _ _ => hseg, fun s _ hs => ?_, fun hno => ?_⟩
      · exact absurd (by simp [hs]) hlast
      · rw [hc] at hno
        cases hno
  · intro hfits
    exact Or.inr ⟨hfits.script hc hlast, hlast⟩

/-- The path of the script ends with a slash, and the base is what stands before it. -/
theorem detect_slashed_iff {s : Bytes}
    (hc : strncmp uri (s ++ [slash]) (s ++ [slash]).length = true) :
    (∃ base, detectBaseUri (s ++ [slash]) uri = some base ∧ IsBaseOf base uri) ↔
      ScriptFits (s ++ [slash]) uri := by
  have hdetect : detectBaseUri (s ++ [slash]) uri = some s := by
    rw [detectBaseUri, if_pos hc, if_neg (by simp), if_pos (by simp), List.dropLast_concat]
  simp only [hdetect, Option.some.injEq, exists_eq_left']
  constructor
  · intro hbase
    refine ⟨by simp, fun _ hlast => absurd (by simp) hlast, fun t _ ht => ?_, fun hno => ?_⟩
    · obtain rfl := List.append_cancel_right ht
      rcases hbase with rfl | ⟨hseg, hlast⟩
      · have hroot : [slash] <+: uri := (strncmp_iff_front (by decide)).mp hc
        exact ⟨by simp, Or.inl hroot⟩
      · exact ⟨hlast, segmentPrefix_of_slash.mp hseg⟩
    · rw [hc] at hno
      cases hno
  · intro hfits
    obtain ⟨hlast, hpre⟩ := hfits.slashed s hc rfl
    exact Or.inr ⟨segmentPrefix_of_slash.mpr hpre, hlast⟩

theorem detect_directory_iff (hc : strncmp uri path path.length = false) (hne : path ≠ []) :
    (∃ base, detectBaseUri path uri = some base ∧ IsBaseOf base uri) ↔ ScriptFits path uri := by
  have hno : ¬strncmp uri path path.length = true := by simp [hc]
  by_cases hdir : scriptDirectory path ≠ [] ∧
      strncmp uri (scriptDirectory path) (scriptDirectory path).length = true
  · have hdetect : detectBaseUri path uri = some (scriptDirectory path) := by
      rw [detectBaseUri, if_neg hno]
      exact if_pos hdir
    simp only [hdetect, Option.some.injEq, exists_eq_left']
    constructor
    · rintro (hnil | ⟨hseg, -⟩)
      · exact absurd hnil hdir.1
      · exact ⟨hne, fun h => absurd h hno, fun _ h => absurd h hno, fun _ _ _ => hseg⟩
    · intro hfits
      exact Or.inr ⟨hfits.directory hc hdir.1 hdir.2, scriptDirectory_no_slash path⟩
  · have hdetect : detectBaseUri path uri = some [] := by
      rw [detectBaseUri, if_neg hno]
      exact if_neg hdir
    simp only [hdetect, Option.some.injEq, exists_eq_left']
    refine iff_of_true (Or.inl rfl) ⟨hne, fun h => absurd h hno, fun _ h => absurd h hno, ?_⟩
    exact fun _ h₁ h₂ => absurd ⟨h₁, h₂⟩ hdir

theorem detect_iff_scriptFits :
    (∃ base, detectBaseUri path uri = some base ∧ IsBaseOf base uri) ↔ ScriptFits path uri := by
  cases hc : strncmp uri path path.length with
  | false =>
    have hne : path ≠ [] := by
      rintro rfl
      simp [strncmp] at hc
    exact detect_directory_iff hc hne
  | true =>
    by_cases hne : path = []
    · have hdetect : detectBaseUri path uri = none := by
        rw [detectBaseUri, if_pos hc, if_pos hne]
      simp only [hdetect, reduceCtorEq, false_and, exists_false, false_iff]
      exact fun hfits => hfits.nonempty hne
    · by_cases hlast : path.getLast? = some slash
      · obtain ⟨s, rfl⟩ := List.getLast?_eq_some_iff.mp hlast
        exact detect_slashed_iff hc
      · exact detect_script_iff hc hne hlast

end

/-- The detected base is a base of the URI exactly when the path of the script, where one is found,
fits the URI. -/
theorem detects_base_iff (mblen : Mblen) (ext : Bytes) (server : Table Key Zval)
    (request : Request) (uri : Bytes) :
    DetectsBase mblen ext server request uri ↔
      ∀ path, scriptPath mblen ext server = some path → ScriptFits path uri := by
  unfold DetectsBase requestSetBaseUri
  cases hpath : scriptPath mblen ext server with
  | none => exact iff_of_true ⟨[], rfl, Or.inl rfl⟩ (by simp)
  | some path =>
    simp only [Option.some.injEq, forall_eq', ← detect_iff_scriptFits]
    constructor
    · rintro ⟨base, hset, hbase⟩
      cases hdetect : detectBaseUri path uri with
      | none => simp [hdetect] at hset
      | some base' =>
        simp [hdetect] at hset
        exact ⟨base', rfl, hset ▸ hbase⟩
    · rintro ⟨base, hdetect, hbase⟩
      exact ⟨base, by simp [hdetect], hbase⟩

/-- A script in `/app` and a URI in `/application`. -/
theorem sibling_directory_detected :
    ¬DetectsBase (fun _ => some 1) (lit "php")
      [(.name (lit "SCRIPT_FILENAME"), .string (lit "/var/www/app/index.php")),
        (.name (lit "SCRIPT_NAME"), .string (lit "/app/index.php"))]
      (freshRequest (lit "/application/x")) (lit "/application/x") := by
  rintro ⟨base, hset, hbase⟩
  have hpath : scriptPath (fun _ => some 1) (lit "php")
      [(.name (lit "SCRIPT_FILENAME"), .string (lit "/var/www/app/index.php")),
        (.name (lit "SCRIPT_NAME"), .string (lit "/app/index.php"))] =
      some (lit "/app/index.php") := by
    decide
  have hdetect : detectBaseUri (lit "/app/index.php") (lit "/application/x") =
      some (lit "/app") := by
    decide
  simp only [requestSetBaseUri, hpath, hdetect, Option.map_some, Option.some.injEq,
    Request.mk.injEq, Zval.string.injEq, true_and, and_true] at hset
  rw [← hset] at hbase
  revert hbase
  decide

end Yaf
