import Yaf.Dispatcher.Names
import Yaf.Route.Query
import Yaf.Route.RequestUri

namespace Yaf
open Base

/-- `YAF_REQUEST_SERVER_URI`. -/
def requestServerUri : Bytes := lit "request_uri="

/-- `sizeof(YAF_REQUEST_SERVER_URI)`, which counts the terminator. -/
def requestServerUriSize : Nat := requestServerUri.length + 1

/-- The loop over `argv`. The text of the first argument with the prefix is copied from behind as
many characters as the literal occupies. -/
def argvQuery : List Zval → Option (Option Bytes)
  | [] => some none
  | .string arg :: args =>
    if strncasecmp arg requestServerUri (requestServerUriSize - 1) then
      (estrdup arg requestServerUriSize).map some
    else argvQuery args
  | _ :: args => argvQuery args

/-- The arguments of the script. -/
def argvEntries (server : Table Key Zval) : List Zval :=
  match requestQuery server (lit "argv") with
  | some (.array argv) => argv.map Prod.snd
  | _ => []

/-- A name that is given but is no string gives way to the default. -/
def simpleName (default : Bytes) (name : Option Zval) : Zval :=
  match name with
  | some (.string s) => .string s
  | _ => .string default

/-- The method that is given, that of the SAPI, or a name for the kind of SAPI. -/
def requestSimpleMethod (sapi : Bytes) (sapiMethod : Option Bytes) (method : Option Zval) : Bytes :=
  match method with
  | some (.string method) => method
  | _ =>
    match sapiMethod with
    | some method => method
    | none => if strncasecmp sapi (lit "cli") 3 then lit "CLI" else lit "Unknow"

/-- The names when one of them is given, the URI when none is. -/
def requestSimpleTarget (defaults : DefaultNames) (server : Table Key Zval) (request : Request)
    (module controller action : Option Zval) : Option Request :=
  if module.isSome || controller.isSome || action.isSome then
    some { request with
      module := simpleName defaults.module module
      controller := simpleName defaults.controller controller
      action := simpleName defaults.action action
      routed := true }
  else (argvQuery (argvEntries server)).map fun query => { request with uri := query.getD [] }

/-- `yaf_request_simple_instance`: the method and the request. -/
def requestSimpleInstance (sapi : Bytes) (sapiMethod : Option Bytes) (defaults : DefaultNames)
    (server : Table Key Zval) (request : Request) (module controller action method : Option Zval)
    (params : Option (Table Key Zval)) : Option (Bytes × Request) :=
  (requestSimpleTarget defaults server request module controller action).map fun request =>
    (requestSimpleMethod sapi sapiMethod method, { request with params := params.getD [] })

/-- The argument starts with the prefix, but for case. -/
def HasServerUri (arg : Bytes) : Prop := requestServerUri <+: arg.map toLower

instance (arg : Bytes) : Decidable (HasServerUri arg) :=
  inferInstanceAs (Decidable (_ <+: _))

/-- The text behind the prefix of the first string that has it. -/
def cliUri (args : List Zval) : Bytes :=
  match (args.filterMap Zval.string?).find? (HasServerUri ·) with
  | some arg => arg.drop requestServerUri.length
  | none => []

/-- The URI of a request from the command line is the text its argument names. -/
def CliUriExact (sapi : Bytes) (sapiMethod : Option Bytes) (defaults : DefaultNames)
    (server : Table Key Zval) (request : Request) (method : Option Zval)
    (params : Option (Table Key Zval)) : Prop :=
  ∃ name left, requestSimpleInstance sapi sapiMethod defaults server request none none none method
    params = some (name, left) ∧ left.uri = cliUri (argvEntries server)

theorem requestServerUri_lower : requestServerUri.map toLower = requestServerUri := by
  decide

theorem cstr_requestServerUri : cstr requestServerUri = requestServerUri := by decide

theorem take_map_cstr {s p : Bytes} (hp : NUL ∉ p) :
    ((cstr s).take p.length).map toLower = p ↔ p <+: s.map toLower := by
  have hcut : cstr s <+: s := List.takeWhile_prefix _
  constructor
  · intro h
    have hpre : p <+: (cstr s).map toLower := by
      rw [← h, List.map_take]
      exact List.take_prefix _ _
    exact hpre.trans (hcut.map toLower)
  · intro h
    obtain ⟨t, ht⟩ := h
    obtain ⟨a, b, rfl, ha, hb⟩ := List.map_eq_append_iff.mp ht.symm
    have hnul : NUL ∉ a := by
      intro hm
      refine hp (ha ▸ ?_)
      have hzero : toLower NUL = NUL := by decide
      exact hzero ▸ List.mem_map_of_mem hm
    have hlen : p.length = a.length := by rw [← ha, List.length_map]
    rw [cstr_append hnul, hlen, List.take_left, ha]

/-- The comparison is the test for the prefix. -/
theorem strncasecmp_requestServerUri (arg : Bytes) :
    strncasecmp arg requestServerUri (requestServerUriSize - 1) = true ↔ HasServerUri arg := by
  have hnul : NUL ∉ requestServerUri := by decide
  rw [strncasecmp, beq_iff_eq, cstr_requestServerUri, requestServerUriSize, Nat.add_sub_cancel,
    List.take_length, requestServerUri_lower]
  exact take_map_cstr hnul

theorem argvQuery_prefixed {arg : Bytes} (h : HasServerUri arg) (args : List Zval) :
    argvQuery (.string arg :: args) = (estrdup arg requestServerUriSize).map some := by
  rw [argvQuery, if_pos ((strncasecmp_requestServerUri arg).mpr h)]

theorem argvQuery_skip {arg : Zval} (h : ∀ s, arg = .string s → ¬HasServerUri s)
    (args : List Zval) : argvQuery (arg :: args) = argvQuery args := by
  cases arg with
  | string s =>
    rw [argvQuery, if_neg]
    intro hc
    exact h s rfl ((strncasecmp_requestServerUri s).mp hc)
  | _ => rfl

theorem cliUri_prefixed {arg : Bytes} (h : HasServerUri arg) (args : List Zval) :
    cliUri (.string arg :: args) = arg.drop requestServerUri.length := by
  simp [cliUri, h]

theorem cliUri_skip {arg : Zval} (h : ∀ s, arg = .string s → ¬HasServerUri s) (args : List Zval) :
    cliUri (arg :: args) = cliUri args := by
  cases arg with
  | string s => simp [cliUri, h s rfl]
  | _ => simp [cliUri, Zval.string?]

/-- One character of the text behind the prefix is lost, or the one behind the terminator read. -/
theorem estrdup_ne_drop {arg : Bytes} (h : HasServerUri arg) :
    estrdup arg requestServerUriSize ≠ some (arg.drop requestServerUri.length) := by
  have hlen : requestServerUri.length ≤ arg.length := by simpa using h.length_le
  intro he
  by_cases hmore : requestServerUriSize ≤ arg.length
  · rw [estrdup_eq hmore] at he
    have hshort := (List.takeWhile_prefix (l := arg.drop requestServerUriSize) (· != NUL)).length_le
    have heq := congrArg List.length (Option.some.inj he)
    rw [cstr] at heq
    rw [heq, List.length_drop, List.length_drop] at hshort
    unfold requestServerUriSize at hshort hmore
    omega
  · have hend : (arg ++ [NUL]).drop requestServerUriSize = [] := by
      apply List.drop_eq_nil_of_le
      rw [List.length_append, List.length_singleton]
      unfold requestServerUriSize at hmore ⊢
      omega
    rw [estrdup, Buffer.text?, hend] at he
    simp at he

/-- The loop finds the text of the claim exactly where no argument has the prefix. -/
theorem argvQuery_iff (args : List Zval) :
    (argvQuery args).map (Option.getD · []) = some (cliUri args) ↔
      ∀ arg, .string arg ∈ args → ¬HasServerUri arg := by
  induction args with
  | nil => exact iff_of_true rfl (by simp)
  | cons arg args ih =>
    by_cases hskip : ∀ s, arg = .string s → ¬HasServerUri s
    · rw [argvQuery_skip hskip, cliUri_skip hskip, ih]
      constructor
      · intro hrest s hs
        rcases List.mem_cons.mp hs with he | hs
        · exact hskip s he.symm
        · exact hrest s hs
      · intro hall s hs
        exact hall s (List.mem_cons_of_mem _ hs)
    · push Not at hskip
      obtain ⟨s, rfl, hs⟩ := hskip
      rw [argvQuery_prefixed hs, cliUri_prefixed hs]
      refine iff_of_false ?_ fun hall => hall s List.mem_cons_self hs
      intro he
      apply estrdup_ne_drop hs
      simpa [Option.map_map, Function.comp_def] using he

/-- The URI is the one the arguments name exactly when they name none. -/
theorem cli_uri_exact_iff (sapi : Bytes) (sapiMethod : Option Bytes) (defaults : DefaultNames)
    (server : Table Key Zval) (request : Request) (method : Option Zval)
    (params : Option (Table Key Zval)) :
    CliUriExact sapi sapiMethod defaults server request method params ↔
      ∀ arg, .string arg ∈ argvEntries server → ¬HasServerUri arg := by
  rw [← argvQuery_iff]
  unfold CliUriExact requestSimpleInstance requestSimpleTarget
  simp only [Option.isSome_none, Bool.or_self, Bool.false_eq_true, if_false]
  cases argvQuery (argvEntries server) with
  | none => simp
  | some query => simp

/-- `request_uri=/index` gives `index`. -/
theorem cli_uri_loses_slash :
    ¬CliUriExact (lit "cli") none ⟨lit "Index", lit "Index", lit "index"⟩
      [(.name (lit "argv"), .array [(.index 0, .string (lit "request_uri=/index"))])]
      (freshRequest []) none none := by
  have hargv : argvEntries
      [(.name (lit "argv"), .array [(.index 0, .string (lit "request_uri=/index"))])] =
      [.string (lit "request_uri=/index")] := by
    simp [argvEntries, requestQuery, Table.find?]
  have hprefixed : HasServerUri (lit "request_uri=/index") := by decide
  have hread : estrdup (lit "request_uri=/index") requestServerUriSize = some (lit "index") := by
    decide
  intro hexact
  obtain ⟨name, left, hok, huri⟩ := hexact
  rw [hargv, cliUri_prefixed hprefixed] at huri
  simp only [requestSimpleInstance, requestSimpleTarget, hargv, argvQuery_prefixed hprefixed, hread,
    Option.isSome_none, Bool.or_self, Bool.false_eq_true, if_false, Option.map_some,
    Option.some.injEq, Prod.mk.injEq] at hok
  obtain ⟨-, rfl⟩ := hok
  revert huri
  decide

end Yaf
