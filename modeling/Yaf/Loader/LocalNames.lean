import Yaf.Loader.Namespace

namespace Yaf
open Base

/-- A name that may be registered: it is not empty, holds no colon, and is a C string. -/
structure NamespaceName (name : Bytes) : Prop where
  ne_nil : name ≠ []
  colon : colon ∉ name
  nul : NUL ∉ name

namespace NamespaceCall

/-- The names a call registers. -/
def names : NamespaceCall → List Bytes
  | .register (.string name) => [name]
  | .register (.array t) => t.filterMap fun p => p.2.string?
  | _ => []

/-- A string, or an array of strings. -/
def WellNamed : NamespaceCall → Prop
  | .register (.string name) => NamespaceName name
  | .register (.array t) => ∀ p ∈ t, ∃ name, p.2 = .string name ∧ NamespaceName name
  | .register _ => False
  | .clear => True

/-- The names since the last clear, after one more call. -/
def after (registered : List Bytes) : NamespaceCall → List Bytes
  | .clear => []
  | call => registered ++ call.names

end NamespaceCall

/-- The names registered since the last clear. -/
def registered (calls : List NamespaceCall) : List Bytes := calls.foldl NamespaceCall.after []

/-- Some number of turns gives the answer: whether the prefix is one of the names. The class name is
as before. -/
def AnswersFor (names : List Bytes) (namespaces : Option Bytes) (arg : ClassArg) : Prop :=
  ∃ turns found,
    isLocalNamespace namespaces arg turns = (.ended found, askedFor namespaces arg) ∧
      (found = true ↔ classPrefix (askedFor namespaces arg) ∈ names)

/-- No call faults, and afterwards every class name with a prefix is answered for. -/
structure LocalNamesKept (calls : List NamespaceCall) : Prop where
  goes : (NamespaceCall.run calls).isSome = true
  answers : ∀ namespaces, NamespaceCall.run calls = some namespaces →
    ∀ arg, classPrefix (askedFor namespaces arg) ≠ [] →
      AnswersFor (registered calls) namespaces arg

/-- A class name with a prefix that the search takes as it is: a C string without a colon, no longer
than an `int` counts. -/
structure PrefixFits (p : Bytes) : Prop where
  ne_nil : p ≠ []
  nul : NUL ∉ p
  colon : colon ∉ p
  short : p.length < 2 ^ 31

/-- There is something to clear whenever it is cleared. -/
def ClearsMeet (calls : List NamespaceCall) : Prop :=
  ∀ before after, calls = before ++ .clear :: after → registered before ≠ []

/-- A longer name that ends with the prefix twice, when the prefix is looked for from the left. -/
def EndsDoubled (p name : Bytes) : Prop :=
  ∃ front, front ≠ [] ∧ piecesBetween p name = front ++ [[], []]

/-- Both ends of a match: the text before it is empty or ends with a colon, and the text behind it
is empty or starts with one. -/
def Bounded (before after : Bytes) : Prop :=
  (before = [] ∨ before.getLast? = some colon) ∧ (after = [] ∨ after.head? = some colon)

/-- The search in a text finds a match with both ends. Each search starts behind the last match. -/
inductive Hit (p : Bytes) : Bytes → Prop where
  | here {s before after : Bytes} (found : strstr s p = some (before, after))
      (bounded : Bounded before after) : Hit p s
  | later {s before after : Bytes} (found : strstr s p = some (before, after))
      (hit : Hit p after) : Hit p s

section
variable {p s t u before after : Bytes}

theorem hit_iff (h : strstr s p = some (before, after)) :
    Hit p s ↔ Bounded before after ∨ Hit p after := by
  constructor
  · intro hhit
    cases hhit with
    | here found bounded =>
      cases h.symm.trans found
      exact Or.inl bounded
    | later found hit =>
      cases h.symm.trans found
      exact Or.inr hit
  · rintro (hb | hhit)
    · exact .here h hb
    · exact .later h hhit

theorem not_hit (h : strstr s p = none) : ¬Hit p s := by
  intro hhit
  cases hhit with
  | here found _ => cases h.symm.trans found
  | later found _ => cases h.symm.trans found

theorem length_after_lt (hp : p ≠ []) (h : strstr s p = some (before, after)) :
    after.length < s.length := by
  have hpos := List.length_pos_iff.mpr hp
  rw [strstr_split h, List.length_append, List.length_append]
  omega

theorem not_mem_of_strstr {c : UInt8} (hc : c ∉ s) (h : strstr s p = some (before, after)) :
    c ∉ before ∧ c ∉ after := by
  rw [strstr_split h] at hc
  simp only [List.mem_append, not_or] at hc
  exact ⟨hc.1.1, hc.2⟩

/-- A colon behind what is before the match, or behind what is after it, is an end. -/
theorem bounded_behind_colon (t : Bytes) :
    Bounded (t ++ colon :: before) after ↔ Bounded before after := by
  cases before with
  | nil => simp [Bounded]
  | cons c before =>
    have hlast : (t ++ colon :: c :: before).getLast? = (c :: before).getLast? := by
      rw [List.getLast?_append, List.getLast?_cons_cons,
        List.getLast?_eq_getLast_of_ne_nil (List.cons_ne_nil c before), Option.some_or]
    simp [Bounded, hlast]

theorem bounded_before_colon (u : Bytes) :
    Bounded before (after ++ colon :: u) ↔ Bounded before after := by
  cases after <;> simp [Bounded]

/-- A colon the prefix does not hold parts the search. -/
theorem hit_append_colon (hp : p ≠ []) (hcolon : colon ∉ p) (u : Bytes) :
    Hit p (t ++ colon :: u) ↔ Hit p t ∨ Hit p u := by
  induction hn : t.length using Nat.strong_induction_on generalizing t with
  | _ n ih =>
    cases ht : strstr t p with
    | none =>
      have hskip := strstr_skip_piece u hcolon (strstr_eq_none.mp ht)
      simp only [not_hit ht, false_or]
      cases hu : strstr u p with
      | none =>
        rw [hu] at hskip
        simp only [not_hit hu, not_hit hskip]
      | some q =>
        obtain ⟨before, after⟩ := q
        rw [hu] at hskip
        rw [hit_iff hu, hit_iff hskip, bounded_behind_colon]
    | some q =>
      obtain ⟨before, after⟩ := q
      have hlt := length_after_lt hp ht
      rw [hit_iff ht, hit_iff (strstr_append (colon :: u) ht), bounded_before_colon,
        ih after.length (hn ▸ hlt) rfl, or_assoc]

theorem hit_intercalate (hp : p ≠ []) (hcolon : colon ∉ p) (names : List Bytes) :
    Hit p ([colon].intercalate names) ↔ ∃ name ∈ names, Hit p name := by
  induction names with
  | nil =>
    have hnone : strstr [] p = none := by
      rw [strstr_eq_none]
      exact fun h => hp (List.infix_nil.mp h)
    simpa [List.intercalate] using not_hit hnone
  | cons name names ih =>
    by_cases hnil : names = []
    · subst hnil
      simp [List.intercalate]
    · rw [intercalate_cons_of_ne_nil colon hnil, hit_append_colon hp hcolon, ih]
      simp

theorem piecesBetween_none (h : strstr s p = none) : piecesBetween p s = [s] := by
  rw [piecesBetween]
  split
  · rfl
  · split
    · rfl
    · rename_i hs
      cases h.symm.trans hs

theorem piecesBetween_some (hp : p ≠ []) (h : strstr s p = some (before, after)) :
    piecesBetween p s = before :: piecesBetween p after := by
  rw [piecesBetween, dif_neg hp]
  split
  · rename_i hs
    cases h.symm.trans hs
  · rename_i hs
    cases h.symm.trans hs
    rfl

/-- One piece: the whole text. -/
theorem piecesBetween_eq_singleton (hp : p ≠ []) : piecesBetween p s = [t] ↔
    strstr s p = none ∧ s = t := by
  cases h : strstr s p with
  | none => simp [piecesBetween_none h]
  | some q =>
    obtain ⟨before, after⟩ := q
    have hne : piecesBetween p after ≠ [] := by
      cases ha : strstr after p with
      | none => simp [piecesBetween_none ha]
      | some q => simp [piecesBetween_some hp ha]
    simp [piecesBetween_some hp h, hne]

/-- A text with nothing before and nothing behind a match is what is looked for. -/
theorem piecesBetween_eq_self (hp : p ≠ []) : piecesBetween p s = [[], []] ↔ s = p := by
  constructor
  · intro h
    cases hs : strstr s p with
    | none => simp [piecesBetween_none hs] at h
    | some q =>
      obtain ⟨before, after⟩ := q
      rw [piecesBetween_some hp hs, List.cons.injEq, piecesBetween_eq_singleton hp] at h
      obtain ⟨rfl, -, rfl⟩ := h
      simpa using strstr_split hs
  · rintro rfl
    have hs : strstr s s = some ([], []) := by simpa using strstr_here (d := s) []
    have hnone : strstr [] s = none := by
      rw [strstr_eq_none]
      exact fun h => hp (List.infix_nil.mp h)
    rw [piecesBetween_some hp hs, piecesBetween_none hnone]

/-- In a text without a colon the matches that count are at the end. -/
theorem hit_iff_suffix (hp : p ≠ []) (hcolon : colon ∉ s) :
    Hit p s ↔ [[], []] <:+ piecesBetween p s := by
  induction hn : s.length using Nat.strong_induction_on generalizing s with
  | _ n ih =>
    cases hs : strstr s p with
    | none =>
      rw [piecesBetween_none hs]
      simp only [not_hit hs, false_iff]
      intro h
      exact absurd h.length_le (by simp)
    | some q =>
      obtain ⟨before, after⟩ := q
      obtain ⟨hbefore, hafter⟩ := not_mem_of_strstr hcolon hs
      have hbounded : Bounded before after ↔ [[], []] = before :: piecesBetween p after := by
        have hlast : before.getLast? ≠ some colon := fun h => hbefore (List.mem_of_getLast? h)
        have hhead : after.head? ≠ some colon := fun h => hafter (List.mem_of_head? h)
        have hnil : piecesBetween p after = [[]] ↔ after = [] := by
          rw [piecesBetween_eq_singleton hp]
          refine ⟨And.right, ?_⟩
          rintro rfl
          rw [strstr_eq_none]
          exact ⟨fun h => hp (List.infix_nil.mp h), rfl⟩
        simp only [Bounded, hlast, hhead, or_false, List.cons.injEq]
        rw [eq_comm (a := ([] : Bytes)), eq_comm (a := [[]]), hnil]
      rw [hit_iff hs, piecesBetween_some hp hs, List.suffix_cons_iff, hbounded,
        ih after.length (hn ▸ length_after_lt hp hs) hafter rfl]

/-- A registered name that makes the search say yes is the prefix itself or ends with it twice. -/
theorem hit_name_iff (hp : p ≠ []) (hcolon : colon ∉ s) :
    Hit p s ↔ s = p ∨ EndsDoubled p s := by
  rw [hit_iff_suffix hp hcolon, ← piecesBetween_eq_self hp]
  constructor
  · rintro ⟨front, hfront⟩
    by_cases hnil : front = []
    · subst hnil
      exact Or.inl hfront.symm
    · exact Or.inr ⟨front, hnil, hfront.symm⟩
  · rintro (h | ⟨front, -, hfront⟩)
    · exact ⟨[], h.symm⟩
    · exact ⟨front, hfront.symm⟩

end

section
variable {list before after : Bytes} {cut : ClassCut} {ns : Nat}

/-- The character behind a match, when the rest of the list is behind it. -/
theorem charAt_behind (hnul : NUL ∉ list) {i : Nat} (hi : i ≤ list.length)
    (hdrop : list.drop i = after) : ∃ c, charAt list i = some c ∧
      (endsName c = true ↔ after = [] ∨ after.head? = some colon) := by
  have hchar : charAt list i = (after ++ [NUL]).head? := by
    rw [charAt, ← hdrop, ← List.drop_append_of_le_length hi, List.head?_drop]
  rw [hchar]
  cases after with
  | nil => exact ⟨NUL, rfl, by simp [endsName]⟩
  | cons c after =>
    have hc : c ≠ NUL := by
      rintro rfl
      exact hnul (List.drop_subset i list (hdrop ▸ List.mem_cons_self))
    exact ⟨c, rfl, by simp [endsName, hc]⟩

/-- A turn that finds a match, in terms of what is left of the list. -/
theorem searchTurn_match (hnul : NUL ∉ list) (hlen : cut.prefixLen = cut.namePrefix.length)
    (hns : ns ≤ list.length)
    (h : strstr (list.drop ns) cut.namePrefix = some (before, after)) :
    list.drop (ns + before.length + cut.namePrefix.length) = after ∧
      (Bounded before after ∧ searchTurn list cut ns = .ended true ∨
        ¬Bounded before after ∧
          searchTurn list cut ns = .on (ns + before.length + cut.namePrefix.length)) := by
  have hsplit := strstr_split h
  have hdrop : list.drop (ns + before.length + cut.namePrefix.length) = after := by
    rw [Nat.add_assoc, ← List.drop_drop, hsplit, ← List.length_append, List.drop_left]
  have hcstr : cstr (list.drop ns) = list.drop ns :=
    cstr_of_no_nul fun hm => hnul (List.drop_subset ns list hm)
  have hin := match_inside hns (by rw [hcstr]; exact h)
  obtain ⟨d, hplace, hd⟩ := placeBehind_eq hlen hin
  obtain ⟨c, hc, hend⟩ := charAt_behind hnul hin hdrop
  obtain rfl : c = d := Option.some.inj (hc.symm.trans hd)
  refine ⟨hdrop, ?_⟩
  rw [searchTurn, hcstr, h]
  dsimp only
  rw [hplace]
  dsimp only
  cases before with
  | nil =>
    by_cases he : endsName c = true
    · exact Or.inl ⟨⟨Or.inl rfl, hend.mp he⟩, by simp [he]⟩
    · exact Or.inr ⟨fun hb => he (hend.mpr hb.2), by simp [he]⟩
  | cons b before =>
    have hlast : list[ns + (b :: before).length - 1]? = (b :: before).getLast? := by
      have hpos : ns + (b :: before).length - 1 = ns + before.length := by
        rw [List.length_cons]
        omega
      rw [hpos, ← List.getElem?_drop, hsplit, List.append_assoc, List.getLast?_eq_getElem?,
        List.getElem?_append_left (by simp), List.length_cons, Nat.add_sub_cancel]
    rw [hlast]
    simp only [Bounded, ← hend, List.length_cons]
    by_cases hl : (b :: before).getLast? = some colon <;> by_cases he : endsName c = true <;>
      simp [hl, he]

/-- Whatever number of turns gives an answer, it says whether the search finds a match. -/
theorem search_answer (hnul : NUL ∉ list) (hp : cut.namePrefix ≠ [])
    (hlen : cut.prefixLen = cut.namePrefix.length) {found : Bool} (turns : Nat) :
    ∀ {ns}, ns ≤ list.length → search list cut turns ns = .ended found →
      (found = true ↔ Hit cut.namePrefix (list.drop ns)) := by
  induction turns with
  | zero => intro ns _ h; cases h
  | succ turns ih =>
    intro ns hns h
    rw [search] at h
    cases hs : strstr (list.drop ns) cut.namePrefix with
    | none =>
      have hcstr : cstr (list.drop ns) = list.drop ns :=
        cstr_of_no_nul fun hm => hnul (List.drop_subset ns list hm)
      rw [searchTurn, hcstr, hs] at h
      cases h
      simp [not_hit hs]
    | some q =>
      obtain ⟨before, after⟩ := q
      obtain ⟨hdrop, ⟨hbounded, hturn⟩ | ⟨hbounded, hturn⟩⟩ := searchTurn_match hnul hlen hns hs
      · rw [hturn] at h
        cases h
        simp [hit_iff hs, hbounded]
      · rw [hturn] at h
        have hon := searchTurn_on hp hlen hns hturn
        rw [ih hon.2 h, hdrop, hit_iff hs]
        simp [hbounded]

end

section
variable {names : List Bytes} {namespaces : Option Bytes} {calls : List NamespaceCall}

/-- The list the names make. -/
def joinedNames (names : List Bytes) : Option Bytes :=
  if names = [] then none else some ([colon].intercalate names)

theorem intercalate_append_singleton (hne : names ≠ []) (name : Bytes) :
    [colon].intercalate (names ++ [name]) = [colon].intercalate names ++ colon :: name := by
  induction names with
  | nil => exact absurd rfl hne
  | cons n names ih =>
    by_cases hnil : names = []
    · subst hnil
      simp [List.intercalate]
    · rw [List.cons_append, intercalate_cons_of_ne_nil colon (by simp),
        intercalate_cons_of_ne_nil colon hnil, ih hnil, List.append_assoc, List.cons_append]

theorem registerNamespaceSingle_joined {name : Bytes} (h : NamespaceName name) :
    some (registerNamespaceSingle (joinedNames names) name) = joinedNames (names ++ [name]) := by
  by_cases hnil : names = []
  · subst hnil
    simp [joinedNames, registerNamespaceSingle, List.intercalate]
  · simp [joinedNames, hnil, registerNamespaceSingle, cstr_of_no_nul h.nul,
      intercalate_append_singleton hnil]

theorem registerNamespaceMulti_joined {t : Table Key Zval}
    (h : ∀ p ∈ t, ∃ name, p.2 = .string name ∧ NamespaceName name) :
    registerNamespaceMulti (joinedNames names) t =
      joinedNames (names ++ t.filterMap fun p => p.2.string?) := by
  induction t generalizing names with
  | nil => simp [registerNamespaceMulti]
  | cons p t ih =>
    obtain ⟨name, hp, hname⟩ := h p List.mem_cons_self
    have hih : registerNamespaceMulti (joinedNames (names ++ [name])) t =
        joinedNames (names ++ [name] ++ t.filterMap fun p => p.2.string?) :=
      ih fun q hq => h q (List.mem_cons_of_mem _ hq)
    rw [registerNamespaceMulti, List.foldl_cons, hp, List.filterMap_cons, hp]
    simp only [Zval.string?_string]
    rw [registerNamespaceSingle_joined hname, ← registerNamespaceMulti, hih, List.append_assoc,
      List.singleton_append]

theorem step_register {v : Zval} (h : (NamespaceCall.register v).WellNamed) :
    (NamespaceCall.register v).step (joinedNames names) =
      some (joinedNames ((NamespaceCall.register v).after names)) := by
  cases v with
  | string name =>
    exact congrArg some (registerNamespaceSingle_joined h)
  | array t => exact congrArg some (registerNamespaceMulti_joined h)
  | _ => cases h

theorem step_clear : NamespaceCall.clear.step (joinedNames names) =
    if names = [] then none else some (joinedNames []) := by
  by_cases hnil : names = [] <;> simp [NamespaceCall.step, joinedNames, hnil]

theorem names_ok {call : NamespaceCall} (h : call.WellNamed) : ∀ name ∈ call.names,
    NamespaceName name := by
  cases call with
  | clear => simp [NamespaceCall.names]
  | register v =>
    cases v with
    | string name =>
      intro n hn
      obtain rfl := List.mem_singleton.mp hn
      exact h
    | array t =>
      intro name hname
      obtain ⟨p, hp, hv⟩ := List.mem_filterMap.mp hname
      obtain ⟨name', hn, hok⟩ := h p hp
      rw [hn] at hv
      cases hv
      exact hok
    | _ => cases h

theorem after_ok {call : NamespaceCall} (hcall : call.WellNamed)
    (hnames : ∀ name ∈ names, NamespaceName name) :
    ∀ name ∈ call.after names, NamespaceName name := by
  cases call with
  | clear => simp [NamespaceCall.after]
  | register v =>
    intro name hname
    rcases List.mem_append.mp hname with h | h
    · exact hnames name h
    · exact names_ok hcall name h

/-- What a run leaves: the list of the names since the last clear. -/
theorem run_joined (names : List Bytes) (hcalls : ∀ call ∈ calls, call.WellNamed)
    (h : calls.foldlM NamespaceCall.step (joinedNames names) = some namespaces) :
    namespaces = joinedNames (calls.foldl NamespaceCall.after names) := by
  induction calls generalizing names with
  | nil => exact (Option.some.inj h).symm
  | cons call calls ih =>
    rw [List.foldlM_cons, Option.bind_eq_bind, Option.bind_eq_some_iff] at h
    obtain ⟨next, hstep, hrest⟩ := h
    have hcall := hcalls call List.mem_cons_self
    have hnext : next = joinedNames (call.after names) := by
      cases call with
      | clear =>
        rw [step_clear] at hstep
        split at hstep
        · cases hstep
        · exact (Option.some.inj hstep).symm
      | register v =>
        rw [step_register hcall] at hstep
        exact (Option.some.inj hstep).symm
    subst hnext
    exact ih _ (fun c hc => hcalls c (List.mem_cons_of_mem _ hc)) hrest

/-- A run faults at the first clear that finds nothing. -/
theorem run_isSome (names : List Bytes) (hcalls : ∀ call ∈ calls, call.WellNamed) :
    (calls.foldlM NamespaceCall.step (joinedNames names)).isSome = true ↔
      ∀ before after, calls = before ++ .clear :: after →
        before.foldl NamespaceCall.after names ≠ [] := by
  induction calls generalizing names with
  | nil => simp
  | cons call calls ih =>
    have hrest := fun c hc => hcalls c (List.mem_cons_of_mem call hc)
    -- a clear further on is a clear of the rest
    have hcons : (∀ before after, call :: calls = before ++ .clear :: after →
        before.foldl NamespaceCall.after names ≠ []) ↔
        (call = .clear → names ≠ []) ∧ ∀ before after, calls = before ++ .clear :: after →
          before.foldl NamespaceCall.after (call.after names) ≠ [] := by
      constructor
      · intro h
        refine ⟨fun hclear => h [] calls (by rw [hclear]; rfl), fun before after heq => ?_⟩
        exact h (call :: before) after (by rw [heq]; rfl)
      · rintro ⟨hfirst, hlater⟩ before after heq
        cases before with
        | nil => exact hfirst (List.cons.inj heq).1
        | cons c before =>
          obtain ⟨hc, htail⟩ := List.cons.inj heq
          rw [List.foldl_cons, ← hc]
          exact hlater before after htail
    rw [List.foldlM_cons, Option.bind_eq_bind, hcons]
    cases call with
    | register v =>
      rw [step_register (hcalls _ List.mem_cons_self), Option.bind_some, ih _ hrest]
      simp
    | clear =>
      rw [step_clear]
      by_cases hnil : names = []
      · simp [hnil]
      · rw [if_neg hnil, Option.bind_some, ih _ hrest]
        simp [hnil, NamespaceCall.after]

theorem registered_ok (hcalls : ∀ call ∈ calls, call.WellNamed)
    (hnames : ∀ name ∈ names, NamespaceName name) :
    ∀ name ∈ calls.foldl NamespaceCall.after names, NamespaceName name := by
  induction calls generalizing names with
  | nil => exact hnames
  | cons call calls ih =>
    exact ih (fun c hc => hcalls c (List.mem_cons_of_mem _ hc))
      (after_ok (hcalls call List.mem_cons_self) hnames)

theorem nul_not_mem_intercalate (hnames : ∀ name ∈ names, NamespaceName name) :
    NUL ∉ [colon].intercalate names :=
  not_mem_intercalate (by decide) fun name hname => (hnames name hname).nul

/-- A separator behind a C string is found in the C string, at the same place. -/
theorem cstr_takeWhile {s : Bytes} {c : UInt8} (hc : c ≠ NUL) (hmem : c ∈ s)
    (hnul : NUL ∉ s.takeWhile (· != c)) :
    c ∈ cstr s ∧ (cstr s).takeWhile (· != c) = s.takeWhile (· != c) := by
  obtain ⟨rest, hrest⟩ := takeWhile_split hmem
  have hfront : ∀ d ∈ s.takeWhile (· != c), (d != c) = true :=
    bne_of_not_mem (not_mem_takeWhile_bne c s)
  generalize s.takeWhile (· != c) = before at *
  have hcut : cstr s = before ++ c :: cstr rest := by
    rw [hrest, cstr_append hnul, cstr, List.takeWhile_cons_of_pos (by simpa using hc), cstr]
  rw [hcut, List.takeWhile_append_of_pos hfront]
  simp

/-- A class name whose prefix is a C string is cut at that prefix. -/
theorem classPrefix_cstr {className : Bytes} (h : NUL ∉ classPrefix className)
    (hshort : (classPrefix className).length < 2 ^ 31) :
    classPrefix (cstr className) = classPrefix className ∧ CutInside className := by
  unfold classPrefix at *
  by_cases hunderscore : underscore ∈ className
  · rw [if_pos hunderscore] at *
    obtain ⟨hmem, hsame⟩ := cstr_takeWhile (by decide) hunderscore h
    rw [if_pos hmem]
    exact ⟨hsame, fun _ => Or.inl hmem⟩
  · rw [if_neg hunderscore] at *
    rw [if_neg fun hm => hunderscore ((cstr_front className).subset hm)]
    by_cases hbackslash : backslash ∈ className
    · obtain ⟨hmem, hsame⟩ := cstr_takeWhile (by decide) hbackslash h
      exact ⟨hsame, fun _ => Or.inr hmem⟩
    · rw [takeWhile_bne hbackslash] at h hshort
      rw [cstr_of_no_nul h]
      exact ⟨rfl, fun hm => absurd hm (not_or.mpr ⟨h, Nat.not_le.mpr hshort⟩)⟩

/-- The answer about a class name, from the list of the names. -/
theorem answersFor_own_iff (hnames : ∀ name ∈ names, NamespaceName name) {className : Bytes}
    (hfits : PrefixFits (classPrefix className)) :
    AnswersFor names (joinedNames names) (.own className) ↔ classPrefix className ∈ names ∨
      ∀ name ∈ names, ¬EndsDoubled (classPrefix className) name := by
  by_cases hnil : names = []
  · subst hnil
    simp only [List.not_mem_nil, false_imp_iff, implies_true, or_true, iff_true]
    exact ⟨0, false, rfl, by simp⟩
  have hp := hfits.ne_nil
  obtain ⟨hsame, hinside⟩ := classPrefix_cstr hfits.nul hfits.short
  obtain ⟨hname, hback, hlen⟩ := cutClassName_spec className
  have hlen := hlen hinside
  rw [hsame] at hname hlen
  rw [← hname] at hlen
  have hlist := nul_not_mem_intercalate hnames
  have hne : (cutClassName className).namePrefix ≠ [] := by rwa [hname]
  obtain ⟨found, hfound⟩ : ∃ found, search ([colon].intercalate names) (cutClassName className)
      (([colon].intercalate names).length + 1) 0 = .ended found :=
    search_ends hne hlen _ (Nat.zero_le _) (by omega)
  have hhit : ∀ turns found, search ([colon].intercalate names) (cutClassName className) turns 0 =
      .ended found → (found = true ↔ classPrefix className ∈ names ∨
        ∃ name ∈ names, EndsDoubled (classPrefix className) name) := by
    intro turns found h
    rw [search_answer hlist hne hlen turns (Nat.zero_le _) h, List.drop_zero, hname,
      hit_intercalate hp hfits.colon]
    constructor
    · rintro ⟨name, hmem, hhit⟩
      rcases (hit_name_iff hp (hnames name hmem).colon).mp hhit with rfl | hdoubled
      · exact Or.inl hmem
      · exact Or.inr ⟨name, hmem, hdoubled⟩
    · rintro (hmem | ⟨name, hmem, hdoubled⟩)
      · exact ⟨_, hmem, (hit_name_iff hp (hnames _ hmem).colon).mpr (Or.inl rfl)⟩
      · exact ⟨name, hmem, (hit_name_iff hp (hnames name hmem).colon).mpr (Or.inr hdoubled)⟩
  have hanswer :
    ∀ turns found, search ([colon].intercalate names) (cutClassName className) turns 0 =
      .ended found →
      isLocalNamespace (joinedNames names) (.own className) turns = (.ended found, className) := by
    intro turns found h
    simp [isLocalNamespace, joinedNames, hnil, ClassArg.text, ClassArg.searched, h, hback]
  constructor
  · rintro ⟨turns, found', hcall, hiff⟩
    have hsearch : search ([colon].intercalate names) (cutClassName className) turns 0 =
        .ended found' := by
      cases hturn : search ([colon].intercalate names) (cutClassName className) turns 0 with
      | ended found =>
        rw [hanswer turns found hturn] at hcall
        cases hcall
        rfl
      | on ns =>
        simp [isLocalNamespace, joinedNames, hnil, ClassArg.text, ClassArg.searched,
          hturn] at hcall
      | outside =>
        simp [isLocalNamespace, joinedNames, hnil, ClassArg.text, ClassArg.searched,
          hturn] at hcall
    by_cases hmem : classPrefix className ∈ names
    · exact Or.inl hmem
    · refine Or.inr fun name hn hdoubled => hmem (hiff.mp ?_)
      exact (hhit turns found' hsearch).mpr (Or.inr ⟨name, hn, hdoubled⟩)
  · intro h
    refine ⟨_, found, hanswer _ found hfound, ?_⟩
    rw [hhit _ found hfound]
    constructor
    · rintro (hmem | ⟨name, hn, hdoubled⟩)
      · exact hmem
      · rcases h with hmem | hno
        · exact hmem
        · exact absurd hdoubled (hno name hn)
    · exact Or.inl

theorem answersFor_handedOut_iff (hnil : names ≠ [])
    (hfits : PrefixFits (classPrefix (askedFor (joinedNames names) .handedOut))) :
    AnswersFor names (joinedNames names) .handedOut ↔
      classPrefix (askedFor (joinedNames names) .handedOut) ∈ names := by
  generalize hlist : [colon].intercalate names = list
  have hjoined : joinedNames names = some list := by rw [joinedNames, if_neg hnil, hlist]
  have hasked : askedFor (joinedNames names) .handedOut = list := by rw [hjoined]; rfl
  rw [AnswersFor, hasked]
  rw [hasked] at hfits
  have hinside := (classPrefix_cstr hfits.nul hfits.short).2
  have hsafe : SearchSafe list .handedOut := fun hlong => hinside (Or.inr hlong)
  have hcall : ∀ turns, isLocalNamespace (joinedNames names) .handedOut (turns + 1) =
      (.ended true, list) := by
    rw [hjoined]
    exact isLocalNamespace_handedOut hsafe
  constructor
  · rintro ⟨turns, found, h, hiff⟩
    cases turns with
    | zero =>
      simp [isLocalNamespace, hjoined, ClassArg.text, search] at h
    | succ turns =>
      rw [hcall] at h
      cases h
      exact hiff.mp rfl
  · exact fun hmem => ⟨1, true, hcall 0, by simp [hmem]⟩

theorem answersFor_iff (hnames : ∀ name ∈ names, NamespaceName name) {arg : ClassArg}
    (hfits : PrefixFits (classPrefix (askedFor (joinedNames names) arg))) :
    AnswersFor names (joinedNames names) arg ↔
      classPrefix (askedFor (joinedNames names) arg) ∈ names ∨
        arg ≠ .handedOut ∧
          ∀ name ∈ names, ¬EndsDoubled (classPrefix (askedFor (joinedNames names) arg)) name := by
  cases arg with
  | own className =>
    have hasked : askedFor (joinedNames names) (.own className) = className := rfl
    rw [hasked] at hfits ⊢
    simpa using answersFor_own_iff hnames hfits
  | handedOut =>
    have hnil : names ≠ [] := by
      rintro rfl
      exact hfits.ne_nil rfl
    simpa using answersFor_handedOut_iff hnil hfits

end

/-- No call faults exactly when there is something to clear whenever it is cleared. Afterwards a
class name is answered for when its prefix is registered, or when it is not the string of the list
and no registered name ends with its prefix twice. -/
theorem local_names_iff (calls : List NamespaceCall) (hcalls : ∀ call ∈ calls, call.WellNamed) :
    ((NamespaceCall.run calls).isSome = true ↔ ClearsMeet calls) ∧
      ∀ namespaces, NamespaceCall.run calls = some namespaces → ∀ arg,
        PrefixFits (classPrefix (askedFor namespaces arg)) →
        (AnswersFor (registered calls) namespaces arg ↔
          classPrefix (askedFor namespaces arg) ∈ registered calls ∨
            arg ≠ .handedOut ∧ ∀ name ∈ registered calls,
              ¬EndsDoubled (classPrefix (askedFor namespaces arg)) name) := by
  refine ⟨run_isSome [] hcalls, fun namespaces hrun arg hfits => ?_⟩
  rw [run_joined [] hcalls hrun] at hfits ⊢
  exact answersFor_iff (registered_ok hcalls (by simp)) hfits

/-- Two names are registered, all is cleared, and a third is registered. -/
def registerCalls : List NamespaceCall := [
  .register (.array [(.index 0, .string (lit "Foo")), (.index 1, .string (lit "Bar"))]),
  .clear,
  .register (.string (lit "FooFoo"))]

theorem local_names_iff_sample :
    ((NamespaceCall.run registerCalls).isSome = true ↔ ClearsMeet registerCalls) ∧
      ∀ namespaces, NamespaceCall.run registerCalls = some namespaces → ∀ arg,
        PrefixFits (classPrefix (askedFor namespaces arg)) →
        (AnswersFor (registered registerCalls) namespaces arg ↔
          classPrefix (askedFor namespaces arg) ∈ registered registerCalls ∨
            arg ≠ .handedOut ∧ ∀ name ∈ registered registerCalls,
              ¬EndsDoubled (classPrefix (askedFor namespaces arg)) name) := by
  apply local_names_iff
  intro call hcall
  simp only [registerCalls, List.mem_cons, List.not_mem_nil, or_false] at hcall
  have hfoo : NamespaceName (lit "Foo") := ⟨by decide, by decide, by decide⟩
  have hbar : NamespaceName (lit "Bar") := ⟨by decide, by decide, by decide⟩
  have hlong : NamespaceName (lit "FooFoo") :=
    ⟨by decide, by decide, by decide⟩
  rcases hcall with rfl | rfl | rfl
  · rintro p hp
    simp only [List.mem_cons, List.not_mem_nil, or_false] at hp
    rcases hp with rfl | rfl
    · exact ⟨_, rfl, hfoo⟩
    · exact ⟨_, rfl, hbar⟩
  · trivial
  · exact hlong

/-- A clear with nothing registered faults; and `Foo` is a local name when `FooFoo` is
registered. -/
theorem local_names_not_kept :
    ¬LocalNamesKept [.clear] ∧ ¬LocalNamesKept [.register (.string (lit "FooFoo"))] := by
  constructor
  · intro h
    cases h.goes
  · intro h
    obtain ⟨turns, found, hcall, hiff⟩ := h.answers _ rfl (.own (lit "Foo")) (by decide)
    have hfirst : searchTurn (lit "FooFoo") (cutClassName (lit "Foo")) 0 = .on 3 := by
      decide
    have hsecond : searchTurn (lit "FooFoo") (cutClassName (lit "Foo")) 3 = .ended true := by
      decide
    have hnot : classPrefix (lit "Foo") ∉ registered [.register (.string (lit "FooFoo"))] := by
      change classPrefix (lit "Foo") ∉ [lit "FooFoo"]
      decide
    have htrue : found = true := by
      change isLocalNamespace (some (lit "FooFoo")) (.own (lit "Foo")) _ = _ at hcall
      cases turns with
      | zero => cases hcall
      | succ turns =>
        cases turns with
        | zero =>
          simp [isLocalNamespace, ClassArg.text, ClassArg.searched, search, hfirst] at hcall
        | succ turns =>
          simp [isLocalNamespace, ClassArg.text, ClassArg.searched, search, hfirst,
            hsecond] at hcall
          exact hcall.1
    exact hnot (hiff.mp htrue)

end Yaf
