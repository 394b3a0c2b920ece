import Yaf.Base.Buffer
import Yaf.Dispatcher.Names

namespace Yaf
open Base

/-- The loop of `yaf_dispatcher_fix_default` that raises a letter behind a separator, over the copy
of the controller. `none` stands for a character outside of it. -/
def raiseLoop (buf : Bytes) (q : Nat) : Option Bytes :=
  match h : buf[q]? with
  | none => none
  | some c =>
    if c = NUL then some buf
    else if c = underscore ∨ c = backslash then
      match buf[q + 1]? with
      | none => none
      | some d =>
        if d = NUL then raiseLoop buf (q + 1)
        else raiseLoop (buf.set (q + 1) (toUpper d)) (q + 2)
    else raiseLoop buf (q + 1)
termination_by buf.length - q
decreasing_by
  all_goals
    have hlt := (List.getElem?_eq_some_iff.mp h).1
    try rw [List.length_set]
    omega

/-- The copy of the controller, and what is stored of it at the end. -/
def fixControllerCopy (s : Bytes) : Option Bytes :=
  (raiseLoop ((s.map toLower ++ [NUL]).modifyHead toUpper) 0).map (List.take s.length)

section
variable {c d : UInt8} (pre s : Bytes)

theorem raiseLoop_nul : raiseLoop (pre ++ NUL :: s) pre.length = some (pre ++ NUL :: s) := by
  rw [raiseLoop, Buffer.getElem?_middle]
  simp

/-- Any other character is left behind. -/
theorem raiseLoop_other (hn : c ≠ NUL) (hc : ¬(c = underscore ∨ c = backslash)) :
    raiseLoop (pre ++ c :: s) pre.length = raiseLoop ((pre ++ [c]) ++ s) (pre ++ [c]).length := by
  rw [raiseLoop, Buffer.getElem?_middle]
  simp [hn, hc]

/-- A separator at the end is left behind, any other raises what follows. -/
theorem raiseLoop_separator (hn : c ≠ NUL) (hc : c = underscore ∨ c = backslash) :
    raiseLoop (pre ++ c :: d :: s) pre.length =
      if d = NUL then raiseLoop ((pre ++ [c]) ++ d :: s) (pre ++ [c]).length
      else raiseLoop ((pre ++ [c, toUpper d]) ++ s) (pre ++ [c, toUpper d]).length := by
  have hnext : (pre ++ c :: d :: s)[pre.length + 1]? = some d := by simp
  have hset : (pre ++ c :: d :: s).set (pre.length + 1) (toUpper d) =
      pre ++ [c, toUpper d] ++ s := by
    rw [List.set_append_right _ _ (Nat.le_add_right _ 1), Nat.add_sub_cancel_left]
    simp
  rw [raiseLoop, Buffer.getElem?_middle]
  simp only [hn, if_false, hc, if_true, hnext, hset]
  simp

end

/-- The loop stays inside the copy, and does what `raiseAfter` does with the text. -/
theorem raiseLoop_eq (pre s : Bytes) :
    raiseLoop (pre ++ (s ++ [NUL])) pre.length = some (pre ++ (raiseAfter s ++ [NUL])) := by
  fun_induction raiseAfter s generalizing pre with
  | case1 => exact raiseLoop_nul pre []
  | case2 s => exact raiseLoop_nul pre (s ++ [NUL])
  | case3 c hn hc =>
    rw [List.singleton_append, raiseLoop_separator pre [] hn hc, if_pos rfl, raiseLoop_nul]
    simp
  | case4 c hn hc s =>
    rw [List.cons_append, List.cons_append, raiseLoop_separator pre _ hn hc, if_pos rfl,
      raiseLoop_nul]
    simp
  | case5 c hn hc d s hd ih =>
    rw [List.cons_append, List.cons_append, raiseLoop_separator pre _ hn hc, if_neg hd, ih]
    simp
  | case6 c s hn hc ih =>
    rw [List.cons_append, raiseLoop_other pre _ hn hc, ih]
    simp

theorem length_raiseAfter (s : Bytes) : (raiseAfter s).length = s.length := by
  fun_induction raiseAfter s with
  | case1 => rfl
  | case2 => rfl
  | case3 => rfl
  | case4 => rfl
  | case5 c hn hc d s hd ih => simp [ih]
  | case6 c s hn hc ih => simp [ih]

theorem fixController_eq (s : Bytes) :
    fixController s = raiseAfter ((s.map toLower).modifyHead toUpper) := by
  rw [fixController]
  cases s with
  | nil => simp [raiseAfter]
  | cons c s => rfl

/-- What is stored is the copy without its terminator. -/
theorem fixControllerCopy_eq (s : Bytes) : fixControllerCopy s = some (fixController s) := by
  have hcopy : (s.map toLower ++ [NUL]).modifyHead toUpper =
      (s.map toLower).modifyHead toUpper ++ [NUL] := by
    cases s with
    | nil => rfl
    | cons c s => rfl
  have hlen : s.length = (raiseAfter ((s.map toLower).modifyHead toUpper)).length := by
    simp [length_raiseAfter]
  have hloop := raiseLoop_eq [] ((s.map toLower).modifyHead toUpper)
  rw [List.nil_append, List.nil_append, List.length_nil] at hloop
  rw [fixControllerCopy, hcopy, hloop, Option.map_some, fixController_eq, hlen, List.take_left]

def isSeparator (c : UInt8) : Bool := c == underscore || c == backslash

/-- How many separators stand directly before a position. -/
def separatorsBefore (s : Bytes) (i : Nat) : Nat :=
  ((s.take i).reverse.takeWhile isSeparator).length

theorem isSeparator_iff {c : UInt8} : isSeparator c = true ↔ c = underscore ∨ c = backslash := by
  simp [isSeparator]

/-- A character further in front counts only when nothing but separators follows. -/
theorem separatorsBefore_cons (c : UInt8) (s : Bytes) (i : Nat) :
    separatorsBefore (c :: s) (i + 1) =
      if separatorsBefore s i = (s.take i).length then
        (s.take i).length + (if isSeparator c then 1 else 0)
      else separatorsBefore s i := by
  have hsplit : separatorsBefore (c :: s) (i + 1) =
      (((s.take i).reverse ++ [c]).takeWhile isSeparator).length := by
    rw [separatorsBefore, List.take_succ_cons, List.reverse_cons]
  have hlen : separatorsBefore s i = ((s.take i).reverse.takeWhile isSeparator).length := rfl
  rw [hsplit, hlen, List.takeWhile_append, List.length_reverse]
  split_ifs with hall hc
  · simp [hc]
  · simp [hc]
  · rfl

theorem separatorsBefore_cons_other {c : UInt8} (hc : isSeparator c = false) (s : Bytes) (i : Nat) :
    separatorsBefore (c :: s) (i + 1) = separatorsBefore s i := by
  rw [separatorsBefore_cons, hc]
  split
  · simp_all
  · rfl

/-- A separator and what follows it leave odd and even as they are. -/
theorem separatorsBefore_cons_cons {c : UInt8} (hc : isSeparator c = true) (d : UInt8) (s : Bytes)
    (i : Nat) : separatorsBefore (c :: d :: s) (i + 2) % 2 = separatorsBefore s i % 2 := by
  rw [separatorsBefore_cons, separatorsBefore_cons, hc]
  simp only [List.take_succ_cons, List.length_cons, if_true]
  have hle : separatorsBefore s i ≤ (s.take i).length := by
    have h := (List.takeWhile_prefix (p := isSeparator) (l := (s.take i).reverse)).length_le
    rwa [List.length_reverse] at h
  generalize (s.take i).length = n at hle ⊢
  split_ifs <;> omega

/-- The letters behind an odd number of separators are raised. -/
theorem getElem?_raiseAfter {s : Bytes} (hs : NUL ∉ s) (i : Nat) :
    (raiseAfter s)[i]? =
      s[i]?.map fun c => if separatorsBefore s i % 2 = 1 then toUpper c else c := by
  fun_induction raiseAfter s generalizing i with
  | case1 => simp
  | case2 => simp at hs
  | case3 c hn hc =>
    cases i with
    | zero => simp [separatorsBefore]
    | succ i => simp
  | case4 => simp at hs
  | case5 c hn hc d s hd ih =>
    have hsep : isSeparator c = true := isSeparator_iff.mpr hc
    rcases i with _ | _ | i
    · simp [separatorsBefore]
    · simp [separatorsBefore, hsep]
    · rw [separatorsBefore_cons_cons hsep]
      simpa using ih (fun h => hs (by simp [h])) i
  | case6 c s hn hc ih =>
    have hsep : isSeparator c = false := by
      simpa [isSeparator] using hc
    cases i with
    | zero => simp [separatorsBefore]
    | succ i =>
      rw [separatorsBefore_cons_other hsep]
      simpa using ih (fun h => hs (by simp [h])) i

theorem separatorsBefore_succ {s : Bytes} {i : Nat} {d : UInt8} (hd : s[i]? = some d) :
    separatorsBefore s (i + 1) = if isSeparator d then separatorsBefore s i + 1 else 0 := by
  have htake : (s.take (i + 1)).reverse = d :: (s.take i).reverse := by
    simp [List.take_add_one, hd]
  rw [separatorsBefore, separatorsBefore, htake, List.takeWhile_cons]
  split_ifs
  · rfl
  · rfl

theorem separatorsBefore_congr {s t : Bytes} (h : s.map isSeparator = t.map isSeparator) (i : Nat) :
    separatorsBefore s i = separatorsBefore t i := by
  have hcount : ∀ u : Bytes, separatorsBefore u i =
      (((u.map isSeparator).take i).reverse.takeWhile id).length := by
    intro u
    rw [separatorsBefore, ← List.map_take, ← List.map_reverse, List.takeWhile_map, List.length_map]
    rfl
  rw [hcount, hcount, h]

theorem isSeparator_toLower (c : UInt8) : isSeparator (toLower c) = isSeparator c := by
  unfold isSeparator underscore backslash toLower
  grind

theorem isSeparator_toUpper (c : UInt8) : isSeparator (toUpper c) = isSeparator c := by
  unfold isSeparator underscore backslash toUpper
  grind

theorem toUpper_toLower (c : UInt8) : toUpper (toLower c) = toUpper c := by
  unfold toUpper toLower
  grind

/-- The copy before the loop: lower case, the first letter raised. -/
def loweredCopy (s : Bytes) : Bytes := (s.map toLower).modifyHead toUpper

theorem getElem?_loweredCopy (s : Bytes) (i : Nat) :
    (loweredCopy s)[i]? = s[i]?.map fun c => if i = 0 then toUpper c else toLower c := by
  cases s with
  | nil => rfl
  | cons c s =>
    cases i with
    | zero => simp [loweredCopy, toUpper_toLower]
    | succ i => simp [loweredCopy]

theorem separatorsBefore_loweredCopy (s : Bytes) (i : Nat) :
    separatorsBefore (loweredCopy s) i = separatorsBefore s i := by
  apply separatorsBefore_congr
  cases s with
  | nil => rfl
  | cons c s =>
    simp [loweredCopy, isSeparator_toLower, isSeparator_toUpper, Function.comp_def]

theorem nul_mem_loweredCopy {s : Bytes} (hs : NUL ∉ s) : NUL ∉ loweredCopy s := by
  intro h
  obtain ⟨i, hi⟩ := List.mem_iff_getElem?.mp h
  rw [getElem?_loweredCopy] at hi
  obtain ⟨c, hc, heq⟩ := Option.map_eq_some_iff.mp hi
  have hnul : c = NUL := by
    unfold toUpper toLower NUL at heq
    unfold NUL
    split_ifs at heq <;> grind
  exact hs (hnul ▸ List.mem_of_getElem? hc)

/-- The first letter and those behind an odd number of separators are raised, the others lowered. -/
theorem getElem?_fixController {s : Bytes} (hs : NUL ∉ s) (i : Nat) :
    (fixController s)[i]? = s[i]?.map fun c =>
      if i = 0 ∨ separatorsBefore s i % 2 = 1 then toUpper c else toLower c := by
  rw [fixController_eq, ← loweredCopy, getElem?_raiseAfter (nul_mem_loweredCopy hs),
    getElem?_loweredCopy, separatorsBefore_loweredCopy, Option.map_map]
  apply congrFun
  apply congrArg
  funext c
  by_cases hi : i = 0
  · subst hi
    simp [separatorsBefore]
  · simp only [Function.comp_apply, hi, if_false, false_or, toUpper_toLower]

/-- The first character of a controller, or one behind a separator. -/
def Leads (s : Bytes) (i : Nat) : Prop :=
  i = 0 ∨ ∃ d, s[i - 1]? = some d ∧ isSeparator d = true

instance (s : Bytes) (i : Nat) : Decidable (Leads s i) :=
  decidable_of_iff (i = 0 ∨ (s[i - 1]?.any isSeparator) = true)
    (by simp [Leads, Option.any_eq_true])

theorem leads_iff {s : Bytes} {i : Nat} {c : UInt8} (hc : s[i]? = some c) :
    Leads s i ↔ i = 0 ∨ 0 < separatorsBefore s i := by
  cases i with
  | zero => simp [Leads]
  | succ i =>
    obtain ⟨hlt, -⟩ := List.getElem?_eq_some_iff.mp hc
    have hd : s[i]? = some s[i] := List.getElem?_eq_getElem (by omega)
    rw [separatorsBefore_succ hd, Leads, Nat.add_sub_cancel, hd]
    by_cases hsep : isSeparator s[i] = true
    · simp [hsep]
    · simp [hsep]

/-- The same length, upper case where a name leads and lower case elsewhere. -/
def WellSpelled (s t : Bytes) : Prop :=
  t.length = s.length ∧
    ∀ i c, s[i]? = some c → t[i]? = some (if Leads s i then toUpper c else toLower c)

/-- The loop stays inside the copy, and the request is given the well spelled controller. -/
def ControllerSpelled (defaults : DefaultNames) (request : Request) (s : Bytes) : Prop :=
  ∃ t, fixControllerCopy s = some t ∧
    (dispatcherFixDefault defaults request).controller = .string t ∧ WellSpelled s t

/-- A letter behind separators stands behind an odd number of them. -/
def LettersBehindOdd (s : Bytes) : Prop :=
  ∀ i c, s[i]? = some c → toUpper c ≠ toLower c → 0 < separatorsBefore s i →
    separatorsBefore s i % 2 = 1

theorem wellSpelled_iff {s : Bytes} (hs : NUL ∉ s) :
    WellSpelled s (fixController s) ↔ LettersBehindOdd s := by
  have hlen : (fixController s).length = s.length := by
    simp [fixController_eq, length_raiseAfter]
  have hat : ∀ i c, s[i]? = some c →
      ((fixController s)[i]? = some (if Leads s i then toUpper c else toLower c) ↔
        (toUpper c ≠ toLower c → 0 < separatorsBefore s i → separatorsBefore s i % 2 = 1)) := by
    intro i c hc
    rw [getElem?_fixController hs, hc, Option.map_some, Option.some.injEq, if_congr (leads_iff hc)
      rfl rfl]
    by_cases hi : i = 0
    · subst hi
      simp [separatorsBefore]
    by_cases hcased : toUpper c = toLower c
    · simp [hcased]
    by_cases hbefore : 0 < separatorsBefore s i
    · by_cases hodd : separatorsBefore s i % 2 = 1
      · simp [hbefore, hodd]
      · simp [hbefore, hodd, hi, hcased, Ne.symm hcased]
    · simp [Nat.eq_zero_of_not_pos hbefore]
  constructor
  · intro h i c hc
    exact (hat i c hc).mp (h.2 i c hc)
  · intro h
    exact ⟨hlen, fun i c hc => (hat i c hc).mpr (h i c hc)⟩

theorem controllerSpelled_iff (defaults : DefaultNames) (request : Request) {s : Bytes}
    (hne : s ≠ []) (hs : NUL ∉ s) (hr : request.controller = .string s) :
    ControllerSpelled defaults request s ↔ LettersBehindOdd s := by
  have hstored : (dispatcherFixDefault defaults request).controller =
      .string (fixController s) := by
    rw [dispatcherFixDefault, hr]
    exact fixName_string hne
  rw [← wellSpelled_iff hs, ControllerSpelled, fixControllerCopy_eq, hstored]
  constructor
  · intro h
    obtain ⟨t, ht, _, hspelled⟩ := h
    obtain rfl := Option.some.inj ht
    exact hspelled
  · intro h
    exact ⟨fixController s, rfl, rfl, h⟩

theorem controllerSpelled_user_profile :
    ControllerSpelled ⟨lit "Index", lit "Index", lit "index"⟩
      { freshRequest [] with controller := .string [117, 95, 112] } [117, 95, 112] := by
  refine (controllerSpelled_iff _ _ (by simp) (by decide) rfl).mpr ?_
  intro i c hc _ hbefore
  rcases i with _ | _ | _ | i
  · simp [separatorsBefore] at hbefore
  · simp [separatorsBefore, isSeparator, underscore, backslash] at hbefore
  · decide
  · simp at hc

/-- Behind two underscores the letter stays as it is. -/
theorem controller_doubled_underscore :
    ¬ControllerSpelled ⟨lit "Index", lit "Index", lit "index"⟩
      { freshRequest [] with controller := .string [97, 95, 95, 98] } [97, 95, 95, 98] := by
  intro h
  obtain ⟨t, ht, _, _, hspelled⟩ := h
  have hcopy : fixControllerCopy [97, 95, 95, 98] = some [65, 95, 95, 98] := by
    rw [fixControllerCopy_eq]
    decide
  have ht : t = [65, 95, 95, 98] := Option.some.inj (ht.symm.trans hcopy)
  have hraised := hspelled 3 98 rfl
  rw [ht] at hraised
  revert hraised
  decide

end Yaf
