import Yaf.Php.Strstr
import Yaf.Php.Value

namespace Yaf
open Base

/-- `yaf_loader_register_namespace_single`. The first name is taken with its length, the others are
printed behind a colon up to their first NUL; what is left unset stands behind one. -/
def registerNamespaceSingle (namespaces : Option Bytes) (name : Bytes) : Bytes :=
  match namespaces with
  | none => name
  | some list =>
    list ++ colon :: cstr name ++ List.replicate (name.length - (cstr name).length) NUL

/-- `yaf_loader_register_namespace_multi`: the entries that are strings. -/
def registerNamespaceMulti (namespaces : Option Bytes) (names : Table Key Zval) : Option Bytes :=
  names.foldl (fun namespaces p =>
    match p.2 with
    | .string name => some (registerNamespaceSingle namespaces name)
    | _ => namespaces) namespaces

/-- `Yaf_Loader::registerLocalNamespace`. Anything but a string or an array only warns. -/
def registerLocalNamespace (namespaces : Option Bytes) : Zval → Option Bytes
  | .string name => some (registerNamespaceSingle namespaces name)
  | .array names => registerNamespaceMulti namespaces names
  | _ => namespaces

inductive NamespaceCall where
  | register (namespace_ : Zval)
  | clear

/-- A call on the list of names. A `clearLocalNamespace` without a list releases a null pointer. -/
def NamespaceCall.step (namespaces : Option Bytes) : NamespaceCall → Option (Option Bytes)
  | .register namespace_ => some (registerLocalNamespace namespaces namespace_)
  | .clear => namespaces.map fun _ => none

def NamespaceCall.run (calls : List NamespaceCall) : Option (Option Bytes) :=
  calls.foldlM NamespaceCall.step none

/-- A class name while it is cut: what its memory holds, the prefix as a C string with the length
that goes with it, and what stood where the cut is. -/
structure ClassCut where
  name : Bytes
  namePrefix : Bytes
  prefixLen : Int
  backup : Option (Nat × UInt8)

/-- The cut is at the first underscore, or at the first backslash when there is none. Without either
the prefix has the length `int len` keeps. -/
def cutClassName (className : Bytes) : ClassCut :=
  match strstr (cstr className) [underscore] with
  | some (before, _) =>
    let name := className.set before.length NUL
    ⟨name, cstr name, before.length, some (before.length, underscore)⟩
  | none =>
    match strstr (cstr className) [backslash] with
    | some (before, _) =>
      ⟨className.set before.length NUL, before, before.length, some (before.length, backslash)⟩
    | none => ⟨className, cstr className, (Int32.ofNat className.length).toInt, none⟩

def ClassCut.restore (cut : ClassCut) : Bytes :=
  match cut.backup with
  | none => cut.name
  | some (i, c) => cut.name.set i c

/-- A character of the list, with the NUL behind it. -/
def charAt (list : Bytes) (i : Nat) : Option UInt8 := (list ++ [NUL])[i]?

/-- The place the length of the prefix behind a match, and the character there. -/
def placeBehind (list : Bytes) (cut : ClassCut) (pos : Nat) : Option (Nat × UInt8) := do
  let i ← (pos + cut.prefixLen).toNat?
  let c ← charAt list i
  some (i, c)

def endsName (c : UInt8) : Bool := c == colon || c == NUL

/-- How a turn of the loop ends: with an answer, with the place the next one starts at, or outside
the list. -/
inductive Turn where
  | ended (found : Bool)
  | on (ns : Nat)
  | outside
  deriving DecidableEq, Repr

/-- One turn of the loop of `yaf_loader_is_local_namespace`. The character before a match at the
start of the list does not matter: the one behind it has failed already. -/
def searchTurn (list : Bytes) (cut : ClassCut) (ns : Nat) : Turn :=
  match strstr (cstr (list.drop ns)) cut.namePrefix with
  | none => .ended false
  | some (before, _) =>
    let pos := ns + before.length
    match placeBehind list cut pos with
    | none => .outside
    | some (next, c) =>
      if pos = ns && endsName c then .ended true
      else if pos ≠ 0 && list[pos - 1]? = some colon && endsName c then .ended true
      else .on next

/-- The match whose character before it a turn looks at. -/
def lookedBefore (list : Bytes) (cut : ClassCut) (ns : Nat) : Option Nat :=
  match strstr (cstr (list.drop ns)) cut.namePrefix with
  | none => none
  | some (before, _) =>
    let pos := ns + before.length
    if pos = ns && (placeBehind list cut pos).any fun p => endsName p.2 then none else some pos

def search (list : Bytes) (cut : ClassCut) : Nat → Nat → Turn
  | 0, ns => .on ns
  | n + 1, ns =>
    match searchTurn list cut ns with
    | .on ns => search list cut n ns
    | turn => turn

/-- A class name to ask about: a string of its own, or the string of the list, which
`getLocalNamespace` hands out. -/
inductive ClassArg where
  | own (className : Bytes)
  | handedOut

def ClassArg.text (list : Bytes) : ClassArg → Bytes
  | own className => className
  | handedOut => list

/-- What the search goes through: the list, which is cut with the class name if that is its own
string. -/
def ClassArg.searched (list : Bytes) : ClassArg → Bytes
  | own _ => list
  | handedOut => (cutClassName list).name

/-- `yaf_loader_is_local_namespace` for a number of turns, and the class name behind it. -/
def isLocalNamespace (namespaces : Option Bytes) (arg : ClassArg) (turns : Nat) : Turn × Bytes :=
  match namespaces with
  | none => (.ended false, arg.text [])
  | some list =>
    let cut := cutClassName (arg.text list)
    match search (arg.searched list) cut turns 0 with
    | .ended found => (.ended found, cut.restore)
    | turn => (turn, cut.name)

/-- The class name that is asked about. -/
def askedFor (namespaces : Option Bytes) (arg : ClassArg) : Bytes := arg.text (namespaces.getD [])

@[simp] theorem askedFor_own (namespaces : Option Bytes) (className : Bytes) :
    askedFor namespaces (.own className) = className := rfl

/-- The part before the first underscore, or else before the first backslash. -/
def classPrefix (className : Bytes) : Bytes :=
  if underscore ∈ className then className.takeWhile (· != underscore)
  else className.takeWhile (· != backslash)

/-- A separator is found, or the class name is a C string as a whole, no longer than an `int`
counts. -/
def CutInside (className : Bytes) : Prop :=
  NUL ∈ className ∨ 2 ^ 31 ≤ className.length →
    underscore ∈ cstr className ∨ backslash ∈ cstr className

/-- The search ends: each turn that goes on moves forward inside the list, and the character before
a match is looked at only when there is one. -/
structure SearchKept (list : Bytes) (cut : ClassCut) : Prop where
  ends : ∃ turns found, search list cut turns 0 = .ended found
  stays : ∀ turns, search list cut turns 0 ≠ .outside
  shortens : ∀ turns ns ns', search list cut turns 0 = .on ns → searchTurn list cut ns = .on ns' →
    ns < ns' ∧ ns' ≤ list.length
  inside : ∀ turns ns pos, search list cut turns 0 = .on ns →
    lookedBefore list cut ns = some pos → 0 < pos

/-- The prefix does not occur in the list; or it is cut inside the class name, and where the list
starts with it, it ends there. The list itself has to be cut or short. -/
def SearchSafe (list : Bytes) : ClassArg → Prop
  | .own className => ¬classPrefix (cstr className) <:+: cstr list ∨ CutInside className ∧
      ∀ c rest, list = classPrefix (cstr className) ++ c :: rest → endsName c = true
  | .handedOut => 2 ^ 31 ≤ list.length → underscore ∈ cstr list ∨ backslash ∈ cstr list

section
variable {className list p t u : Bytes} {c : UInt8}

theorem cstr_front (s : Bytes) : cstr s <+: s := List.takeWhile_prefix _

/-- The class name with a separator overwritten, as a C string, and put back. -/
theorem set_cut {s : Bytes} (h : c ∈ cstr s) :
    cstr (s.set ((cstr s).takeWhile (· != c)).length NUL) = (cstr s).takeWhile (· != c) ∧
      (s.set ((cstr s).takeWhile (· != c)).length NUL).set
        ((cstr s).takeWhile (· != c)).length c = s := by
  obtain ⟨rest, hrest⟩ := takeWhile_split h
  obtain ⟨tail, htail⟩ := cstr_front s
  have hs : s = (cstr s).takeWhile (· != c) ++ c :: (rest ++ tail) := by
    rw [← List.cons_append, ← List.append_assoc, ← hrest, htail]
  have hnul : NUL ∉ (cstr s).takeWhile (· != c) := fun hm =>
    nul_not_mem_cstr s ((List.takeWhile_prefix _).subset hm)
  generalize (cstr s).takeWhile (· != c) = before at hs hnul
  subst hs
  rw [List.set_append_right _ _ (Nat.le_refl _), Nat.sub_self, List.set_cons_zero]
  refine ⟨?_, ?_⟩
  · rw [cstr_append hnul]
    simp [cstr]
  · rw [List.set_append_right _ _ (Nat.le_refl _), Nat.sub_self, List.set_cons_zero]

/-- What the cut is, and that it is undone. -/
theorem cutClassName_spec (className : Bytes) :
    (cutClassName className).namePrefix = classPrefix (cstr className) ∧
      (cutClassName className).restore = className ∧
      (CutInside className →
        (cutClassName className).prefixLen = (classPrefix (cstr className)).length) := by
  unfold cutClassName
  rw [strstr_singleton, strstr_singleton]
  by_cases hunderscore : underscore ∈ cstr className
  · obtain ⟨hcut, hback⟩ := set_cut hunderscore
    rw [if_pos hunderscore, classPrefix, if_pos hunderscore]
    exact ⟨hcut, hback, fun _ => rfl⟩
  · rw [if_neg hunderscore, classPrefix, if_neg hunderscore]
    by_cases hbackslash : backslash ∈ cstr className
    · rw [if_pos hbackslash]
      exact ⟨rfl, (set_cut hbackslash).2, fun _ => rfl⟩
    · rw [if_neg hbackslash, takeWhile_bne hbackslash]
      refine ⟨rfl, rfl, fun hinside => ?_⟩
      have hnot : ¬(NUL ∈ className ∨ 2 ^ 31 ≤ className.length) := fun h =>
        (hinside h).elim hunderscore hbackslash
      rw [not_or, Nat.not_le] at hnot
      rw [cstr_of_no_nul hnot.1, Int32.toInt_ofNat_of_lt hnot.2]

theorem nul_not_mem_classPrefix (h : NUL ∉ t) : NUL ∉ classPrefix t := by
  unfold classPrefix
  split <;> exact fun hm => h ((List.takeWhile_prefix _).subset hm)

end

section
variable {list p t u before after : Bytes} {cut : ClassCut} {ns ns' : Nat}

theorem charAt_isSome {i : Nat} (h : i ≤ list.length) : ∃ c, charAt list i = some c := by
  have hlt : i < (list ++ [NUL]).length := by
    rw [List.length_append, List.length_singleton]
    omega
  exact ⟨_, List.getElem?_eq_getElem hlt⟩

/-- Behind a prefix that ends inside the list there is a character, if only the last NUL. -/
theorem placeBehind_eq {n pos : Nat} (hlen : cut.prefixLen = n) (hin : pos + n ≤ list.length) :
    ∃ c, placeBehind list cut pos = some (pos + n, c) ∧ charAt list (pos + n) = some c := by
  obtain ⟨c, hc⟩ := charAt_isSome hin
  refine ⟨c, ?_, hc⟩
  have hplace : ((pos : Int) + n).toNat? = some (pos + n) := rfl
  rw [placeBehind, hlen, hplace, Option.bind_eq_bind, Option.bind_some, hc]
  rfl

/-- A match lies inside the list. -/
theorem match_inside (hns : ns ≤ list.length)
    (h : strstr (cstr (list.drop ns)) p = some (before, after)) :
    ns + before.length + p.length ≤ list.length := by
  have hlen := (cstr_front (list.drop ns)).length_le
  rw [strstr_split h, List.length_append, List.length_append, List.length_drop] at hlen
  omega

theorem lookedBefore_pos (hns : 0 < ns) {pos : Nat} (h : lookedBefore list cut ns = some pos) :
    0 < pos := by
  unfold lookedBefore at h
  split at h
  · cases h
  · dsimp only at h
    split at h
    · cases h
    · obtain rfl := Option.some.inj h
      omega

theorem searchTurn_on (hp : cut.namePrefix ≠ []) (hlen : cut.prefixLen = cut.namePrefix.length)
    (hns : ns ≤ list.length) (h : searchTurn list cut ns = .on ns') :
    ns < ns' ∧ ns' ≤ list.length := by
  have hpos := List.length_pos_iff.mpr hp
  unfold searchTurn at h
  split at h
  · cases h
  · rename_i before after hs
    have hin := match_inside hns hs
    obtain ⟨c, hplace, -⟩ := placeBehind_eq hlen hin
    dsimp only at h
    rw [hplace] at h
    dsimp only at h
    split at h
    · cases h
    · split at h
      · cases h
      · cases h
        omega

theorem searchTurn_not_outside (hlen : cut.prefixLen = cut.namePrefix.length)
    (hns : ns ≤ list.length) : searchTurn list cut ns ≠ .outside := by
  unfold searchTurn
  split
  · simp
  · rename_i before after hs
    obtain ⟨c, hplace, -⟩ := placeBehind_eq hlen (match_inside hns hs)
    dsimp only
    rw [hplace]
    dsimp only
    split
    · simp
    · split <;> simp

/-- The turns go forward inside the list. -/
theorem search_on (hp : cut.namePrefix ≠ []) (hlen : cut.prefixLen = cut.namePrefix.length)
    (turns : Nat) : ∀ {ns}, ns ≤ list.length → search list cut turns ns = .on ns' →
      ns ≤ ns' ∧ ns' ≤ list.length ∧ (turns ≠ 0 → ns < ns') := by
  induction turns with
  | zero =>
    intro ns hns h
    cases h
    exact ⟨Nat.le_refl _, hns, fun h => absurd rfl h⟩
  | succ turns ih =>
    intro ns hns h
    rw [search] at h
    split at h
    · rename_i next hturn
      obtain ⟨hlt, hle⟩ := searchTurn_on hp hlen hns hturn
      obtain ⟨hnext, hin, -⟩ := ih hle h
      exact ⟨by omega, hin, fun _ => by omega⟩
    · rename_i hno
      exact absurd h (hno _)

theorem search_not_outside (hp : cut.namePrefix ≠ [])
    (hlen : cut.prefixLen = cut.namePrefix.length) (turns : Nat) :
    ∀ {ns}, ns ≤ list.length → search list cut turns ns ≠ .outside := by
  induction turns with
  | zero => intro ns _ h; cases h
  | succ turns ih =>
    intro ns hns h
    rw [search] at h
    split at h
    · rename_i next hturn
      exact ih (searchTurn_on hp hlen hns hturn).2 h
    · exact searchTurn_not_outside hlen hns h

theorem search_ends (hp : cut.namePrefix ≠ []) (hlen : cut.prefixLen = cut.namePrefix.length)
    (n : Nat) : ∀ {ns}, ns ≤ list.length → list.length - ns < n →
      ∃ found, search list cut n ns = .ended found := by
  induction n with
  | zero => intro ns _ h; omega
  | succ n ih =>
    intro ns hns hn
    cases hturn : searchTurn list cut ns with
    | ended found => exact ⟨found, by rw [search, hturn]⟩
    | outside => exact absurd hturn (searchTurn_not_outside hlen hns)
    | on next =>
      obtain ⟨hlt, hle⟩ := searchTurn_on hp hlen hns hturn
      obtain ⟨found, hfound⟩ := ih hle (by omega)
      exact ⟨found, by rw [search, hturn]; exact hfound⟩

/-- A turn that stays where it is never ends. -/
theorem search_still (h : searchTurn list cut ns = .on ns) (turns : Nat) :
    search list cut turns ns = .on ns := by
  induction turns with
  | zero => rfl
  | succ turns ih =>
    rw [search, h]
    exact ih

/-- A match at the start of the list ends there: the first turn has the answer. -/
theorem searchTurn_front (hlen : cut.prefixLen = cut.namePrefix.length)
    (hfront : ∀ c rest, list = cut.namePrefix ++ c :: rest → endsName c = true)
    (h : strstr (cstr list) cut.namePrefix = some ([], after)) :
    searchTurn list cut 0 = .ended true ∧ lookedBefore list cut 0 = none := by
  obtain ⟨rest, hrest⟩ := cstr_front list
  have hlist : list = cut.namePrefix ++ (after ++ rest) := by
    rw [← hrest, strstr_split h, List.nil_append, List.append_assoc]
  obtain ⟨c, hplace, hc⟩ : ∃ c, placeBehind list cut 0 = some (0 + cut.namePrefix.length, c) ∧
      charAt list (0 + cut.namePrefix.length) = some c := by
    apply placeBehind_eq hlen
    rw [hlist, List.length_append]
    omega
  have hend : endsName c = true := by
    rw [Nat.zero_add, charAt, hlist, List.append_assoc, List.getElem?_append_right (Nat.le_refl _),
      Nat.sub_self] at hc
    cases hr : after ++ rest with
    | nil =>
      rw [hr] at hc
      cases hc
      rfl
    | cons c' r =>
      rw [hr] at hc
      cases hc
      exact hfront _ r (by rw [hlist, hr])
  simp [searchTurn, lookedBefore, h, hplace, hend]

/-- The first turn has the answer, without a look at what is before the list. -/
theorem kept_of_first (found : Bool) (hturn : searchTurn list cut 0 = .ended found)
    (hlooked : lookedBefore list cut 0 = none) : SearchKept list cut := by
  have hsearch : ∀ turns, search list cut (turns + 1) 0 = .ended found := by
    intro turns
    rw [search, hturn]
  refine ⟨⟨1, found, hsearch 0⟩, ?_, ?_, ?_⟩
  · intro turns h
    cases turns with
    | zero => cases h
    | succ turns => rw [hsearch] at h; cases h
  · intro turns ns ns' h hnext
    cases turns with
    | zero => cases h; rw [hturn] at hnext; cases hnext
    | succ turns => rw [hsearch] at h; cases h
  · intro turns ns pos h hpos
    cases turns with
    | zero => cases h; rw [hlooked] at hpos; cases hpos
    | succ turns => rw [hsearch] at h; cases h

theorem kept_of_later (hp : cut.namePrefix ≠ []) (hlen : cut.prefixLen = cut.namePrefix.length)
    (hlooked : ∀ pos, lookedBefore list cut 0 = some pos → 0 < pos) : SearchKept list cut := by
  refine ⟨⟨list.length + 1, search_ends hp hlen _ (Nat.zero_le _) (by omega)⟩, ?_, ?_, ?_⟩
  · exact fun turns => search_not_outside hp hlen turns (Nat.zero_le _)
  · intro turns ns ns' h hturn
    exact searchTurn_on hp hlen (search_on hp hlen turns (Nat.zero_le _) h).2.1 hturn
  · intro turns ns pos h hpos
    cases turns with
    | zero => cases h; exact hlooked pos hpos
    | succ turns =>
      exact lookedBefore_pos ((search_on hp hlen _ (Nat.zero_le _) h).2.2 (Nat.succ_ne_zero _)) hpos

end

/-- Where the cut is when there is a separator. -/
theorem cutClassName_at (h : underscore ∈ cstr list ∨ backslash ∈ cstr list) :
    ∃ c ∈ cstr list, (cutClassName list).name =
        list.set ((cstr list).takeWhile (· != c)).length NUL ∧
      (cutClassName list).namePrefix = (cstr list).takeWhile (· != c) ∧
      (cutClassName list).prefixLen = ((cstr list).takeWhile (· != c)).length := by
  unfold cutClassName
  rw [strstr_singleton, strstr_singleton]
  by_cases hunderscore : underscore ∈ cstr list
  · rw [if_pos hunderscore]
    exact ⟨underscore, hunderscore, rfl, (set_cut hunderscore).1, rfl⟩
  · have hbackslash := h.resolve_left hunderscore
    rw [if_neg hunderscore, if_pos hbackslash]
    exact ⟨backslash, hbackslash, rfl, rfl, rfl⟩

/-- A list that is cut itself starts with its prefix, and the cut is behind it. -/
theorem searchTurn_handedOut (h : SearchSafe list .handedOut) :
    searchTurn (cutClassName list).name (cutClassName list) 0 = .ended true ∧
      lookedBefore (cutClassName list).name (cutClassName list) 0 = none := by
  have hstarts : ∀ s : Bytes, strstr s s = some ([], []) := fun s => by
    simpa using strstr_here (d := s) []
  by_cases hsep : underscore ∈ cstr list ∨ backslash ∈ cstr list
  · obtain ⟨c, hc, hname, hpre, hlen⟩ := cutClassName_at hsep
    have hcstr := (set_cut hc).1
    rw [← hname, ← hpre] at hcstr
    rw [← hpre] at hlen
    have hfront : strstr (cstr (cutClassName list).name) (cutClassName list).namePrefix =
        some ([], []) := by
      rw [hcstr]
      exact hstarts _
    refine searchTurn_front hlen (fun d rest hlist => ?_) hfront
    -- the C string ends where the prefix does
    by_contra hd
    have hnul : d ≠ NUL := by
      rintro rfl
      exact hd rfl
    have hfree : NUL ∉ (cutClassName list).namePrefix := hcstr ▸ nul_not_mem_cstr _
    have hlonger := congrArg List.length hcstr
    rw [hlist, cstr_append hfree, cstr, List.takeWhile_cons_of_pos (by simpa using hnul),
      List.length_append, List.length_cons] at hlonger
    omega
  · have hshort : list.length < 2 ^ 31 := by
      by_contra hlong
      exact hsep (h (Nat.not_lt.mp hlong))
    have hcut : cutClassName list = ⟨list, cstr list, (list.length : Int), none⟩ := by
      rw [not_or] at hsep
      rw [cutClassName, strstr_singleton, strstr_singleton, if_neg hsep.1, if_neg hsep.2,
        Int32.toInt_ofNat_of_lt hshort]
    obtain ⟨c, hplace, hc⟩ : ∃ c, placeBehind list (cutClassName list) 0 =
        some (0 + list.length, c) ∧ charAt list (0 + list.length) = some c :=
      placeBehind_eq (by rw [hcut]) (by omega)
    have hend : endsName c = true := by
      rw [Nat.zero_add, charAt, List.getElem?_append_right (Nat.le_refl _), Nat.sub_self] at hc
      cases hc
      rfl
    rw [hcut] at hplace ⊢
    simp [searchTurn, lookedBefore, hstarts, hplace, hend]

/-- The string of the list is always answered yes. -/
theorem isLocalNamespace_handedOut (h : SearchSafe list .handedOut) (turns : Nat) :
    isLocalNamespace (some list) .handedOut (turns + 1) = (.ended true, list) := by
  have hturn := (searchTurn_handedOut h).1
  have hback := (cutClassName_spec list).2.1
  simp [isLocalNamespace, ClassArg.text, ClassArg.searched, search, hturn, hback]

/-- The search is as it should be when it is safe; and where the class name is cut inside itself,
only then. -/
theorem namespace_search_iff (list : Bytes) (arg : ClassArg) :
    (SearchSafe list arg → SearchKept (arg.searched list) (cutClassName (arg.text list))) ∧
      (CutInside (arg.text list) → SearchKept (arg.searched list) (cutClassName (arg.text list)) →
        SearchSafe list arg) := by
  cases arg with
  | handedOut =>
    constructor
    · intro hsafe
      obtain ⟨hturn, hlooked⟩ := searchTurn_handedOut hsafe
      exact kept_of_first true hturn hlooked
    · exact fun hinside _ hlong => hinside (Or.inr hlong)
  | own className =>
    obtain ⟨hname, -, hcut⟩ := cutClassName_spec className
    rw [ClassArg.text, ClassArg.searched, SearchSafe, ← hname]
    generalize cutClassName className = cut at hname hcut
    rw [← hname] at hcut
    constructor
    · rintro (hno | ⟨hinside, hfront⟩)
      · apply kept_of_first false
        · rw [searchTurn, List.drop_zero, strstr_eq_none.mpr hno]
        · rw [lookedBefore, List.drop_zero, strstr_eq_none.mpr hno]
      · have hlen := hcut hinside
        cases hs : strstr (cstr list) cut.namePrefix with
        | none =>
          apply kept_of_first false
          · rw [searchTurn, List.drop_zero, hs]
          · rw [lookedBefore, List.drop_zero, hs]
        | some p =>
          obtain ⟨before, after⟩ := p
          cases before with
          | nil =>
            obtain ⟨hturn, hlooked⟩ := searchTurn_front hlen hfront hs
            exact kept_of_first _ hturn hlooked
          | cons c before =>
            apply kept_of_later _ hlen
            · intro pos hpos
              rw [lookedBefore, List.drop_zero, hs] at hpos
              simp at hpos
              omega
            · rintro hnil
              rw [hnil, strstr.eq_def, if_pos List.nil_prefix] at hs
              cases hs
    · intro hinside hkept
      refine Or.inr ⟨hinside, fun c rest hlist => ?_⟩
      by_contra hend
      have hnul : NUL ∉ cut.namePrefix := by
        rw [hname]
        exact nul_not_mem_classPrefix (nul_not_mem_cstr className)
      have hs : strstr (cstr list) cut.namePrefix = some ([], cstr (c :: rest)) := by
        rw [hlist, cstr_append hnul, strstr_here]
      have hin : 0 + cut.namePrefix.length ≤ list.length := by
        rw [hlist, List.length_append]
        omega
      obtain ⟨d, hplace, hchar⟩ := placeBehind_eq (hcut hinside) hin
      obtain rfl : c = d := by
        rw [Nat.zero_add, charAt, hlist, List.append_assoc,
          List.getElem?_append_right (Nat.le_refl _), Nat.sub_self] at hchar
        exact Option.some.inj hchar
      have hlooked : lookedBefore list cut 0 = some 0 := by
        simp [lookedBefore, hs, hplace, hend]
      exact absurd (hkept.inside 0 0 0 rfl hlooked) (Nat.lt_irrefl 0)

/-- `FooBar` is registered and `Foo` is looked for: the byte before the list is read. And with
nothing in front of the underscore the search stands still. -/
theorem search_not_kept :
    ¬SearchKept (lit "FooBar") (cutClassName (lit "Foo")) ∧
      ¬SearchKept (lit "Foo") (cutClassName (lit "_Bar")) := by
  constructor
  · intro h
    exact absurd (h.inside 0 0 0 rfl (by decide)) (Nat.lt_irrefl 0)
  · intro h
    obtain ⟨turns, found, hsearch⟩ := h.ends
    have hstill : searchTurn (lit "Foo") (cutClassName (lit "_Bar")) 0 = .on 0 := by decide
    rw [search_still hstill] at hsearch
    cases hsearch

end Yaf
