import Yaf.Shared.Values

namespace Yaf
open Base Heap

/-- Which object a call brings in: from the stores before and after it, and its result. -/
abbrev Joins := Store → Store → Val Scalar → Option Nat

/-- A configuration that a call gives back. -/
def obtained : Joins := fun _ after ret =>
  match ret with
  | .scalar (.object o) =>
    match after.objects[o]? with
    | some (.config _) => some o
    | _ => none
  | _ => none

/-- A configuration that a call makes and gives back. -/
def derived : Joins := fun before after ret =>
  (obtained before after ret).filter (before.objects.length ≤ ·)

/-- A method call on a configuration, and the variable its result goes to. -/
structure MethodCall where
  x : Nat
  o : Nat
  call : ConfigCall
  deriving DecidableEq, Repr

/-- A store, the configurations the calls may be on, and what was called with what result. -/
structure Session where
  store : Store
  family : List Nat
  log : List (ConfigCall × Val Scalar)

namespace Session

def step (joins : Joins) (w : Session) (m : MethodCall) : Option Session :=
  if m.o ∈ w.family then
    match w.store.objects[m.o]?, w.store.table? (.property m.o) with
    | some (.config readonly), some a =>
      let (s, ret) := w.store.configCall m.o a readonly m.call
      some {
        store := s.share (.var m.x) ret
        family := w.family ++ (joins w.store s ret).toList
        log := w.log ++ [(m.call, ret)]
      }
    | _, _ => none
  else none

def run (joins : Joins) (w : Session) (calls : List MethodCall) : Option Session :=
  calls.foldlM (step joins) w

/-- A read-only configuration is made from an array, and the calls begin. -/
def readonlyOver (s : Store) (values : Addr) : Session where
  store := (s.configSimpleInstance values true).1
  family := [s.objects.length]
  log := []

/-- A configuration of the family is read-only and has an array. -/
def Member (s : Store) (o : Nat) : Prop :=
  s.objects[o]? = some (.config true) ∧ ∃ es, s.memory.Holds (.property o) (.node es)

/-- The answers of a read-only configuration. -/
def Answers (p : ConfigCall × Val Scalar) : Prop :=
  (p.1.changes = true → p.2 = .scalar (.bool false)) ∧
    (p.1 = .readonly → p.2 = .scalar (.bool true))

/-- Whatever is called on the family: the content of its members stays, all of them are read-only,
nothing is set or unset, and every call goes through. -/
structure ReadonlyKept (joins : Joins) (w : Session) : Prop where
  content : ∀ before after w₁ w₂, w.run joins before = some w₁ → w₁.run joins after = some w₂ →
    ∀ o ∈ w₁.family, ∀ u, w₁.store.memory.Holds (.property o) u →
      w₂.store.memory.Holds (.property o) u
  readonly : ∀ calls w', w.run joins calls = some w' → ∀ o ∈ w'.family,
    w'.store.objects[o]? = some (.config true)
  answers : ∀ calls w', w.run joins calls = some w' → ∀ p ∈ w'.log, Answers p
  goes : ∀ calls w', w.run joins calls = some w' → ∀ m : MethodCall, m.o ∈ w'.family →
    (w'.step joins m).isSome = true

section
variable {s s' : Store} {w w' : Session} {o : Nat} {a : Addr} {v : Val Scalar}

theorem Member.table (h : Member s o) : ∃ a, s.memory.at? (.property o) = some (.ref a) := by
  obtain ⟨-, es, v, hv, hr⟩ := h
  obtain ⟨a, -, rfl, -, -⟩ := reads_node.mp hr
  exact ⟨a, hv⟩

theorem format_member (hg : s.Good) (hv : ∃ u, s.memory.heap.reads u v = true) :
    ((s.configSimpleFormat true v).1.objects = s.objects) ∨
      (s.configSimpleFormat true v).1.objects = s.objects ++ [.config true] ∧
        Member (s.configSimpleFormat true v).1 s.objects.length := by
  cases v with
  | scalar x => exact Or.inl rfl
  | ref b =>
    obtain ⟨u, hu⟩ := hv
    obtain ⟨es, t, rfl, -, -⟩ := reads_ref.mp hu
    obtain ⟨-, hholds, -⟩ := hg.valued.share (i := .property s.objects.length) hu
    exact Or.inr ⟨rfl, by simp [Store.configSimpleFormat, Store.configSimpleInstance], es, hholds⟩

/-- A call on a read-only configuration makes no object, or one more read-only configuration. -/
theorem configCall_objects (call : ConfigCall) (hg : s.Good)
    (ho : s.memory.at? (.property o) = some (.ref a)) :
    (s.configCall o a true call).1.objects = s.objects ∨
      (s.configCall o a true call).1.objects = s.objects ++ [.config true] ∧
        Member (s.configCall o a true call).1 s.objects.length := by
  cases call with
  | get name =>
    cases name with
    | none => exact Or.inl rfl
    | some name =>
      simp only [Store.configCall]
      split
      · exact Or.inl rfl
      · rename_i v hv
        exact format_member hg (hg.entry_reads ho (Store.mem_entries_of_slot? hv))
  | current =>
    simp only [Store.configCall]
    split
    · exact Or.inl rfl
    · rename_i p hp
      exact format_member hg (hg.entry_reads ho (List.mem_of_getElem? hp))
  | key =>
    simp only [Store.configCall]
    split <;> exact Or.inl rfl
  | _ => exact Or.inl rfl

/-- The calls that could change something say no. -/
theorem configCall_answers (call : ConfigCall) :
    Answers (call, (s.configCall o a true call).2) := by
  cases call <;> simp [Answers, ConfigCall.changes, Store.configCall]

/-- A session between two calls. -/
structure Ok (w : Session) : Prop where
  good : w.store.Good
  members : ∀ o ∈ w.family, Member w.store o
  answers : ∀ p ∈ w.log, Answers p

/-- A call on a member, opened. -/
theorem Ok.step_eq (joins : Joins) (h : w.Ok) {m : MethodCall} (hm : m.o ∈ w.family) :
    ∃ a, w.store.memory.at? (.property m.o) = some (.ref a) ∧
      w.step joins m = some {
        store := (w.store.configCall m.o a true m.call).1.share (.var m.x)
          (w.store.configCall m.o a true m.call).2
        family := w.family ++ (joins w.store (w.store.configCall m.o a true m.call).1
          (w.store.configCall m.o a true m.call).2).toList
        log := w.log ++ [(m.call, (w.store.configCall m.o a true m.call).2)] } := by
  obtain ⟨a, ha⟩ := (h.members m.o hm).table
  refine ⟨a, ha, ?_⟩
  simp [step, hm, (h.members m.o hm).1, Store.table?_eq_some.mpr ha]

theorem mem_derived {s₁ : Store} (h : o ∈ (derived s s₁ v).toList) :
    s.objects.length ≤ o ∧ o < s₁.objects.length := by
  simp only [derived, Option.mem_toList, Option.filter_eq_some_iff,
    decide_eq_true_eq] at h
  obtain ⟨hobtained, hle⟩ := h
  refine ⟨hle, ?_⟩
  unfold obtained at hobtained
  split at hobtained
  · split at hobtained
    · rename_i hk
      obtain rfl := Option.some.inj hobtained
      exact (List.getElem?_eq_some_iff.mp hk).1
    · cases hobtained
  · cases hobtained

/-- One call: the session goes on, and every property keeps what it holds. -/
theorem Ok.step {m : MethodCall} (h : w.Ok) (hstep : w.step derived m = some w') :
    w'.Ok ∧ ∀ o u, w.store.memory.Holds (.property o) u →
      w'.store.memory.Holds (.property o) u := by
  have hm : m.o ∈ w.family := by
    by_contra hn
    simp [Session.step, hn] at hstep
  obtain ⟨a, ha, hw⟩ := h.step_eq derived hm
  rw [hstep, Option.some.injEq] at hw
  subst hw
  have hno : w.store.configWrites a true m.call = false := by cases m.call <;> rfl
  obtain ⟨hcall, hret⟩ := h.good.configCall m.call true ha fun hw => by
    rw [hno] at hw
    cases hw
  have hkeep := hcall.result (x := m.x) hret
  have hall : ∀ o u, w.store.memory.Holds (.property o) u →
      ((w.store.configCall m.o a true m.call).1.share (.var m.x)
        (w.store.configCall m.o a true m.call).2).memory.Holds (.property o) u :=
    fun o u => hkeep.keeps (.property o) (by simp [hno]) u
  have hshared : ∀ o, Member (w.store.configCall m.o a true m.call).1 o →
      Member ((w.store.configCall m.o a true m.call).1.share (.var m.x)
        (w.store.configCall m.o a true m.call).2) o := by
    rintro o ⟨hk, es, hes⟩
    exact ⟨hk, es, (hcall.good.share m.x hret).keeps (.property o) (by simp) _ hes⟩
  have hobjects := configCall_objects m.call h.good ha
  refine ⟨⟨hkeep.good, fun o ho => ?_, fun p hp => ?_⟩, hall⟩
  · rcases List.mem_append.mp ho with ho | ho
    · obtain ⟨hk, es, hes⟩ := h.members o ho
      refine ⟨?_, es, hall o _ hes⟩
      change (w.store.configCall m.o a true m.call).1.objects[o]? = _
      rcases hobjects with he | ⟨he, -⟩
      · rw [he, hk]
      · rw [he, List.getElem?_append_left (List.getElem?_eq_some_iff.mp hk).1, hk]
    · obtain ⟨hle, hlt⟩ := mem_derived ho
      rcases hobjects with he | ⟨he, hmember⟩
      · rw [he] at hlt
        omega
      · rw [he, List.length_append, List.length_singleton] at hlt
        obtain rfl : o = w.store.objects.length := by omega
        exact hshared _ hmember
  · rcases List.mem_append.mp hp with hp | hp
    · exact h.answers p hp
    · rw [List.mem_singleton.mp hp]
      exact configCall_answers m.call

theorem Ok.run (calls : List MethodCall) :
    ∀ {w : Session}, w.Ok → w.run derived calls = some w' →
      w'.Ok ∧ ∀ o u, w.store.memory.Holds (.property o) u →
        w'.store.memory.Holds (.property o) u := by
  induction calls with
  | nil =>
    intro w h hrun
    obtain rfl := Option.some.inj hrun
    exact ⟨h, fun _ _ hu => hu⟩
  | cons m calls ih =>
    intro w h hrun
    rw [Session.run, List.foldlM_cons, Option.bind_eq_bind, Option.bind_eq_some_iff] at hrun
    obtain ⟨w₁, hstep, hrun⟩ := hrun
    obtain ⟨h₁, hkeep₁⟩ := h.step hstep
    obtain ⟨h', hkeep⟩ := ih h₁ hrun
    exact ⟨h', fun o u hu => hkeep o u (hkeep₁ o u hu)⟩

theorem readonlyOver_ok (hg : s.Good) (ha : ∃ u, s.memory.heap.reads u (.ref a) = true) :
    (readonlyOver s a).Ok := by
  refine ⟨(hg.newConfig true ha : Store.Keeping s _ fun _ => false).good, fun o ho => ?_, by
    simp [readonlyOver]⟩
  obtain rfl := List.mem_singleton.mp ho
  rcases format_member (v := .ref a) hg ha with he | ⟨-, hmember⟩
  · have hlen := congrArg List.length he
    simp [Store.configSimpleFormat, Store.configSimpleInstance] at hlen
  · exact hmember

end

/-- A read-only configuration and all that the calls on it make stay read-only and as they are. -/
theorem readonly_kept {s : Store} {a : Addr} (hg : s.Good)
    (ha : ∃ u, s.memory.heap.reads u (.ref a) = true) :
    ReadonlyKept derived (readonlyOver s a) := by
  have hstart := readonlyOver_ok hg ha
  refine ⟨?_, ?_, ?_, ?_⟩
  · intro before after w₁ w₂ hbefore hafter o _ u hu
    exact ((hstart.run before hbefore).1.run after hafter).2 o u hu
  · intro calls w' hrun o ho
    exact ((hstart.run calls hrun).1.members o ho).1
  · intro calls w' hrun
    exact (hstart.run calls hrun).1.answers
  · intro calls w' hrun m hm
    obtain ⟨a', -, hstep⟩ := (hstart.run calls hrun).1.step_eq derived hm
    rw [hstep, Option.isSome_some]

/-- An array with an array in it. -/
def nestedArray : List Statement := [
  .newArray 0,
  .newArray 1,
  .write 1 (.name [120]) (.scalar (.long 1)),
  .write 0 (.name [97]) (.var 1)]

theorem readonly_kept_sample :
    ReadonlyKept derived (readonlyOver ((Store.start.run nestedArray).getD .start) 0) := by
  obtain ⟨s, hs⟩ : ∃ s, Store.start.run nestedArray = some s :=
    Option.isSome_iff_exists.mp (by decide)
  have hread : (Store.start.run nestedArray).all fun s =>
      s.memory.heap.reads (.node [(.name [97], .node [(.name [120], .leaf (.long 1))])])
        (.ref 0) := by
    decide
  rw [hs, Option.all_some] at hread
  rw [hs]
  exact readonly_kept (Store.good_start.run nestedArray (by decide) hs).good ⟨_, hread⟩

/-- An array that holds a configuration that may be written. -/
def storedConfig : List Statement := [
  .newArray 0,
  .newConfig 0 none,
  .newArray 1,
  .write 1 (.name [99]) (.scalar (.object 0))]

/-- What `get` gives back need not be made by it: a stored configuration keeps its own flag. -/
theorem stored_config_written :
    ¬ReadonlyKept obtained (readonlyOver ((Store.start.run storedConfig).getD .start) 1) := by
  intro h
  have hrun : ((readonlyOver ((Store.start.run storedConfig).getD .start) 1).run obtained
      [⟨2, 1, .get (some [99])⟩]).any (fun w =>
        decide (0 ∈ w.family) && decide (w.store.objects[0]? = some (.config false))) = true := by
    decide
  obtain ⟨w, hw, hstored⟩ := (Option.any_eq_true _ _).mp hrun
  simp only [Bool.and_eq_true, decide_eq_true_eq] at hstored
  obtain ⟨hmem, hwritable⟩ := hstored
  have hreadonly := h.readonly _ w hw 0 hmem
  rw [hwritable] at hreadonly
  cases hreadonly

end Session

end Yaf
