import Yaf.Shared.Store

namespace Yaf
open Base Heap

namespace Store

/-- Every holder can be read, and no property belongs to an object that is not made yet. -/
structure Good (s : Store) : Prop where
  valued : s.memory.Valued
  made : ∀ o v, s.memory.at? (.property o) = some v → o < s.objects.length

/-- What is left of the holders that were not touched. -/
structure Keeping (s s' : Store) (touched : Holder → Bool) : Prop where
  good : s'.Good
  keeps : ∀ i, touched i = false → ∀ u, s.memory.Holds i u → s'.memory.Holds i u

variable {s s' s₁ : Store} {i : Holder} {a : Addr} {v : Val Scalar} {u : Nest Key Scalar}
variable {touched touched' : Holder → Bool}

theorem good_start : start.Good where
  valued := ⟨⟨fun _ => Nat.le_refl _, by simp [start, Heap.table?, cell?]⟩, List.nodup_nil,
    by simp [start, Slots.at?]⟩
  made := by simp [start, Slots.at?]

theorem Good.keeping (hg : s.Good) : Keeping s s touched := ⟨hg, fun _ _ _ h => h⟩

theorem Keeping.trans (h : Keeping s s₁ touched) (h' : Keeping s₁ s' touched) :
    Keeping s s' touched :=
  ⟨h'.good, fun i hi u hu => h'.keeps i hi u (h.keeps i hi u hu)⟩

theorem Keeping.mono (h : Keeping s s' touched) (ht : ∀ i, touched' i = false → touched i = false) :
    Keeping s s' touched' :=
  ⟨h.good, fun i hi => h.keeps i (ht i hi)⟩

theorem table?_eq_some : s.table? i = some a ↔ s.memory.at? i = some (.ref a) := by
  unfold table?
  rcases s.memory.at? i with _ | _ | b <;> simp

/-- An array that comes from a source is one a variable holds. -/
theorem value_held {src : Source} (h : s.value src = .ref a) :
    ∃ x, s.memory.at? (.var x) = some (.ref a) := by
  cases src with
  | scalar x => cases h
  | var x =>
    refine ⟨x, ?_⟩
    unfold value at h
    rcases hx : s.memory.at? (.var x) with _ | w
    · simp [hx] at h
    · simpa [hx] using h

theorem Good.value_reads (hg : s.Good) (src : Source) :
    ∃ u, s.memory.heap.reads u (s.value src) = true := by
  cases hv : s.value src with
  | scalar x => exact ⟨.leaf x, reads_leaf.mpr rfl⟩
  | ref b =>
    obtain ⟨x, hx⟩ := value_held hv
    exact hg.valued.readable _ _ hx

/-- An entry of an array that a holder has can be read. -/
theorem Good.entry_reads (hg : s.Good) (hi : s.memory.at? i = some (.ref a)) {k : Key}
    (hm : (k, v) ∈ s.entries a) : ∃ u, s.memory.heap.reads u v = true := by
  obtain ⟨u, hu⟩ := hg.valued.readable _ _ hi
  obtain ⟨es, t, rfl, ht, hrt⟩ := reads_ref.mp hu
  rw [entries, ht, Option.getD_some] at hm
  obtain ⟨w, -, hw⟩ := readsTable_mem hrt hm
  exact ⟨w, hw⟩

theorem mem_entries_of_slot? {k : Key} (h : s.slot? a k = some v) : (k, v) ∈ s.entries a := by
  obtain ⟨t, ht, hk⟩ := Option.bind_eq_some_iff.mp h
  rw [entries, ht, Option.getD_some]
  exact Table.mem_of_find? hk

/-- A value goes to a variable. -/
theorem Good.share (hg : s.Good) (x : Nat) (hv : ∃ u, s.memory.heap.reads u v = true) :
    Keeping s (s.share (.var x) v) (fun i => i = .var x) := by
  obtain ⟨u, hu⟩ := hv
  obtain ⟨hval, -, hkeep⟩ := hg.valued.share (i := .var x) hu
  refine ⟨⟨hval, fun o w ho => ?_⟩, fun i hi => (hkeep i (by simpa using hi)).2⟩
  exact hg.made o w ((hkeep _ (by simp)).1.symm.trans ho)

/-- A new object gets a property that nothing held before. -/
theorem Good.made_keeping {memory : Slots Holder Key Scalar} (hg : s.Good) (kind : Kind)
    (hval : memory.Valued)
    (hkeep : ∀ j, j ≠ .property s.objects.length → Slots.Keeps s.memory memory j) :
    Keeping s { s with memory := memory, objects := s.objects ++ [kind] } touched := by
  refine ⟨⟨hval, fun o v ho => ?_⟩, ?_⟩
  · rw [List.length_append, List.length_singleton]
    by_cases hne : o = s.objects.length
    · omega
    · have := hg.made o v ((hkeep (.property o) (by simpa using hne)).1.symm.trans ho)
      omega
  · rintro i - u ⟨v, hi, hu⟩
    refine (hkeep i ?_).2 u ⟨v, hi, hu⟩
    rintro rfl
    have := hg.made _ v hi
    omega

theorem Good.newConfig (hg : s.Good) (readonly : Bool)
    (ha : ∃ u, s.memory.heap.reads u (.ref a) = true) :
    Keeping s (s.configSimpleInstance a readonly).1 touched := by
  obtain ⟨u, hu⟩ := ha
  obtain ⟨hval, -, hkeep⟩ := hg.valued.share (i := .property s.objects.length) hu
  exact hg.made_keeping _ hval hkeep

theorem Good.format (hg : s.Good) (readonly : Bool)
    (hv : ∃ u, s.memory.heap.reads u v = true) :
    Keeping s (s.configSimpleFormat readonly v).1 touched ∧
      ∃ x, (s.configSimpleFormat readonly v).2 = .scalar x := by
  cases v with
  | scalar x => exact ⟨hg.keeping, x, rfl⟩
  | ref a => exact ⟨hg.newConfig readonly hv, _, rfl⟩

theorem scalar_reads (s : Store) (x : Scalar) :
    ∃ u, s.memory.heap.reads u (.scalar x) = true :=
  ⟨.leaf x, reads_leaf.mpr rfl⟩

/-- A write in place into an array that only its object holds. -/
theorem Good.put {o : Nat} (hg : s.Good) (ho : s.memory.at? (.property o) = some (.ref a))
    (hrc : s.memory.heap.rc a = 1) (k : Key)
    (hv : ∀ b, v = .ref b → ∃ x, s.memory.at? (.var x) = some (.ref b)) :
    Keeping s (s.put a k v) (fun i => i = .property o) := by
  obtain ⟨hval, hkeep⟩ := hg.valued.put ho hrc k fun b hb => by
    obtain ⟨x, hx⟩ := hv b hb
    exact ⟨.var x, by simp, hx⟩
  exact ⟨⟨hval, hg.made⟩, fun i hi => (hkeep i (by simpa using hi)).2⟩

theorem Good.erase {o : Nat} (hg : s.Good) (ho : s.memory.at? (.property o) = some (.ref a))
    (hrc : s.memory.heap.rc a = 1) (k : Key) :
    Keeping s (s.erase a k) (fun i => i = .property o) := by
  obtain ⟨hval, hkeep⟩ := hg.valued.erase ho hrc k
  exact ⟨⟨hval, hg.made⟩, fun i hi => (hkeep i (by simpa using hi)).2⟩

theorem changes_of_configWrites {call : ConfigCall} {readonly : Bool}
    (h : s.configWrites a readonly call = true) : call.changes = true := by
  cases call <;> first | rfl | cases h

/-- A method of a configuration. -/
theorem Good.configCall {o : Nat} (call : ConfigCall) (hg : s.Good) (readonly : Bool)
    (ho : s.memory.at? (.property o) = some (.ref a))
    (hw : s.configWrites a readonly call = true → s.memory.heap.rc a = 1) :
    Keeping s (s.configCall o a readonly call).1
        (fun i => s.configWrites a readonly call && i = .property o) ∧
      ∃ u, (s.configCall o a readonly call).1.memory.heap.reads u
        (s.configCall o a readonly call).2 = true := by
  have hpointer : ∀ pointers : Table Addr Nat, ∀ touched : Holder → Bool,
      Keeping s { s with pointers := pointers } touched :=
    fun _ _ => ⟨⟨hg.valued, hg.made⟩, fun _ _ _ h => h⟩
  have hformat : ∀ v : Val Scalar, (∃ k, (k, v) ∈ s.entries a) → ∀ touched : Holder → Bool,
      Keeping s (s.configSimpleFormat readonly v).1 touched ∧
        ∃ u, (s.configSimpleFormat readonly v).1.memory.heap.reads u
          (s.configSimpleFormat readonly v).2 = true := by
    rintro v ⟨k, hm⟩ touched
    obtain ⟨hkeep, x, hx⟩ := hg.format readonly (hg.entry_reads ho hm)
    exact ⟨hkeep, by rw [hx]; exact scalar_reads _ x⟩
  cases call with
  | get name =>
    cases name with
    | none => exact ⟨hg.keeping, scalar_reads _ _⟩
    | some name =>
      simp only [Store.configCall]
      split
      · exact ⟨hg.keeping, scalar_reads _ _⟩
      · rename_i v hv
        exact hformat v ⟨_, mem_entries_of_slot? hv⟩ _
  | toArray => exact ⟨hg.keeping, hg.valued.readable _ _ ho⟩
  | set name value =>
    cases readonly with
    | true => exact ⟨hg.keeping, scalar_reads _ _⟩
    | false =>
      refine ⟨(hg.put ho (hw rfl) (.name name) fun b hb => value_held hb).mono ?_, scalar_reads _ _⟩
      simp [configWrites]
  | isset name => exact ⟨hg.keeping, scalar_reads _ _⟩
  | offsetUnset name =>
    cases readonly with
    | true => exact ⟨hg.keeping, scalar_reads _ _⟩
    | false =>
      simp only [Store.configCall, Bool.false_eq_true, if_false]
      split
      · rename_i hi
        have hwrites : s.configWrites a false (.offsetUnset name) = true := by
          simpa [configWrites] using hi
        refine ⟨(hg.erase ho (hw hwrites) (.name name)).mono ?_, scalar_reads _ _⟩
        simp [hwrites]
      · exact ⟨hg.keeping, scalar_reads _ _⟩
  | count => exact ⟨hg.keeping, scalar_reads _ _⟩
  | rewind => exact ⟨hpointer _ _, scalar_reads _ _⟩
  | current =>
    simp only [Store.configCall]
    split
    · exact ⟨hg.keeping, scalar_reads _ _⟩
    · rename_i p hp
      exact hformat p.2 ⟨p.1, List.mem_of_getElem? hp⟩ _
  | next => exact ⟨hpointer _ _, scalar_reads _ _⟩
  | key =>
    simp only [Store.configCall]
    split
    · exact ⟨hg.keeping, scalar_reads _ _⟩
    · exact ⟨hg.keeping, scalar_reads _ _⟩
  | valid => exact ⟨hg.keeping, scalar_reads _ _⟩
  | readonly => exact ⟨hg.keeping, scalar_reads _ _⟩

/-- A method of a request. -/
theorem Good.requestCall {o : Nat} (call : RequestCall) (hg : s.Good)
    (ho : s.memory.at? (.property o) = some (.ref a))
    (hw : s.requestWrites call = true → s.memory.heap.rc a = 1) :
    Keeping s (s.requestCall o a call).1 (fun i => call.changes && i = .property o) ∧
      ∃ u, (s.requestCall o a call).1.memory.heap.reads u (s.requestCall o a call).2 = true := by
  cases call with
  | setParam name value =>
    refine ⟨(hg.put ho (hw rfl) (.name name) fun b hb => value_held hb).mono ?_, scalar_reads _ _⟩
    simp [RequestCall.changes]
  | setParams values =>
    simp only [Store.requestCall]
    split
    · exact ⟨hg.keeping, scalar_reads _ _⟩
    · rename_i b hb
      have hx := table?_eq_some.mp hb
      obtain ⟨t, ht⟩ := hg.valued.sound.root_live (Slots.mem_roots hx)
      have hentries : s.entries b = t := by rw [entries, ht, Option.getD_some]
      obtain ⟨hval, hkeep⟩ := hg.valued.copy ho (hw (by simp [requestWrites, hb])) (by simp) hx ht
      refine ⟨⟨⟨hentries ▸ hval, hg.made⟩, fun i hi => ?_⟩, scalar_reads _ _⟩
      rw [hentries]
      exact (hkeep i (by simpa [RequestCall.changes] using hi)).2
  | getParams => exact ⟨hg.keeping, hg.valued.readable _ _ ho⟩

/-- A method of a response. -/
theorem Good.responseCall {o : Nat} {r : Store × Val Scalar} (call : ResponseCall) (hg : s.Good)
    (ho : s.memory.at? (.property o) = some (.ref a))
    (hw : s.responseWrites a call = true → s.memory.heap.rc a = 1)
    (hr : s.responseCall o a call = some r) :
    Keeping s r.1 (fun i => call.changes && i = .property o) ∧
      ∃ u, r.1.memory.heap.reads u r.2 = true := by
  have hmono : ∀ {s' : Store}, call.changes = true → Keeping s s' (fun i => i = .property o) →
      Keeping s s' (fun i => call.changes && i = .property o) := by
    intro s' hc h
    exact h.mono fun i hi => by simpa [hc] using hi
  cases call with
  | alterBody name body flag =>
    simp only [Store.responseCall] at hr
    split at hr
    · obtain rfl := Option.some.inj hr
      exact ⟨hg.keeping, scalar_reads _ _⟩
    · rename_i hb
      have hone := hw (by simpa [responseWrites] using hb)
      split at hr
      · obtain rfl := Option.some.inj hr
        exact ⟨hmono rfl (hg.put ho hone _ (by simp)), scalar_reads _ _⟩
      · obtain rfl := Option.some.inj hr
        exact ⟨hmono rfl (hg.put ho hone _ (by simp)), scalar_reads _ _⟩
      · cases hr
  | clearBody name =>
    obtain rfl := Option.some.inj hr
    refine ⟨?_, scalar_reads _ _⟩
    by_cases hi : (s.slot? a (.name name)).isSome = true
    · exact hmono rfl (hg.erase ho (hw hi) (.name name))
    · have hnone : s.memory.heap.slot? a (.name name) = none := by simpa [slot?] using hi
      have hsame : s.erase a (.name name) = s := by
        simp [Store.erase, Slots.erase, Heap.erase, hnone]
      rw [hsame]
      exact hg.keeping
  | getBody =>
    obtain rfl := Option.some.inj hr
    exact ⟨hg.keeping, hg.valued.readable _ _ ho⟩

/-- A call followed by the assignment of its result. -/
theorem Keeping.result {touched : Holder → Bool} {x : Nat} (h : Keeping s s₁ touched)
    (hv : ∃ u, s₁.memory.heap.reads u v = true) :
    Keeping s (s₁.share (.var x) v) (fun i => i = .var x || touched i) :=
  (h.mono fun i hi => by simp_all).trans ((h.good.share x hv).mono fun i hi => by simp_all)

/-- Work on the places that leaves the properties where they are. -/
theorem Good.of_places {memory : Slots Holder Key Scalar} (hg : s.Good) (hval : memory.Valued)
    (hprop : ∀ o v, memory.at? (.property o) = some v → s.memory.at? (.property o) = some v)
    (hkeep : ∀ i, touched i = false → Slots.Keeps s.memory memory i) :
    Keeping s { s with memory := memory } touched :=
  ⟨⟨hval, fun o v ho => hg.made o v (hprop o v ho)⟩, fun i hi => (hkeep i hi).2⟩

/-- A write of the program separates first. -/
theorem Good.write {x : Nat} (hg : s.Good) (hx : s.memory.at? (.var x) = some (.ref a)) (k : Key)
    (src : Source) (hstep : s.step (.write x k src) = some s') :
    Keeping s s' (fun i => i = .var x || i = .temp) := by
  obtain ⟨u, hu⟩ := hg.value_reads src
  obtain ⟨hval₁, ⟨w, htemp, -⟩, hkeep₁⟩ := hg.valued.share (i := .temp) hu
  have hw : w = s.value src :=
    Option.some.inj (htemp.symm.trans (Table.find?_update_self _ _ _))
  have hx₁ := (hkeep₁ (.var x) (by simp)).1.trans hx
  obtain ⟨hval₂, hkeep₂⟩ := hval₁.assignAt hx₁ k (v := w) fun b hb =>
    ⟨.temp, by simp, hb ▸ htemp⟩
  obtain ⟨hval₃, hkeep₃⟩ := hval₂.drop .temp
  simp only [Store.step, table?_eq_some.mpr hx, Store.share, htemp, Option.getD_some,
    Option.some.injEq] at hstep
  have hkeep : ∀ i, i ≠ .var x → i ≠ .temp → Slots.Keeps s.memory s'.memory i := by
    intro i hi ht
    rw [← hstep]
    exact ((hkeep₁ i ht).trans (hkeep₂ i hi)).trans (hkeep₃ i ht)
  refine ⟨⟨by rw [← hstep]; exact hval₃, fun o v ho => ?_⟩, fun i hi => ?_⟩
  · have := hg.made o v ((hkeep (.property o) (by simp) (by simp)).1.symm.trans ho)
    rwa [← hstep]
  · simp only [Bool.or_eq_false_iff, decide_eq_false_iff_not] at hi
    exact (hkeep i hi.1 hi.2).2

theorem writesInto_of_config {x o : Nat} {call : ConfigCall} {readonly : Bool}
    (hk : s.objects[o]? = some (.config readonly)) (ha : s.table? (.property o) = some a)
    (hu : s.stepUnshared (.config x o call) = true) (hw : s.configWrites a readonly call = true) :
    s.memory.heap.rc a = 1 := by
  simpa [stepUnshared, writesInto, hk, ha, hw] using hu

/-- One statement: what it is not about keeps what it holds, when nothing that is shared is written
in place. -/
theorem Good.step {st : Statement} (hg : s.Good) (hu : s.stepUnshared st = true)
    (hstep : s.step st = some s') : Keeping s s' (fun i => st.touches i) := by
  cases st with
  | assign x value =>
    obtain rfl := Option.some.inj hstep
    exact hg.share x (hg.value_reads value)
  | newArray x =>
    obtain rfl := Option.some.inj hstep
    obtain ⟨hval, -, hkeep⟩ := hg.valued.fresh (.var x)
    refine hg.of_places hval (fun o v ho => (hkeep _ (by simp)).1.symm.trans ho) fun i hi => ?_
    exact hkeep i (by simpa [Statement.touches] using hi)
  | write x k value =>
    cases hx : s.table? (.var x) with
    | none => simp [Store.step, hx] at hstep
    | some a => exact hg.write (table?_eq_some.mp hx) k value hstep
  | unset x =>
    obtain rfl := Option.some.inj hstep
    obtain ⟨hval, hkeep⟩ := hg.valued.drop (.var x)
    refine hg.of_places hval (fun o v ho => (hkeep _ (by simp)).1.symm.trans ho) fun i hi => ?_
    exact hkeep i (by simpa [Statement.touches] using hi)
  | newConfig values readonly =>
    cases hx : s.table? (.var values) with
    | none =>
      obtain rfl : s = s' := by simpa [Store.step, hx] using hstep
      exact hg.keeping
    | some a =>
      obtain rfl : (s.configSimpleInstance a (readonly.getD false)).1 = s' := by
        simpa [Store.step, hx] using hstep
      exact hg.newConfig _ (hg.valued.readable _ _ (table?_eq_some.mp hx))
  | newRequest params =>
    cases params with
    | none =>
      obtain rfl := Option.some.inj hstep
      obtain ⟨hval, -, hkeep⟩ := hg.valued.fresh (.property s.objects.length)
      exact hg.made_keeping _ hval hkeep
    | some params =>
      cases hx : s.table? (.var params) with
      | none => simp [Store.step, hx] at hstep
      | some a =>
        simp only [Store.step, hx, Option.some.injEq] at hstep
        obtain ⟨u, hu⟩ := hg.valued.readable _ _ (table?_eq_some.mp hx)
        obtain ⟨hval, -, hkeep⟩ := hg.valued.share (i := .property s.objects.length) hu
        exact hstep ▸ hg.made_keeping _ hval hkeep
  | newResponse =>
    obtain rfl := Option.some.inj hstep
    obtain ⟨hval, -, hkeep⟩ := hg.valued.fresh (.property s.objects.length)
    exact hg.made_keeping _ hval hkeep
  | destroy o =>
    obtain rfl := Option.some.inj hstep
    obtain ⟨hval, hkeep⟩ := hg.valued.drop (.property o)
    refine hg.of_places hval (fun j v hj => ?_) fun i hi => ?_
    · by_cases hjo : j = o
      · subst hjo
        have hgone : (s.memory.drop (.property j)).at? (.property j) = none :=
          Table.find?_erase_self hg.valued.nodup _
        rw [hgone] at hj
        cases hj
      · exact (hkeep _ (by simpa using hjo)).1.symm.trans hj
    · exact hkeep i (by simpa [Statement.touches] using hi)
  | config x o call =>
    rcases hk : s.objects[o]? with _ | readonly | _ | _
    · simp [Store.step, hk] at hstep
    · cases ha : s.table? (.property o) with
      | none => simp [Store.step, hk, ha] at hstep
      | some a =>
        obtain ⟨hkeep, hret⟩ := hg.configCall call _ (table?_eq_some.mp ha)
          (writesInto_of_config hk ha hu)
        simp only [Store.step, hk, ha, Option.some.injEq] at hstep
        refine hstep ▸ Keeping.result (hkeep.mono fun i hi => ?_) hret
        rw [Bool.and_eq_false_iff] at hi ⊢
        refine hi.imp_left fun hc => ?_
        by_contra hw
        rw [changes_of_configWrites (Bool.of_not_eq_false hw)] at hc
        cases hc
    · simp [Store.step, hk] at hstep
    · simp [Store.step, hk] at hstep
  | request x o call =>
    rcases hk : s.objects[o]? with _ | _ | _ | _
    · simp [Store.step, hk] at hstep
    · simp [Store.step, hk] at hstep
    · cases ha : s.table? (.property o) with
      | none => simp [Store.step, hk, ha] at hstep
      | some a =>
        have hone : s.requestWrites call = true → s.memory.heap.rc a = 1 := by
          intro hw
          simpa [stepUnshared, writesInto, ha, hw] using hu
        obtain ⟨hkeep, hret⟩ := hg.requestCall call (table?_eq_some.mp ha) hone
        simp only [Store.step, hk, ha, Option.some.injEq] at hstep
        exact hstep ▸ hkeep.result hret
    · simp [Store.step, hk] at hstep
  | response x o call =>
    rcases hk : s.objects[o]? with _ | _ | _ | _
    · simp [Store.step, hk] at hstep
    · simp [Store.step, hk] at hstep
    · simp [Store.step, hk] at hstep
    · cases ha : s.table? (.property o) with
      | none => simp [Store.step, hk, ha] at hstep
      | some a =>
        have hone : s.responseWrites a call = true → s.memory.heap.rc a = 1 := by
          intro hw
          simpa [stepUnshared, writesInto, ha, hw] using hu
        simp only [Store.step, hk, ha, Option.bind_eq_bind, Option.bind_eq_some_iff,
          Option.some.injEq] at hstep
        obtain ⟨r, hr, rfl⟩ := hstep
        obtain ⟨hkeep, hret⟩ := hg.responseCall call (table?_eq_some.mp ha) hone hr
        exact hkeep.result hret

/-- A run: what none of its statements is about keeps what it holds. -/
theorem Good.run (statements : List Statement) :
    ∀ {s : Store}, s.Good → s.unshared statements = true → s.run statements = some s' →
      Keeping s s' (fun i => statements.any (Statement.touches i)) := by
  induction statements with
  | nil =>
    intro s hg _ hrun
    obtain rfl := Option.some.inj hrun
    exact hg.keeping
  | cons st sts ih =>
    intro s hg hu hrun
    rw [Store.run, List.foldlM_cons, Option.bind_eq_bind, Option.bind_eq_some_iff] at hrun
    obtain ⟨s₁, hstep, hrun⟩ := hrun
    rw [unshared, Bool.and_eq_true, hstep, Option.all_some] at hu
    have hone := hg.step hu.1 hstep
    have hrest := ih hone.good hu.2 hrun
    refine (hone.mono ?_).trans (hrest.mono ?_)
    · intro i hi
      rw [List.any_cons, Bool.or_eq_false_iff] at hi
      exact hi.1
    · intro i hi
      rw [List.any_cons, Bool.or_eq_false_iff] at hi
      exact hi.2

theorem unshared_append {before after : List Statement} :
    ∀ {s : Store}, s.unshared (before ++ after) = true → s.run before = some s₁ →
      s.unshared before = true ∧ s₁.unshared after = true := by
  induction before with
  | nil =>
    intro s hu hrun
    obtain rfl := Option.some.inj hrun
    exact ⟨rfl, hu⟩
  | cons st before ih =>
    intro s hu hrun
    rw [Store.run, List.foldlM_cons, Option.bind_eq_bind, Option.bind_eq_some_iff] at hrun
    obtain ⟨s₂, hstep, hrun⟩ := hrun
    rw [List.cons_append, unshared, Bool.and_eq_true, hstep, Option.all_some] at hu
    obtain ⟨hbefore, hafter⟩ := ih hu.2 hrun
    refine ⟨?_, hafter⟩
    rw [unshared, Bool.and_eq_true, hstep, Option.all_some]
    exact ⟨hu.1, hbefore⟩

/-- What a holder has at some point of a run it still has at the end, unless a statement in between
was about it. -/
def ValuesKept (before after : List Statement) : Prop :=
  ∀ s s', start.run before = some s → s.run after = some s' →
    ∀ i, after.any (Statement.touches i) = false → ∀ u, s.memory.Holds i u → s'.memory.Holds i u

/-- Arrays are values in every run that writes in place only into arrays that are held once. -/
theorem arrays_are_values (before after : List Statement)
    (hu : start.unshared (before ++ after) = true) : ValuesKept before after := by
  intro s s' hbefore hafter
  obtain ⟨hu₁, hu₂⟩ := unshared_append hu hbefore
  have hg := (good_start.run before hu₁ hbefore).good
  exact (hg.run after hu₂ hafter).keeps

/-- A configuration over an array that is written to afterwards, and a copy taken of it. -/
def copiedConfig : List Statement := [
  .newArray 0,
  .write 0 (.name (lit "host")) (.scalar (.string (lit "a"))),
  .newConfig 0 none,
  .config 1 0 .toArray,
  .write 0 (.name (lit "host")) (.scalar (.string (lit "b")))]

/-- With the copy gone the configuration holds its array alone. -/
def changedConfig : List Statement := [
  .unset 1,
  .config 2 0 (.set (lit "host") (.scalar (.string (lit "c"))))]

theorem arrays_are_values_sample : ValuesKept copiedConfig changedConfig :=
  arrays_are_values copiedConfig changedConfig (by decide)

/-- A configuration over an array that its variable still has. -/
def sharedConfig : List Statement := [
  .newArray 0,
  .write 0 (.name [120]) (.scalar (.long 1)),
  .newConfig 0 none]

/-- A `set` shows in the array the configuration was made from. -/
theorem handed_in_array_changed :
    ¬ValuesKept sharedConfig [.config 1 0 (.set [120] (.scalar (.long 2)))] := by
  intro h
  have hread : (start.run sharedConfig).all fun s =>
      s.memory.at? (.var 0) = some (.ref 0) &&
        s.memory.heap.reads (.node [(.name [120], .leaf (.long 1))]) (.ref 0) := by
    decide
  have hchanged : ((start.run sharedConfig).bind
      (·.run [.config 1 0 (.set [120] (.scalar (.long 2)))])).all fun s =>
      s.memory.at? (.var 0) = some (.ref 0) &&
        !s.memory.heap.reads (.node [(.name [120], .leaf (.long 1))]) (.ref 0) := by
    decide
  obtain ⟨s, hs⟩ : ∃ s, start.run sharedConfig = some s :=
    Option.isSome_iff_exists.mp (by decide)
  obtain ⟨s', hs'⟩ : ∃ s', s.run [.config 1 0 (.set [120] (.scalar (.long 2)))] = some s' := by
    have hrun : ((start.run sharedConfig).bind
        (·.run [.config 1 0 (.set [120] (.scalar (.long 2)))])).isSome = true := by decide
    rw [hs] at hrun
    exact Option.isSome_iff_exists.mp hrun
  simp only [hs, hs', Option.bind_some, Option.all_some, Bool.and_eq_true, decide_eq_true_eq,
    Bool.not_eq_true'] at hread hchanged
  obtain ⟨v, hv, hstill⟩ := h s s' hs hs' (.var 0) (by decide) _ ⟨_, hread.1, hread.2⟩
  obtain rfl := Option.some.inj (hv.symm.trans hchanged.1)
  rw [hchanged.2] at hstill
  cases hstill

end Store

end Yaf
