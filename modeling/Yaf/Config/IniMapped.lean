import Yaf.Config.IniChecked

namespace Yaf
open Base Heap IniSpec

/-- Every access was on a table and every token was there. A header scan that leaves its buffer
ends the run for a reason of its own. -/
def OnMaps {α : Type} (x : Except Fault α) : Prop := ∀ fault, x = .error fault → fault = .pastBuffer

/-- The section `yaf_config_ini_instance` asks the parser for. -/
def wantedSection (sectionName : Bytes) : Option Bytes :=
  if sectionName = [] then none else some sectionName

/-- Loading never takes a string for a table. -/
def MapsOnly (file sectionName : Bytes) (cbs : List Callback) : Prop :=
  OnMaps (iniInstanceChecked file sectionName cbs)

def fault? {α : Type} : Except Fault α → Option Fault
  | .ok _ => none
  | .error fault => some fault

/-- No string stands under a name. -/
def IniState.noString (st : IniState) (key : Key) : Bool :=
  match st.heap.slot? st.arr key with
  | some (.scalar _) => false
  | _ => true

/-- A `POP_ENTRY` walk with a segment, and no string before its last. -/
def popMapped (h : IniHeap) (dst : Addr) : List Key → Bool
  | [] => false
  | [_] => true
  | seg :: segs =>
    match h.slot? dst seg with
    | none => true
    | some (.ref findHash) => popMapped h findHash segs
    | some (.scalar _) => false

/-- What a callback needs: no string under a listed parent, and a walk over tables. -/
def stepMapped (st : IniState) : Callback → Bool
  | .section key => st.parsingFlag != .start ||
    (sectionHeader key).all fun p => p.2.all fun parent => st.noString (symtableKey parent)
  | .popEntry key (some _) _ => st.parsingFlag == .ended ||
    popMapped st.heap (st.active.getD st.arr) (popSegments key)
  | _ => true

/-- Every step of a run meets it. -/
def runMapped (wanted : Option Bytes) (st : IniState) : List Callback → Bool
  | [] => true
  | cb :: cbs => stepMapped st cb && (iniParserCb wanted st cb).all (runMapped wanted · cbs)

section
variable {α β : Type} {x : Except Fault α} {a : α} {fault : Fault}

theorem onMaps_ok : OnMaps (.ok a : Except Fault α) := fun _ h => by cases h

theorem onMaps_error_iff : OnMaps (.error fault : Except Fault α) ↔ fault = .pastBuffer := by
  constructor
  · exact fun h => h fault rfl
  · intro h fault' he
    obtain rfl := Except.error.inj he
    exact h

theorem OnMaps.of_ok (h : x = .ok a) : OnMaps x := h ▸ onMaps_ok

theorem not_onMaps (h : fault? x = some fault) (hne : fault ≠ .pastBuffer) : ¬OnMaps x := by
  cases x with
  | ok a => cases h
  | error e =>
    obtain rfl := Option.some.inj h
    exact fun hmaps => hne (onMaps_error_iff.mp hmaps)

/-- The rest of a computation that cannot fail. -/
theorem onMaps_bind_iff {f : α → Except Fault β} (hf : ∀ a, x = .ok a → OnMaps (f a)) :
    OnMaps (x >>= f) ↔ OnMaps x := by
  cases x with
  | error e => rw [error_bind, onMaps_error_iff, onMaps_error_iff]
  | ok a =>
    rw [ok_bind]
    exact ⟨fun _ => onMaps_ok, fun _ => hf a rfl⟩

theorem IniState.noString_iff {st : IniState} {key : Key} :
    st.noString key = true ↔ ∀ s, st.heap.slot? st.arr key ≠ some (.scalar s) := by
  unfold IniState.noString
  rcases st.heap.slot? st.arr key with _ | _ | b
  · simp
  · simp
  · simp

end

section
variable {h : IniHeap} {r d : Addr} {es : Content}

theorem popMapped_empty (ht : h.table? d = some []) {segs : List Key} (hs : segs ≠ []) :
    popMapped h d segs = true := by
  cases segs with
  | nil => exact absurd rfl hs
  | cons k segs => cases segs <;> simp [popMapped, slot?_eq ht]

/-- A walk over tables arrives. -/
theorem popFindChecked_arrives (segs : List Key) :
    ∀ {h : IniHeap} {d : Addr} {es : Content}, Focus h [.ref r] [] r es →
      (∃ t, h.table? d = some t) → popMapped h d segs = true →
        ∃ found, popFindChecked h (.ref d) segs = .ok found := by
  induction segs with
  | nil => exact fun _ _ hm => by cases hm
  | cons seg segs ih =>
    intro h d es f ⟨t, ht⟩ hm
    rw [popFindChecked, arrval, ok_bind]
    cases segs with
    | nil => cases h.slot? d seg <;> exact ⟨_, rfl⟩
    | cons seg' segs =>
      simp only [popMapped] at hm
      rcases hs : h.slot? d seg with _ | s | a
      · obtain ⟨⟨es', hfresh⟩, -, hempty, -⟩ := f.fresh_aside ht (k := seg) (by simp [hs])
        exact ih hfresh.focus ⟨[], hempty⟩ (popMapped_empty hempty (by simp))
      · rw [hs] at hm
        cases hm
      · rw [hs] at hm
        rw [slot?_eq ht] at hs
        exact ih f (f.sound.child_live ht (Table.mem_of_find? hs)) hm

/-- Any other one reads a string as a table, or has no token at all. -/
theorem popFindChecked_fault (segs : List Key) :
    ∀ {d : Addr}, popMapped h d segs = false →
      ¬OnMaps (popFindChecked h (.ref d) segs) := by
  induction segs with
  | nil =>
    intro d _ hmaps
    cases hmaps _ rfl
  | cons seg segs ih =>
    intro d hm
    rw [popFindChecked, arrval, ok_bind]
    cases segs with
    | nil => cases hm
    | cons seg' segs =>
      simp only [popMapped] at hm
      rcases hs : h.slot? d seg with _ | s | a
      · rw [hs] at hm
        cases hm
      · intro hmaps
        cases hmaps .notMap rfl
      · rw [hs] at hm
        exact ih hm

theorem simplePopEntryChecked_onMaps_iff {key value : Bytes} {index : Option Bytes}
    (f : Focus h [.ref r] [] r es) (hlive : ∃ t, h.table? d = some t) :
    OnMaps (simplePopEntryChecked h (.ref d) key value index) ↔
      popMapped h d (popSegments key) = true := by
  have hrest : OnMaps (simplePopEntryChecked h (.ref d) key value index) ↔
      OnMaps (popFindChecked h (.ref d) (popSegments key)) := by
    unfold simplePopEntryChecked
    apply onMaps_bind_iff
    intro ⟨dst, seg, h₁⟩ hfound
    have hfind : popFind h d (popSegments key) = some (dst, seg, h₁) := by
      rw [← popFindChecked_toOption, hfound, toOption_ok]
    obtain ⟨_, _, _, _, ⟨t, ht⟩, _⟩ := popFind_aside _ f hlive hfind
    simp only [liveTable, ht, ok_bind]
    cases popKey t index <;> exact onMaps_ok
  rw [hrest]
  cases hm : popMapped h d (popSegments key) with
  | true =>
    obtain ⟨found, hfound⟩ := popFindChecked_arrives _ f hlive hm
    simp [OnMaps.of_ok hfound]
  | false => simp [popFindChecked_fault _ hm]

/-- A string among the parents is read as a table, whatever was copied before. -/
theorem inheritSectionsChecked_fault {arr sec : Addr} {configs : Content} (parents : List Bytes) :
    ∀ {h : IniHeap} {d : Content}, Focus h [.ref arr] [] arr configs →
      Focus h [.ref sec, .ref arr] [arr] sec d →
      (∃ p ∈ parents, ∃ s, h.slot? arr (symtableKey p) = some (.scalar s)) →
        parents.foldlM (inheritSectionChecked (.ref arr) (.ref sec)) h = .error .notMap := by
  induction parents with
  | nil =>
    intro h d _ _ ⟨p, hp, _⟩
    cases hp
  | cons p parents ih =>
    intro h d f fs ⟨q, hq, s, hs⟩
    by_cases hp : ∃ s, h.slot? arr (symtableKey p) = some (.scalar s)
    · obtain ⟨s, hs⟩ := hp
      obtain ⟨t, ht, _⟩ := f.table
      obtain ⟨c, hc, _⟩ := cell?_of_table? ht
      obtain ⟨n, hn⟩ := Nat.exists_eq_succ_of_ne_zero (Nat.ne_zero_of_lt (lt_size hc))
      apply foldlM_of_error
      simp only [inheritSectionChecked, arrval, ok_bind, hs, hn]
      rfl
    · have hno : ∀ s, h.slot? arr (symtableKey p) ≠ some (.scalar s) := fun s hs => hp ⟨s, hs⟩
      obtain ⟨h₁, hone, hb⟩ := inheritSections_spec [p] f fs (by simpa using hno)
      have hstep : inheritSectionChecked (.ref arr) (.ref sec) h p = .ok h₁ := by
        rw [← toOption_eq_some_iff, inheritSectionChecked_toOption]
        simpa [List.foldlM_cons] using hone
      rw [foldlM_of_ok parents hstep]
      refine ih (f.apart fs hb).focus hb.focus ⟨q, ?_, s, ?_⟩
      · rcases List.mem_cons.mp hq with rfl | hq
        · exact absurd hs (hno s)
        · exact hq
      · rwa [slot?_congr (hb.frame.table arr List.mem_cons_self)]

end

section
variable {st st' : IniState} {configs : Content} {name : Option Key} {cb : Callback}
  {wanted : Option Bytes}

theorem Loads.active_live (l : Loads st configs name) :
    ∃ t, st.heap.table? (st.active.getD st.arr) = some t := by
  cases name with
  | none =>
    have ha : st.active = none := l.active
    obtain ⟨t, ht, _⟩ := l.focus.table
    exact ⟨t, by rw [ha, Option.getD_none, ht]⟩
  | some own =>
    obtain ⟨sec, e, ha, ⟨t, ht, hk, _⟩, _⟩ := l.active
    rw [ha, Option.getD_some]
    exact l.focus.sound.child_live ht (Table.mem_of_find? hk)

/-- A header goes on exactly when no parent names a string. -/
theorem header_onMaps_iff {key : Bytes} (l : Loads st configs name) :
    OnMaps (iniParserCbChecked wanted st (.section key)) ↔ stepMapped st (.section key) = true := by
  simp only [iniParserCbChecked, stepMapped, l.parsing, reduceCtorEq, if_false,
    bne_self_eq_false, Bool.false_or, sectionHeaderChecked]
  rcases sectionHeader key with _ | ⟨sec, parents⟩
  · simp [error_bind, onMaps_error_iff]
  obtain ⟨hb, fs⟩ := l.focus.alloc
  obtain ⟨t, ht, _⟩ := l.focus.table
  have hslot : ∀ k, st.heap.alloc.2.slot? st.arr k = st.heap.slot? st.arr k := by
    intro k
    have hta : st.heap.alloc.2.table? st.arr = some t := table?_push _ ht
    rw [slot?_congr (hta.trans ht.symm)]
  simp only [ok_bind, Option.all_some, List.all_eq_true]
  rw [onMaps_bind_iff (fun _ _ => onMaps_ok)]
  constructor
  · intro hmaps p hp
    by_contra hno
    simp only [IniState.noString_iff, not_forall, not_not] at hno
    obtain ⟨s, hs⟩ := hno
    have hstring : ∃ p ∈ parents, ∃ s,
        st.heap.alloc.2.slot? st.arr (symtableKey p) = some (.scalar s) :=
      ⟨p, hp, s, (hslot _).trans hs⟩
    rw [inheritSectionsChecked_fault parents hb.focus fs hstring, onMaps_error_iff] at hmaps
    cases hmaps
  · intro hall
    have hclear : ∀ p ∈ parents, ∀ s,
        st.heap.alloc.2.slot? st.arr (symtableKey p) ≠ some (.scalar s) := by
      intro p hp s hs
      exact IniState.noString_iff.mp (hall p hp) s ((hslot _).symm.trans hs)
    obtain ⟨h', hloop, -⟩ := inheritSections_spec parents hb.focus fs hclear
    have hchecked : (parents.foldlM (inheritSectionChecked (.ref st.arr)
        (.ref st.heap.alloc.1)) st.heap.alloc.2).toOption = some h' := by
      rw [toOption_foldlM (inheritSectionChecked_toOption _ _), hloop]
    exact OnMaps.of_ok (toOption_eq_some_iff.mp hchecked)

/-- One step of a run: it fails exactly when it does not meet its condition. -/
theorem step_onMaps_iff (l : Loads st.restarted configs name) :
    OnMaps (iniParserCbChecked wanted st cb) ↔ stepMapped st cb = true := by
  cases cb with
  | «section» key =>
    cases hflag : st.parsingFlag with
    | start =>
      rw [restarted_start hflag] at l
      exact header_onMaps_iff l
    | process => simp [iniParserCbChecked, stepMapped, hflag, onMaps_ok]
    | ended => simp [iniParserCbChecked, stepMapped, hflag, onMaps_ok]
  | entry key value =>
    have hentry : ∃ h', simpleParserCbChecked st.heap (.ref (st.active.getD st.arr))
        (.entry key value) = .ok h' := by
      cases value with
      | none => exact ⟨_, rfl⟩
      | some value => exact ⟨_, simpleEntryChecked_ok _ _ _ _⟩
    obtain ⟨h', hstep⟩ := hentry
    simp only [iniParserCbChecked, stepMapped, hstep, ok_bind, iff_true]
    split <;> exact onMaps_ok
  | popEntry key value index =>
    cases value with
    | none =>
      simp only [iniParserCbChecked, simpleParserCbChecked, stepMapped, ok_bind, iff_true]
      split <;> exact onMaps_ok
    | some value =>
      by_cases hend : st.parsingFlag = .ended
      · simp [iniParserCbChecked, stepMapped, hend, onMaps_ok]
      · have f : Focus st.heap [.ref st.arr] [] st.arr configs := l.focus
        have hbeq : (st.parsingFlag == .ended) = false := by simpa using hend
        simp only [iniParserCbChecked, simpleParserCbChecked, stepMapped, if_neg hend, hbeq,
          Bool.false_or]
        rw [onMaps_bind_iff (fun _ _ => onMaps_ok)]
        exact simplePopEntryChecked_onMaps_iff f l.active_live

theorem loads_header {key : Bytes} (l : Loads st configs name)
    (h : iniParserCb wanted st (.section key) = some st') :
    ∃ configs' name', Loads st'.restarted configs' name' := by
  cases wanted with
  | none =>
    obtain ⟨sec, parents, -, l'⟩ := l.header_any h
    exact ⟨_, _, (restarted_start l'.parsing).symm ▸ l'⟩
  | some sectionName =>
    rw [iniParserCb_header l.parsing] at h
    obtain ⟨st₁, hplain, rfl⟩ := Option.map_eq_some_iff.mp h
    obtain ⟨sec, parents, -, l'⟩ := l.header_any hplain
    refine ⟨_, _, (?_ : IniState.restarted _ = st₁).symm ▸ l'⟩
    split
    · exact restarted_start l'.parsing
    · exact restarted_start l'.parsing

theorem loads_entry (hs : cb.isSection = false) (hflag : st.parsingFlag ≠ .ended)
    (l : Loads st.restarted configs name) (h : iniParserCb wanted st cb = some st') :
    ∃ configs' name', Loads st'.restarted configs' name' := by
  rw [iniParserCb_entry hs hflag] at h
  obtain ⟨h', hstep, rfl⟩ := Option.map_eq_some_iff.mp h
  have hplain : iniParserCb none st.restarted cb = some { st.restarted with heap := h' } := by
    rw [iniParserCb_entry hs (by simp [IniState.restarted])]
    exact congrArg (Option.map _) hstep
  have hentry : ∀ key, cb ≠ .section key := fun key he => by simp [he, Callback.isSection] at hs
  obtain ⟨configs', l', -⟩ := l.entry_any hentry hplain
  exact ⟨configs', name, l'⟩

/-- The wanted section changes the flag, not what is loaded. -/
theorem loads_step (l : Loads st.restarted configs name) (h : iniParserCb wanted st cb = some st') :
    ∃ configs' name', Loads st'.restarted configs' name' := by
  cases hs : cb.isSection with
  | false =>
    by_cases hflag : st.parsingFlag = .ended
    · have hsame : iniParserCb wanted st cb = some st := by simp [iniParserCb, hflag]
      obtain rfl := Option.some.inj (hsame.symm.trans h)
      exact ⟨configs, name, l⟩
    · exact loads_entry hs hflag l h
  | true =>
    obtain ⟨key, rfl⟩ := Callback.eq_section hs
    cases hflag : st.parsingFlag with
    | start => exact loads_header (restarted_start hflag ▸ l) h
    | process =>
      have hover : iniParserCb wanted st (.section key) =
          some { st with parsingFlag := .ended } := by
        simp [iniParserCb, hflag]
      obtain rfl := Option.some.inj (hover.symm.trans h)
      exact ⟨configs, name, l⟩
    | ended =>
      have hsame : iniParserCb wanted st (.section key) = some st := by simp [iniParserCb, hflag]
      obtain rfl := Option.some.inj (hsame.symm.trans h)
      exact ⟨configs, name, l⟩

/-- A run fails exactly when a step does not meet its condition. -/
theorem run_onMaps_iff (cbs : List Callback) :
    ∀ {st : IniState} {configs : Content} {name : Option Key}, Loads st.restarted configs name →
      (OnMaps (cbs.foldlM (iniParserCbChecked wanted) st) ↔ runMapped wanted st cbs = true) := by
  induction cbs with
  | nil => exact fun _ => ⟨fun _ => rfl, fun _ => onMaps_ok⟩
  | cons cb cbs ih =>
    intro st configs name l
    have hstep := @step_onMaps_iff st configs name cb wanted l
    have hplain := iniParserCbChecked_toOption wanted st cb
    rw [runMapped, Bool.and_eq_true, ← hstep, ← hplain]
    cases hrun : iniParserCbChecked wanted st cb with
    | error fault =>
      rw [foldlM_of_error cbs hrun]
      simp [onMaps_error_iff, Except.toOption]
    | ok st' =>
      rw [hrun, toOption_ok] at hplain
      obtain ⟨configs', name', l'⟩ := loads_step l hplain.symm
      rw [foldlM_of_ok cbs hrun, toOption_ok, Option.all_some, ih l']
      simp [onMaps_ok]

theorem loads_run (cbs : List Callback) {st : IniState} {configs : Content}
    {name : Option Key} (l : Loads st.restarted configs name)
    (hrun : cbs.foldlM (iniParserCb wanted) st = some st') :
    ∃ configs' name', Loads st'.restarted configs' name' := by
  refine foldlM_some_keeps (I := fun st => ∃ configs name, Loads st.restarted configs name) ?_
    ⟨configs, name, l⟩ hrun
  intro st cb st' hl hstep
  obtain ⟨configs, name, l⟩ := hl
  exact loads_step l hstep

/-- The lookup of the wanted section. -/
theorem sectionObject_onMaps_iff {file sectionName : Bytes} (l : Loads st.restarted configs name) :
    OnMaps (sectionObjectChecked file sectionName st.heap (.ref st.arr)) ↔
      st.noString (symtableKey sectionName) = true := by
  have f : Focus st.heap [.ref st.arr] [] st.arr configs := l.focus
  obtain ⟨t, ht, _⟩ := f.table
  unfold IniState.noString
  simp only [sectionObjectChecked, arrval, ok_bind]
  rcases hs : st.heap.slot? st.arr (symtableKey sectionName) with _ | _ | a
  · simp [onMaps_ok]
  · simp [error_bind, onMaps_error_iff]
  · rw [slot?_eq ht] at hs
    obtain ⟨u, hu⟩ := f.sound.child_live ht (Table.mem_of_find? hs)
    simp [liveTable, hu, ok_bind, onMaps_ok]

end

/-- No string is taken for a table exactly when every step finds none where it needs a table, every
walk has a segment, and the wanted name ends up on no string. -/
theorem mapsOnly_iff (file sectionName : Bytes) (cbs : List Callback) :
    MapsOnly file sectionName cbs ↔
      runMapped (wantedSection sectionName) iniStart cbs = true ∧
        ∀ st, sectionName ≠ [] → iniLoad (some sectionName) cbs = some st →
          st.noString (symtableKey sectionName) = true := by
  have lstart : Loads iniStart.restarted [] none := loads_start
  unfold MapsOnly iniInstanceChecked wantedSection
  by_cases hname : sectionName = []
  · rw [if_pos hname, if_pos hname, onMaps_bind_iff (fun _ _ => onMaps_ok), iniLoadChecked,
      run_onMaps_iff cbs lstart]
    simp [hname]
  · rw [if_neg hname, if_neg hname, ← run_onMaps_iff cbs lstart, ← iniLoadChecked]
    have hplain := iniLoadChecked_toOption (some sectionName) cbs
    cases hload : iniLoadChecked (some sectionName) cbs with
    | error fault =>
      rw [hload] at hplain
      simp [error_bind, onMaps_error_iff, ← hplain, Except.toOption]
    | ok st =>
      rw [hload, toOption_ok] at hplain
      obtain ⟨configs, name, l⟩ := loads_run cbs lstart hplain.symm
      rw [ok_bind, sectionObject_onMaps_iff l, ← hplain]
      simp [onMaps_ok, hname]

/-- A string on the way of a push, a key of dots, a parent and a wanted section that are strings. -/
theorem string_taken_for_table :
    ¬MapsOnly (lit "f.ini") [] [.entry (lit "a") (some (lit "1")),
        .popEntry (lit "a.b") (some (lit "2")) none] ∧
      ¬MapsOnly (lit "f.ini") [] [.popEntry (lit ".") (some (lit "1")) none] ∧
      ¬MapsOnly (lit "f.ini") [] [.entry (lit "a") (some (lit "1")), .section (lit "b : a")] ∧
      ¬MapsOnly (lit "f.ini") (lit "a") [.entry (lit "a") (some (lit "1"))] := by
  refine ⟨?_, ?_, ?_, ?_⟩
  · exact @not_onMaps _ _ .notMap (by decide) (by decide)
  · exact @not_onMaps _ _ .nullToken (by decide) (by decide)
  · exact @not_onMaps _ _ .notMap (by decide) (by decide)
  · exact @not_onMaps _ _ .notMap (by decide) (by decide)

end Yaf
