import Yaf.Config.IniRuns

namespace Yaf
open Base Heap IniSpec

/-- The end of `yaf_config_ini_instance` when a section is wanted: the object gets a copy of its
table, and what was loaded is given back. `none` stands for undefined behaviour: a string under
the name is used as a table. -/
def sectionObject (file sectionName : Bytes) (h : IniHeap) (configs : Addr) :
    Option (Except Bytes (IniHeap × Addr)) :=
  match h.slot? configs (symtableKey sectionName) with
  | none => some (.error (lit "There is no section '" ++ cstr sectionName ++ lit "' in '" ++
      cstr file ++ lit "'"))
  | some (.scalar _) => none
  | some (.ref a) => do
    let t ← h.table? a
    let (zv, h) := h.dup t
    some (.ok (h.release h.size (.ref configs), zv))

/-- `yaf_config_ini_instance` on a file that parses into these callbacks: the table of the object,
or the message of the error. -/
def iniInstance (file sectionName : Bytes) (cbs : List Callback) :
    Option (Except Bytes (IniHeap × Addr)) :=
  if sectionName = [] then (iniLoad none cbs).map fun st => .ok (st.heap, st.arr)
  else (iniLoad (some sectionName) cbs).bind fun st =>
    sectionObject file sectionName st.heap st.arr

def Callback.isSection : Callback → Bool
  | .section _ => true
  | _ => false

theorem Callback.eq_section {cb : Callback} (h : cb.isSection = true) :
    ∃ header, cb = .section header := by
  cases cb with
  | «section» header => exact ⟨header, rfl⟩
  | entry _ _ => cases h
  | popEntry _ _ _ => cases h

/-- The header the selective load takes for the wanted one: its name in any case. -/
def Callback.names (sectionName : Bytes) : Callback → Bool
  | .section key => (sectionHeader key).any fun p =>
    sectionName.length == p.1.length && strncasecmp sectionName p.1 p.1.length
  | _ => false

/-- The callbacks up to the end of the first section that is taken for the wanted one. -/
def readPart (sectionName : Bytes) : List Callback → List Callback
  | [] => []
  | cb :: cbs =>
    cb :: if cb.names sectionName then cbs.takeWhile (!·.isSection) else readPart sectionName cbs

/-- The callbacks the selective load never looks at. -/
def skippedPart (sectionName : Bytes) (cbs : List Callback) : List Callback :=
  cbs.drop (readPart sectionName cbs).length

theorem readPart_front (sectionName : Bytes) (cbs : List Callback) :
    readPart sectionName cbs <+: cbs := by
  induction cbs with
  | nil => exact List.prefix_rfl
  | cons cb cbs ih =>
    rw [readPart, List.prefix_cons_inj]
    split
    · exact List.takeWhile_prefix _
    · exact ih

theorem readPart_append_skippedPart (sectionName : Bytes) (cbs : List Callback) :
    readPart sectionName cbs ++ skippedPart sectionName cbs = cbs :=
  List.prefix_iff_eq_append.mp (readPart_front sectionName cbs)

/-- What is skipped starts with a header. -/
theorem skippedPart_head (sectionName : Bytes) (cbs : List Callback) :
    ∀ cb ∈ (skippedPart sectionName cbs).head?, ∃ header, cb = .section header := by
  induction cbs with
  | nil => simp [skippedPart]
  | cons c cbs ih =>
    intro cb hcb
    rw [skippedPart, readPart, List.length_cons, List.drop_succ_cons] at hcb
    split at hcb
    · have hdrop :
        cbs.drop (cbs.takeWhile (!·.isSection)).length = cbs.dropWhile (!·.isSection) := by
        nth_rewrite 2 [← List.takeWhile_append_dropWhile (p := (!·.isSection)) (l := cbs)]
        rw [List.drop_left]
      rw [hdrop] at hcb
      have hstop := List.head?_dropWhile_not (!·.isSection) cbs
      rw [Option.mem_def] at hcb
      rw [hcb] at hstop
      exact Callback.eq_section (by simpa using hstop)
    · exact ih cb hcb

def IniState.restarted (st : IniState) : IniState := { st with parsingFlag := .start }

section
variable {st : IniState} {wanted : Option Bytes} {cb : Callback}

theorem iniParserCb_entry (hs : cb.isSection = false) (h : st.parsingFlag ≠ .ended) :
    iniParserCb wanted st cb =
      (simpleParserCb st.heap (st.active.getD st.arr) cb).map fun h => { st with heap := h } := by
  cases cb with
  | «section» key => cases hs
  | entry key value =>
    simp only [iniParserCb, if_neg h]
    cases simpleParserCb st.heap (st.active.getD st.arr) (.entry key value) <;> rfl
  | popEntry key value index =>
    simp only [iniParserCb, if_neg h]
    cases simpleParserCb st.heap (st.active.getD st.arr) (.popEntry key value index) <;> rfl

/-- The wanted section shows in the flag only. -/
theorem iniParserCb_header {sectionName key : Bytes} (h : st.parsingFlag = .start) :
    iniParserCb (some sectionName) st (.section key) =
      (iniParserCb none st (.section key)).map fun st' =>
        if (Callback.section key).names sectionName then { st' with parsingFlag := .process }
        else st' := by
  simp only [iniParserCb, h, reduceCtorEq, if_false, Callback.names]
  rcases Option.eq_none_or_eq_some (sectionHeader key) with hh | ⟨p, hh⟩
  · simp [hh]
  · rcases Option.eq_none_or_eq_some
      (p.2.foldlM (inheritSection st.arr st.heap.alloc.1) st.heap.alloc.2) with hf | ⟨h₁, hf⟩
    · simp [hh, hf]
    · simp only [hh, hf, Option.bind_eq_bind, Option.bind_some, Option.any_some, Option.map_some,
        Option.any_none]
      split <;> rfl

theorem iniParserCb_header_flag {key : Bytes} {st₁ : IniState} (h : st.parsingFlag = .start)
    (hstep : iniParserCb none st (.section key) = some st₁) : st₁.parsingFlag = .start := by
  simp only [iniParserCb, h, reduceCtorEq, if_false, Option.bind_eq_bind, Option.bind_eq_some_iff,
    Option.any_none, Bool.false_eq_true, Option.some.injEq] at hstep
  obtain ⟨p, -, h₁, -, rfl⟩ := hstep
  rfl

/-- Once the wanted section is over nothing is read. -/
theorem selective_ended (cbs : List Callback) (h : st.parsingFlag = .ended) :
    cbs.foldlM (iniParserCb wanted) st = some st := by
  induction cbs with
  | nil => rfl
  | cons cb cbs ih => simp [List.foldlM_cons, iniParserCb, h, ih]

/-- Inside the wanted section entries are read up to the next header. -/
theorem selective_process (cbs : List Callback) :
    ∀ {st : IniState}, st.parsingFlag = .process →
      (cbs.foldlM (iniParserCb wanted) st).map IniState.restarted =
        (cbs.takeWhile (!·.isSection)).foldlM (iniParserCb none) st.restarted := by
  induction cbs with
  | nil => exact fun _ => rfl
  | cons cb cbs ih =>
    intro st h
    cases hs : cb.isSection with
    | true =>
      obtain ⟨key, rfl⟩ := Callback.eq_section hs
      have hstep :
        iniParserCb wanted st (.section key) = some { st with parsingFlag := .ended } := by
        simp [iniParserCb, h]
      rw [List.foldlM_cons, hstep, List.takeWhile_cons_of_neg (by simp [hs])]
      simp only [Option.bind_eq_bind, Option.bind_some]
      rw [selective_ended cbs rfl]
      rfl
    | false =>
      rw [List.takeWhile_cons_of_pos (by simp [hs]), List.foldlM_cons, List.foldlM_cons,
        iniParserCb_entry hs (by simp [h]), iniParserCb_entry hs (by simp [IniState.restarted])]
      simp only [IniState.restarted]
      cases simpleParserCb st.heap (st.active.getD st.arr) cb with
      | none => rfl
      | some h₁ => exact @ih { st with heap := h₁ } h

theorem restarted_start (h : st.parsingFlag = .start) : st.restarted = st := by
  rw [IniState.restarted, ← h]

/-- The selective load is the load of the part it reads. -/
theorem selective_start {sectionName : Bytes} (cbs : List Callback) :
    ∀ {st : IniState}, st.parsingFlag = .start →
      (cbs.foldlM (iniParserCb (some sectionName)) st).map IniState.restarted =
        (readPart sectionName cbs).foldlM (iniParserCb none) st := by
  induction cbs with
  | nil =>
    intro st h
    exact congrArg some (restarted_start h)
  | cons cb cbs ih =>
    intro st h
    rw [readPart, List.foldlM_cons, List.foldlM_cons]
    cases hs : cb.isSection with
    | true =>
      obtain ⟨key, rfl⟩ := Callback.eq_section hs
      rw [iniParserCb_header h]
      cases hstep : iniParserCb none st (.section key) with
      | none => rfl
      | some st₁ =>
        have hflag := iniParserCb_header_flag h hstep
        simp only [Option.map_some, Option.bind_eq_bind, Option.bind_some]
        cases hnames : (Callback.section key).names sectionName with
        | false => exact ih hflag
        | true =>
          have hrun := @selective_process (some sectionName) cbs
            { st₁ with parsingFlag := .process } rfl
          rw [show IniState.restarted { st₁ with parsingFlag := .process } = st₁ from
            restarted_start hflag] at hrun
          exact hrun
    | false =>
      have hnames : cb.names sectionName = false := by
        cases cb <;> first | rfl | cases hs
      rw [hnames, iniParserCb_entry hs (by simp [h]), iniParserCb_entry hs (by simp [h])]
      cases simpleParserCb st.heap (st.active.getD st.arr) cb with
      | none => rfl
      | some h₁ => exact @ih { st with heap := h₁ } h

end

/-- What is stored under the section name reads as this. -/
def IniState.Holds (st : IniState) (sectionName : Bytes) (es : Content) : Prop :=
  ∃ a, st.heap.slot? st.arr (symtableKey sectionName) = some (.ref a) ∧
    st.heap.reads (.node es) (.ref a) = true

/-- The load of one section gives what the load of the whole file has under its name, and fails
when there is no table. -/
def SectionAgrees (file sectionName : Bytes) (cbs : List Callback) : Prop :=
  ∃ whole, iniLoad none cbs = some whole ∧
    ((∃ es, whole.Holds sectionName es ∧ ∃ h a,
        iniInstance file sectionName cbs = some (.ok (h, a)) ∧
          h.reads (.node es) (.ref a) = true) ∨
      (∀ es, ¬whole.Holds sectionName es) ∧
        ∃ message, iniInstance file sectionName cbs = some (.error message))

/-- What the selective load skips does not touch the section: no header has its name again, and
nothing is pushed into a table it holds. -/
def SkippedSafe (sectionName : Bytes) (cbs : List Callback) : Prop :=
  ∀ st, iniLoad none (readPart sectionName cbs) = some st →
    runSafe (symtableKey sectionName) st (skippedPart sectionName cbs)

/-- Where the selective load stops there is no string under the name. -/
def NoStringAtStop (sectionName : Bytes) (cbs : List Callback) : Prop :=
  ∀ st, iniLoad none (readPart sectionName cbs) = some st →
    ∀ s, st.heap.slot? st.arr (symtableKey sectionName) ≠ some (.scalar s)

section
variable {st : IniState} {configs es : Content} {name : Option Key} {sectionName : Bytes}

theorem Loads.holds_iff (l : Loads st configs name) :
    st.Holds sectionName es ↔
      Table.find? configs (symtableKey sectionName) = some (.node es) := by
  obtain ⟨t, ht, hrt⟩ := l.focus.table
  unfold IniState.Holds
  rw [slot?_eq ht]
  rcases readsTable_find? hrt (symtableKey sectionName) with ⟨he, hw⟩ | ⟨u, w, he, hw, hu⟩
  · simp [he, hw]
  · rw [he, hw]
    constructor
    · rintro ⟨a, ha, hr⟩
      obtain rfl := Option.some.inj ha
      rw [reads_unique u (.node es) _ hu hr]
    · intro hnode
      obtain rfl := Option.some.inj hnode
      obtain ⟨a, _, rfl, _, _⟩ := reads_node.mp hu
      exact ⟨a, rfl, hu⟩

/-- The copy of the section outlives the rest of the file. -/
theorem Loads.copy_reads {a : Addr} {t : Table Key (Val Bytes)} (l : Loads st configs name)
    (ht : st.heap.table? a = some t) (hr : st.heap.reads (.node es) (.ref a) = true) :
    ((st.heap.dup t).2.release (st.heap.dup t).2.size (.ref st.arr)).reads (.node es)
      (.ref (st.heap.dup t).1) = true := by
  have hs := l.focus.sound.dup ht
  have hs' : Sound (st.heap.dup t).2 [.ref st.arr, .ref (st.heap.dup t).1] := by
    refine ⟨fun b => ?_, hs.keyed⟩
    have := hs.counted b
    simp only [rootRefs_cons] at this ⊢
    omega
  have hgrow : ∀ b u, st.heap.table? b = some u → (st.heap.dup t).2.table? b = some u :=
    fun b u hu => table?_push _ (by rw [table?_addRefs, hu])
  have hnew : (st.heap.dup t).2.table? (st.heap.dup t).1 = some t :=
    table?_of_cell? (cell?_push_self _)
  have hcopy : (st.heap.dup t).2.reads (.node es) (.ref (st.heap.dup t).1) = true := by
    rw [reads_node_ref ht] at hr
    rw [reads_node_ref hnew]
    exact readsTable_congr hr fun _ _ _ _ => reads_grow hgrow
  obtain ⟨hs'', sh⟩ := hs'.release (st.heap.dup t).2.size (.ref st.arr)
  obtain ⟨u, hu⟩ := hs''.root_live List.mem_cons_self
  exact sh.reads hs'' hu hcopy

end

/-- The instance is made from the state where the selective load stops. -/
theorem iniInstance_readPart {sectionName : Bytes} (hne : sectionName ≠ []) (file : Bytes)
    (cbs : List Callback) :
    iniInstance file sectionName cbs = (iniLoad none (readPart sectionName cbs)).bind fun st =>
      sectionObject file sectionName st.heap st.arr := by
  have hsel : (iniLoad (some sectionName) cbs).map IniState.restarted =
      iniLoad none (readPart sectionName cbs) :=
    selective_start cbs rfl
  rw [iniInstance, if_neg hne, ← hsel]
  cases iniLoad (some sectionName) cbs <;> rfl

theorem iniLoad_split (sectionName : Bytes) {cbs : List Callback} {whole : IniState}
    (hwhole : iniLoad none cbs = some whole) :
    ∃ st, iniLoad none (readPart sectionName cbs) = some st ∧
      (skippedPart sectionName cbs).foldlM (iniParserCb none) st = some whole := by
  rw [iniLoad, ← readPart_append_skippedPart sectionName cbs, List.foldlM_append,
    Option.bind_eq_bind, Option.bind_eq_some_iff] at hwhole
  exact hwhole

/-- A string under the name at the stop is used as a table. -/
theorem SectionAgrees.noString {file sectionName : Bytes} {cbs : List Callback}
    (hne : sectionName ≠ []) (h : SectionAgrees file sectionName cbs) :
    NoStringAtStop sectionName cbs := by
  intro st hread s hs
  have hnone : iniInstance file sectionName cbs = none := by
    rw [iniInstance_readPart hne, hread, Option.bind_some, sectionObject, hs]
  obtain ⟨whole, -, ⟨es, -, h, a, hok, -⟩ | ⟨-, message, herror⟩⟩ := h
  · rw [hnone] at hok
    cases hok
  · rw [hnone] at herror
    cases herror

/-- The load of one section agrees with the load of the whole file, when what it skips does not
touch the section, exactly if the file loads and no string stands under the name. -/
theorem section_agrees_iff {sectionName : Bytes} (file : Bytes) {cbs : List Callback}
    (hne : sectionName ≠ []) (hskip : SkippedSafe sectionName cbs) :
    SectionAgrees file sectionName cbs ↔
      (iniLoad none cbs).isSome = true ∧ NoStringAtStop sectionName cbs := by
  constructor
  · intro h
    refine ⟨?_, h.noString hne⟩
    obtain ⟨whole, hwhole, -⟩ := h
    rw [hwhole, Option.isSome_some]
  rintro ⟨hloads, hstop⟩
  obtain ⟨whole, hwhole⟩ := Option.isSome_iff_exists.mp hloads
  obtain ⟨st, hread, hrest⟩ := iniLoad_split sectionName hwhole
  have hno := hstop st hread
  obtain ⟨configs, name, l⟩ := loads_start.run_any _ hread
  obtain ⟨configs', name', l', hkeep⟩ := l.run_safe _
    (fun cb hcb => Or.inl (skippedPart_head sectionName cbs cb hcb)) (hskip st hread) hrest
  have hinstance : iniInstance file sectionName cbs =
      sectionObject file sectionName st.heap st.arr := by
    rw [iniInstance_readPart hne, hread, Option.bind_some]
  refine ⟨whole, hwhole, ?_⟩
  simp only [l'.holds_iff, hkeep, ← l.holds_iff, hinstance]
  rcases l.focus.slot_cases (symtableKey sectionName) with ⟨hs, he⟩ | ⟨s, hs, _⟩ | ⟨a, e, hs, he⟩
  · refine Or.inr ⟨fun es hes => ?_, ?_⟩
    · rw [l.holds_iff, he] at hes
      cases hes
    · simp [sectionObject, hs]
  · exact absurd hs (hno s)
  · obtain ⟨a', ha', hr⟩ := l.holds_iff.mpr he
    obtain rfl : a = a' := by simpa [hs] using ha'
    obtain ⟨_, t, hra, ht, _⟩ := reads_node.mp hr
    obtain rfl := Val.ref.inj hra
    refine Or.inl ⟨e, ⟨a, hs, hr⟩, _, _, ?_, l.copy_reads ht hr⟩
    simp [sectionObject, hs, ht]

theorem runClear_right {pre post : List Callback} :
    ∀ {st st' : IniState}, runClear st (pre ++ post) = true →
      pre.foldlM (iniParserCb none) st = some st' → runClear st' post = true := by
  induction pre with
  | nil =>
    intro st st' hc hrun
    obtain rfl := Option.some.inj hrun
    exact hc
  | cons cb pre ih =>
    intro st st' hc hrun
    rw [List.foldlM_cons, Option.bind_eq_bind, Option.bind_eq_some_iff] at hrun
    obtain ⟨st₁, hstep, hrun⟩ := hrun
    simp only [List.cons_append, runClear, Bool.and_eq_true, hstep, Option.all_some] at hc
    exact ih hc.2 hrun

/-- A clear file does not touch a section whose name is not taken again behind it. -/
theorem skippedSafe_of_clear {sectionName : Bytes} {cbs : List Callback}
    (hc : runClear iniStart cbs = true)
    (hno : noHeader (symtableKey sectionName) (skippedPart sectionName cbs) = true) :
    SkippedSafe sectionName cbs := by
  intro st hread
  obtain ⟨configs, name, l⟩ := loads_start.run_any _ hread
  rw [← readPart_append_skippedPart sectionName cbs] at hc
  exact l.runSafe_of_clear _
    (fun cb hcb => Or.inl (skippedPart_head sectionName cbs cb hcb)) (runClear_right hc hread) hno

/-- Two sections whose names differ by case only. -/
def casedFile : List Callback := [
  .section (lit "A"),
  .entry (lit "x") (some (lit "1")),
  .section (lit "a"),
  .entry (lit "x") (some (lit "2"))]

/-- The selective load of `a` stops behind `A` and does not find `a`. -/
theorem cased_section_missed : ¬SectionAgrees (lit "f.ini") (lit "a") casedFile := by
  have hfail : (iniInstance (lit "f.ini") (lit "a") casedFile).map
      (fun r => r.toOption.map Prod.snd) = some none := by decide
  have hstored : (iniLoad none casedFile).map
      (fun st => st.heap.slot? st.arr (symtableKey (lit "a"))) = some (some (.ref 2)) := by
    decide
  have hreads : (iniLoad none casedFile).all
      (fun st => st.heap.reads (.node [(.name (lit "x"), .leaf (lit "2"))]) (.ref 2)) = true := by
    decide
  rintro ⟨whole, hwhole, ⟨es, -, h, a, hok, -⟩ | ⟨hnone, -⟩⟩
  · rw [hok] at hfail
    cases hfail
  · rw [hwhole, Option.map_some, Option.some.injEq] at hstored
    rw [hwhole, Option.all_some] at hreads
    exact hnone _ ⟨2, hstored, hreads⟩

/-- A section before and a section behind the one that is read; the second inherits from it and
pushes into a list of its own. -/
def settledFile : List Callback := [
  .section (lit "base"),
  .entry (lit "db.host") (some (lit "a")),
  .section (lit "live : base"),
  .entry (lit "db.port") (some (lit "1")),
  .section (lit "test : live"),
  .popEntry (lit "own") (some (lit "3")) none,
  .entry (lit "db.host") (some (lit "b"))]

theorem section_agrees_iff_sample : SectionAgrees (lit "f.ini") (lit "live") settledFile := by
  have hskip : SkippedSafe (lit "live") settledFile :=
    skippedSafe_of_clear (by decide) (by decide)
  refine (section_agrees_iff (lit "f.ini") (by decide) hskip).mpr
    ⟨by decide, fun st hst s hs => ?_⟩
  have hstored : (iniLoad none (readPart (lit "live") settledFile)).map
      (fun st => st.heap.slot? st.arr (symtableKey (lit "live"))) = some (some (.ref 3)) := by
    decide
  rw [hst, Option.map_some, hs] at hstored
  cases hstored

end Yaf
