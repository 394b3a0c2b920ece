import Yaf.Base.Checked
import Yaf.Config.IniInstance

namespace Yaf
open Base Heap IniSpec

/-- What an access can meet: a value that is no table, a null token, a header scanned past its
start, a table that is gone. -/
inductive Fault where
  | notMap
  | nullToken
  | pastBuffer
  | gone
  deriving DecidableEq, Repr

/-- `Z_ARRVAL_P`. -/
def arrval : Val Bytes → Except Fault Addr
  | .ref a => .ok a
  | .scalar _ => .error .notMap

/-- The table behind an address that `Z_ARRVAL_P` gave. -/
def liveTable (h : IniHeap) (a : Addr) : Except Fault (Table Key (Val Bytes)) :=
  match h.table? a with
  | none => .error .gone
  | some t => .ok t

/-- `yaf_deep_copy_section` with its accesses checked. -/
def deepCopyEntryChecked (copy : IniHeap → Val Bytes → Val Bytes → Except Fault IniHeap)
    (dst : Val Bytes) (h : IniHeap) (p : Key × Val Bytes) : Except Fault IniHeap := do
  let d ← arrval dst
  match p.2, h.slot? d p.1 with
  | .ref pzval, some (.ref dstpzval) =>
    let (value, h) := h.alloc
    let h ← copy h (.ref value) (.ref dstpzval)
    let h ← copy h (.ref value) (.ref pzval)
    .ok (h.put d p.1 (.ref value))
  | pzval, _ => .ok ((h.addRef pzval).put d p.1 pzval)

def deepCopySectionChecked : Nat → IniHeap → Val Bytes → Val Bytes → Except Fault IniHeap
  | 0, _, _, _ => .error .gone
  | fuel + 1, h, dst, src => do
    let a ← arrval src
    let ht ← liveTable h a
    ht.foldlM (deepCopyEntryChecked (deepCopySectionChecked fuel) dst) h

/-- The `ENTRY` walk: `dst` is any value, and a new table or one that was separated is next. -/
def simpleEntryChecked (h : IniHeap) (dst : Val Bytes) : List Key → Bytes → Except Fault IniHeap
  | [], _ => .ok h
  | realKey :: segs, value => do
    let d ← arrval dst
    match h.slot? d realKey with
    | some (.ref pzval) =>
      let (pzval, h) := h.separate d realKey pzval
      simpleEntryChecked h (.ref pzval) segs value
    | _ =>
      if segs = [] then .ok (h.put d realKey (.scalar value))
      else
        let (tmp, h) := h.alloc
        simpleEntryChecked (h.put d realKey (.ref tmp)) (.ref tmp) segs value

/-- The `POP_ENTRY` walk. The value that is found is the next `dst`, whatever it is. -/
def popFindChecked (h : IniHeap) (dst : Val Bytes) :
    List Key → Except Fault (Addr × Key × IniHeap)
  | [] => .error .nullToken
  | seg :: segs => do
    let d ← arrval dst
    match h.slot? d seg with
    | none =>
      let (hash, h) := h.alloc
      let h := h.put d seg (.ref hash)
      if segs = [] then .ok (d, seg, h) else popFindChecked h (.ref hash) segs
    | some findHash => if segs = [] then .ok (d, seg, h) else popFindChecked h findHash segs

def simplePopEntryChecked (h : IniHeap) (arr : Val Bytes) (key value : Bytes)
    (index : Option Bytes) : Except Fault IniHeap := do
  let (dst, seg, h) ← popFindChecked h arr (popSegments key)
  let (findHash, h) := popTable h dst seg
  let t ← liveTable h findHash
  match popKey t index with
  | some k => .ok (h.put findHash k (.scalar value))
  | none => .ok h

/-- `yaf_config_ini_simple_parser_cb`. -/
def simpleParserCbChecked (h : IniHeap) (arr : Val Bytes) : Callback → Except Fault IniHeap
  | .section _ => .ok h
  | .entry _ none => .ok h
  | .entry key (some value) => simpleEntryChecked h arr (segments key) value
  | .popEntry _ none _ => .ok h
  | .popEntry key (some value) index => simplePopEntryChecked h arr key value index

/-- The parent that is found is the source of the copy, whatever it is. -/
def inheritSectionChecked (arr sec : Val Bytes) (h : IniHeap) (parent : Bytes) :
    Except Fault IniHeap := do
  let configs ← arrval arr
  match h.slot? configs (symtableKey parent) with
  | none => .ok h
  | some parent => deepCopySectionChecked h.size h sec parent

def sectionHeaderChecked (key : Bytes) : Except Fault (Bytes × List Bytes) :=
  match sectionHeader key with
  | none => .error .pastBuffer
  | some header => .ok header

/-- `yaf_config_ini_parser_cb`. -/
def iniParserCbChecked (wanted : Option Bytes) (st : IniState) (cb : Callback) :
    Except Fault IniState :=
  if st.parsingFlag = .ended then .ok st
  else
    match cb with
    | .section key =>
      if st.parsingFlag = .process then .ok { st with parsingFlag := .ended }
      else do
        let (name, parents) ← sectionHeaderChecked key
        let (sec, h) := st.heap.alloc
        let h ← parents.foldlM (inheritSectionChecked (.ref st.arr) (.ref sec)) h
        let found := wanted.any fun w => w.length == name.length && strncasecmp w name name.length
        .ok {
          heap := h.put st.arr (symtableKey name) (.ref sec)
          arr := st.arr
          active := some sec
          parsingFlag := if found then .process else st.parsingFlag
        }
    | cb => do
      let h ← simpleParserCbChecked st.heap (.ref (st.active.getD st.arr)) cb
      .ok { st with heap := h }

def iniLoadChecked (wanted : Option Bytes) (cbs : List Callback) : Except Fault IniState :=
  cbs.foldlM (iniParserCbChecked wanted) iniStart

def sectionObjectChecked (file sectionName : Bytes) (h : IniHeap) (configs : Val Bytes) :
    Except Fault (Except Bytes (IniHeap × Addr)) := do
  let a ← arrval configs
  match h.slot? a (symtableKey sectionName) with
  | none => .ok (.error (lit "There is no section '" ++ cstr sectionName ++ lit "' in '" ++
      cstr file ++ lit "'"))
  | some found => do
    let b ← arrval found
    let t ← liveTable h b
    let (zv, h) := h.dup t
    .ok (.ok (h.release h.size configs, zv))

/-- `yaf_config_ini_instance`, from the callbacks on. -/
def iniInstanceChecked (file sectionName : Bytes) (cbs : List Callback) :
    Except Fault (Except Bytes (IniHeap × Addr)) :=
  if sectionName = [] then do
    let st ← iniLoadChecked none cbs
    .ok (.ok (st.heap, st.arr))
  else do
    let st ← iniLoadChecked (some sectionName) cbs
    sectionObjectChecked file sectionName st.heap (.ref st.arr)

section
variable {h : IniHeap} {d : Addr}

theorem liveTable_toOption (h : IniHeap) (a : Addr) : (liveTable h a).toOption = h.table? a := by
  unfold liveTable
  cases h.table? a with
  | none => rfl
  | some t => rfl

theorem deepCopyEntryChecked_toOption
    {copy : IniHeap → Val Bytes → Val Bytes → Except Fault IniHeap}
    {copy' : IniHeap → Addr → Addr → Option IniHeap}
    (hcopy : ∀ h dst src, (copy h (.ref dst) (.ref src)).toOption = copy' h dst src)
    (h : IniHeap) (p : Key × Val Bytes) :
    (deepCopyEntryChecked copy (.ref d) h p).toOption = deepCopyEntry copy' d h p := by
  obtain ⟨k, pzval⟩ := p
  cases pzval with
  | scalar s => rfl
  | ref pzval =>
    simp only [deepCopyEntryChecked, deepCopyEntry, arrval, ok_bind]
    rcases h.slot? d k with _ | _ | dstpzval
    · rfl
    · rfl
    · simp only [toOption_bind, hcopy, toOption_ok, Option.bind_eq_bind]

theorem deepCopySectionChecked_toOption (fuel : Nat) :
    ∀ h dst src, (deepCopySectionChecked fuel h (.ref dst) (.ref src)).toOption =
      deepCopySection fuel h dst src := by
  induction fuel with
  | zero => exact fun _ _ _ => rfl
  | succ fuel ih =>
    intro h dst src
    simp only [deepCopySectionChecked, deepCopySection, arrval, ok_bind, toOption_bind,
      liveTable_toOption]
    cases h.table? src with
    | none => rfl
    | some ht => exact toOption_foldlM (deepCopyEntryChecked_toOption ih) ht h

/-- No access of the `ENTRY` walk fails: the first table is one, and every further one is a table
the walk has just made or found. -/
theorem simpleEntryChecked_ok (segs : List Key) (value : Bytes) :
    ∀ (h : IniHeap) (d : Addr), simpleEntryChecked h (.ref d) segs value =
      .ok (simpleEntry h d segs value) := by
  induction segs with
  | nil => exact fun _ _ => rfl
  | cons k segs ih =>
    intro h d
    cases segs with
    | nil =>
      rw [simpleEntryChecked, simpleEntry, arrval, ok_bind]
      rcases h.slot? d k with _ | _ | pzval
      · rfl
      · rfl
      · rfl
    | cons seg segs =>
      rw [simpleEntryChecked, simpleEntry, arrval, ok_bind]
      rcases h.slot? d k with _ | _ | pzval
      · exact ih _ _
      · exact ih _ _
      · exact ih _ _

theorem popFindChecked_toOption (segs : List Key) :
    ∀ (h : IniHeap) (d : Addr),
      (popFindChecked h (.ref d) segs).toOption = popFind h d segs := by
  induction segs with
  | nil => exact fun _ _ => rfl
  | cons seg segs ih =>
    intro h d
    cases segs with
    | nil =>
      rw [popFindChecked, popFind, arrval, ok_bind]
      rcases h.slot? d seg with _ | findHash
      · rfl
      · rfl
    | cons seg' segs =>
      simp only [popFindChecked, popFind, arrval, ok_bind]
      rcases h.slot? d seg with _ | _ | findHash
      · exact ih _ _
      · rfl
      · exact ih _ _

theorem simplePopEntryChecked_toOption (key value : Bytes) (index : Option Bytes) :
    (simplePopEntryChecked h (.ref d) key value index).toOption =
      simplePopEntry h d key value index := by
  simp only [simplePopEntryChecked, simplePopEntry, toOption_bind, popFindChecked_toOption,
    liveTable_toOption, Option.bind_eq_bind]
  rcases popFind h d (popSegments key) with _ | ⟨dst, seg, h₁⟩
  · rfl
  simp only [Option.bind_some]
  rcases (popTable h₁ dst seg).2.table? (popTable h₁ dst seg).1 with _ | t
  · rfl
  simp only [Option.bind_some]
  rcases popKey t index with _ | k
  · rfl
  · rfl

theorem simpleParserCbChecked_toOption (cb : Callback) :
    (simpleParserCbChecked h (.ref d) cb).toOption = simpleParserCb h d cb := by
  cases cb with
  | «section» key => rfl
  | entry key value =>
    cases value with
    | none => rfl
    | some value =>
      simp only [simpleParserCbChecked, simpleEntryChecked_ok]
      rfl
  | popEntry key value index =>
    cases value with
    | none => rfl
    | some value => exact simplePopEntryChecked_toOption key value index

theorem inheritSectionChecked_toOption (arr sec : Addr) (h : IniHeap) (parent : Bytes) :
    (inheritSectionChecked (.ref arr) (.ref sec) h parent).toOption =
      inheritSection arr sec h parent := by
  simp only [inheritSectionChecked, inheritSection, arrval, ok_bind]
  rcases h.slot? arr (symtableKey parent) with _ | _ | parent
  · rfl
  · cases h.size with
    | zero => rfl
    | succ n => rfl
  · exact deepCopySectionChecked_toOption _ _ _ _

theorem sectionHeaderChecked_toOption (key : Bytes) :
    (sectionHeaderChecked key).toOption = sectionHeader key := by
  unfold sectionHeaderChecked
  cases sectionHeader key with
  | none => rfl
  | some header => rfl

/-- The checked callback is the callback, with a reason where that has none. -/
theorem iniParserCbChecked_toOption (wanted : Option Bytes) (st : IniState) (cb : Callback) :
    (iniParserCbChecked wanted st cb).toOption = iniParserCb wanted st cb := by
  by_cases hend : st.parsingFlag = .ended
  · simp only [iniParserCbChecked, iniParserCb, if_pos hend, toOption_ok]
  cases cb with
  | «section» key =>
    by_cases hprocess : st.parsingFlag = .process
    · simp only [iniParserCbChecked, iniParserCb, if_neg hend, if_pos hprocess, toOption_ok]
    · have hcopies := toOption_foldlM (inheritSectionChecked_toOption st.arr st.heap.alloc.1)
      simp only [iniParserCbChecked, iniParserCb, if_neg hend, if_neg hprocess, toOption_bind,
        sectionHeaderChecked_toOption, hcopies, toOption_ok, Option.bind_eq_bind]
  | entry key value =>
    simp only [iniParserCbChecked, iniParserCb, if_neg hend, toOption_bind,
      simpleParserCbChecked_toOption, toOption_ok, Option.bind_eq_bind]
  | popEntry key value index =>
    simp only [iniParserCbChecked, iniParserCb, if_neg hend, toOption_bind,
      simpleParserCbChecked_toOption, toOption_ok, Option.bind_eq_bind]

theorem iniLoadChecked_toOption (wanted : Option Bytes) (cbs : List Callback) :
    (iniLoadChecked wanted cbs).toOption = iniLoad wanted cbs :=
  toOption_foldlM (iniParserCbChecked_toOption wanted) cbs iniStart

theorem sectionObjectChecked_toOption (file sectionName : Bytes) (h : IniHeap) (configs : Addr) :
    (sectionObjectChecked file sectionName h (.ref configs)).toOption =
      sectionObject file sectionName h configs := by
  simp only [sectionObjectChecked, sectionObject, arrval, ok_bind]
  rcases h.slot? configs (symtableKey sectionName) with _ | _ | a
  · rfl
  · rfl
  · simp only [ok_bind, toOption_bind, liveTable_toOption, toOption_ok, Option.bind_eq_bind]

theorem iniInstanceChecked_toOption (file sectionName : Bytes) (cbs : List Callback) :
    (iniInstanceChecked file sectionName cbs).toOption = iniInstance file sectionName cbs := by
  unfold iniInstanceChecked iniInstance
  split
  · rw [toOption_bind, iniLoadChecked_toOption]
    cases iniLoad none cbs with
    | none => rfl
    | some st => rfl
  · rw [toOption_bind, iniLoadChecked_toOption]
    simp only [sectionObjectChecked_toOption]

end

end Yaf
