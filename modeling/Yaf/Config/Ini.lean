import Yaf.Base.Heap
import Yaf.Php.Bytes

namespace Yaf
open Base

/-- The tables an INI file is loaded into. In the normal scanner mode every value is a string. -/
abbrev IniHeap := Heap Key Bytes

inductive Callback where
  | section (key : Bytes)
  | entry (key : Bytes) (value : Option Bytes)
  | popEntry (key : Bytes) (value : Option Bytes) (index : Option Bytes)
  deriving DecidableEq, Repr

inductive ParsingFlag where
  | start
  | process
  | ended
  deriving DecidableEq, Repr

/-- `arr`, the active section when there is one, and the parsing flag. The active section is the
table stored under its name, not a copy: `zend_symtable_str_update` takes no reference. -/
structure IniState where
  heap : IniHeap
  arr : Addr
  active : Option Addr
  parsingFlag : ParsingFlag
  deriving DecidableEq, Repr

/-- One turn of the loop of `yaf_deep_copy_section`. -/
def deepCopyEntry (copy : IniHeap → Addr → Addr → Option IniHeap) (dst : Addr) (h : IniHeap)
    (p : Key × Val Bytes) : Option IniHeap :=
  match p.2, h.slot? dst p.1 with
  | .ref pzval, some (.ref dstpzval) => do
    let (value, h) := h.alloc
    let h ← copy h value dstpzval
    let h ← copy h value pzval
    some (h.put dst p.1 (.ref value))
  | pzval, _ => some ((h.addRef pzval).put dst p.1 pzval)

def deepCopySection : Nat → IniHeap → Addr → Addr → Option IniHeap
  | 0, _, _, _ => none
  | fuel + 1, h, dst, src =>
    match h.table? src with
    | none => none
    | some ht => ht.foldlM (deepCopyEntry (deepCopySection fuel) dst) h

/-- The segments of a dotted key, as keys. -/
def segments (key : Bytes) : List Key := (strtok dot key).map symtableKey

/-- The `ENTRY` walk. A last segment that names a table is separated, and the value is dropped. -/
def simpleEntry (h : IniHeap) (dst : Addr) : List Key → Bytes → IniHeap
  | [], _ => h
  | [realKey], value =>
    match h.slot? dst realKey with
    | some (.ref pzval) => (h.separate dst realKey pzval).2
    | _ => h.put dst realKey (.scalar value)
  | realKey :: seg :: segs, value =>
    match h.slot? dst realKey with
    | some (.ref pzval) =>
      let (pzval, h) := h.separate dst realKey pzval
      simpleEntry h pzval (seg :: segs) value
    | _ =>
      let (tmp, h) := h.alloc
      simpleEntry (h.put dst realKey (.ref tmp)) tmp (seg :: segs) value

/-- The `POP_ENTRY` walk to the slot `find_hash` points at. Nothing is separated on the way.
A string in the middle is used as a table, and without a segment a null pointer is read. -/
def popFind (h : IniHeap) (dst : Addr) : List Key → Option (Addr × Key × IniHeap)
  | [] => none
  | [seg] =>
    match h.slot? dst seg with
    | none =>
      let (hash, h) := h.alloc
      some (dst, seg, h.put dst seg (.ref hash))
    | some _ => some (dst, seg, h)
  | seg :: segs =>
    match h.slot? dst seg with
    | none =>
      let (hash, h) := h.alloc
      popFind (h.put dst seg (.ref hash)) hash segs
    | some (.ref findHash) => popFind h findHash segs
    | some (.scalar _) => none

/-- A key that is a number as a whole is one index; any other is cut at its dots. -/
def popSegments (key : Bytes) : List Key :=
  if !(1 < key.length && key.head? == some 48) && isNumericLong key then [.index (zendAtol key)]
  else segments key

/-- What inserting a key does to `nNextFreeElement`. -/
def nextFree (n : Int) : Key → Int
  | .index i => if n ≤ i then (if i < LONG_MAX then i + 1 else LONG_MAX) else n
  | .name _ => n

/-- `nNextFreeElement` of a table from which nothing was ever removed. -/
def nextFreeElement {ν : Type} (t : Table Key ν) : Int := t.foldl (fun n p => nextFree n p.1) 0

/-- Where `key[]` and `key[index]` write; no key when the next index is taken. -/
def popKey {ν : Type} (t : Table Key ν) (index : Option Bytes) : Option Key :=
  match index with
  | some (c :: cs) => some (symtableKey (c :: cs))
  | _ =>
    let n := Key.index (nextFreeElement t)
    if (Table.find? t n).isSome then none else some n

/-- The table in the slot that was found; a string there gives way to an empty table. -/
def popTable (h : IniHeap) (dst : Addr) (seg : Key) : Addr × IniHeap :=
  match h.slot? dst seg with
  | some (.ref findHash) => (findHash, h)
  | _ =>
    let (hash, h) := h.alloc
    (hash, h.put dst seg (.ref hash))

def simplePopEntry (h : IniHeap) (arr : Addr) (key value : Bytes) (index : Option Bytes) :
    Option IniHeap := do
  let (dst, seg, h) ← popFind h arr (popSegments key)
  let (findHash, h) := popTable h dst seg
  let t ← h.table? findHash
  match popKey t index with
  | some k => some (h.put findHash k (.scalar value))
  | none => some h

/-- `yaf_config_ini_simple_parser_cb`. -/
def simpleParserCb (h : IniHeap) (arr : Addr) : Callback → Option IniHeap
  | .section _ => some h
  | .entry _ none => some h
  | .entry key (some value) => some (simpleEntry h arr (segments key) value)
  | .popEntry _ none _ => some h
  | .popEntry key (some value) index => simplePopEntry h arr key value index

def blankOrColon (c : UInt8) : Bool := c == blank || c == colon

/-- The text before the last colon, and the text from it on. -/
def strrchrColon (seg : Bytes) : Option (Bytes × Bytes) :=
  if colon ∈ seg then
    some (seg.take (seg.length - 1 - seg.reverse.idxOf colon),
      seg.drop (seg.length - 1 - seg.reverse.idxOf colon))
  else none

/-- The inheritance list, in the order the sections are copied: the last name first. -/
def sectionParents : Nat → Bytes → List Bytes
  | 0, seg => [seg]
  | fuel + 1, seg =>
    match strrchrColon seg with
    | none => [seg]
    | some (before, rest) =>
      rest.dropWhile blankOrColon :: sectionParents fuel (trimRight blankOrColon before)

/-- Name and parents in a section header. The scan that drops the trailing blanks and colons has
no bound: when nothing else is there and no blank was skipped, it leaves the buffer. -/
def sectionHeader (key : Bytes) : Option (Bytes × List Bytes) :=
  let skey := key.dropWhile (· == blank)
  let trimmed := if 1 < skey.length then trimRight blankOrColon skey else skey
  if 1 < skey.length ∧ trimmed = [] ∧ skey.length = key.length then none
  else if colon ∈ cstr trimmed then
    let name := trimRight blankOrColon ((cstr trimmed).takeWhile (· != colon))
    let seg := ((cstr trimmed).dropWhile (· != colon)).dropWhile blankOrColon
    some (name, sectionParents seg.length seg)
  else some (trimmed, [])

/-- Copy one parent into the new section; a name that is not there is passed over, and a string
is used as a table. -/
def inheritSection (arr sec : Addr) (h : IniHeap) (parent : Bytes) : Option IniHeap :=
  match h.slot? arr (symtableKey parent) with
  | none => some h
  | some (.ref parent) => deepCopySection h.size h sec parent
  | some (.scalar _) => none

/-- `yaf_config_ini_parser_cb`. `none` stands for undefined behaviour. -/
def iniParserCb (wanted : Option Bytes) (st : IniState) (cb : Callback) : Option IniState :=
  if st.parsingFlag = .ended then some st
  else
    match cb with
    | .section key =>
      if st.parsingFlag = .process then some { st with parsingFlag := .ended }
      else do
        let (name, parents) ← sectionHeader key
        let (sec, h) := st.heap.alloc
        let h ← parents.foldlM (inheritSection st.arr sec) h
        let found := wanted.any fun w => w.length == name.length && strncasecmp w name name.length
        some {
          heap := h.put st.arr (symtableKey name) (.ref sec)
          arr := st.arr
          active := some sec
          parsingFlag := if found then .process else st.parsingFlag
        }
    | cb => do
      let h ← simpleParserCb st.heap (st.active.getD st.arr) cb
      some { st with heap := h }

/-- `array_init(&configs)` before the file is read. -/
def iniStart : IniState where
  heap := (Heap.mk []).alloc.2
  arr := 0
  active := none
  parsingFlag := .start

def iniLoad (wanted : Option Bytes) (cbs : List Callback) : Option IniState :=
  cbs.foldlM (iniParserCb wanted) iniStart

end Yaf
