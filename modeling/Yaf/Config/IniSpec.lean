import Yaf.Config.Ini

namespace Yaf
open Base

/-- Sections as plain values: what an INI file says, with no sharing in sight. -/
abbrev Content := List (Key × Nest Key Bytes)

namespace IniSpec

def tableAt (d : Content) (k : Key) : Content :=
  match Table.find? d k with
  | some (.node e) => e
  | _ => []

/-- `a.b.c = value`. Assigning a string to a name that holds a table changes nothing. -/
def assign : List Key → Bytes → Content → Content
  | [], _, d => d
  | [k], value, d =>
    match Table.find? d k with
    | some (.node _) => d
    | _ => Table.update d k (.leaf value)
  | k :: seg :: segs, value, d =>
    Table.update d k (.node (assign (seg :: segs) value (tableAt d k)))

def pushValue (value : Bytes) (index : Option Bytes) (d : Content) : Content :=
  match popKey d index with
  | some k => Table.update d k (.leaf value)
  | none => d

/-- `a.b.c[] = value` and `a.b.c[index] = value`. -/
def pushAt (value : Bytes) (index : Option Bytes) : List Key → Content → Content
  | [], d => pushValue value index d
  | k :: segs, d => Table.update d k (.node (pushAt value index segs (tableAt d k)))

def apply (d : Content) : Callback → Content
  | .entry key (some value) => assign (segments key) value d
  | .popEntry key (some value) index => pushAt value index (popSegments key) d
  | _ => d

/-- Start from nothing and merge what is stored under each parent, the last listed first. -/
def inherit (configs : Content) (parents : List Bytes) : Content :=
  parents.foldl (fun d p => Nest.mergeTable d (tableAt configs (symtableKey p))) []

/-- A section: its header and the callbacks under it. -/
abbrev Block := Bytes × List Callback

/-- The callbacks before the first header, then one block for each header. -/
def blocks : List Callback → List Callback × List Block
  | [] => ([], [])
  | .section key :: cbs => ([], (key, (blocks cbs).1) :: (blocks cbs).2)
  | cb :: cbs => (cb :: (blocks cbs).1, (blocks cbs).2)

/-- The content of one section depends on the configuration at its header and on nothing that
follows but its own entries. -/
def store (configs : Content) (b : Block) : Content :=
  match sectionHeader b.1 with
  | none => configs
  | some (name, parents) =>
    Table.update configs (symtableKey name) (.node (b.2.foldl apply (inherit configs parents)))

def load (cbs : List Callback) : Content :=
  (blocks cbs).2.foldl store ((blocks cbs).1.foldl apply [])

/-- The header the next entry would stand under. -/
def lastHeader (cbs : List Callback) : Option Bytes := (blocks cbs).2.getLast?.map Prod.fst

theorem blocks_entry {cb : Callback} (hs : ∀ key, cb ≠ .section key) (cbs : List Callback) :
    blocks (cb :: cbs) = (cb :: (blocks cbs).1, (blocks cbs).2) := by
  cases cb with
  | «section» key => exact absurd rfl (hs key)
  | entry _ _ => rfl
  | popEntry _ _ _ => rfl

/-- A later entry joins the last block, or the callbacks before the first header. -/
theorem blocks_snoc {cb : Callback} (hs : ∀ key, cb ≠ .section key) (cbs : List Callback) :
    ((blocks cbs).2 = [] ∧ blocks (cbs ++ [cb]) = ((blocks cbs).1 ++ [cb], [])) ∨
      ∃ bs key body, (blocks cbs).2 = bs ++ [(key, body)] ∧
        blocks (cbs ++ [cb]) = ((blocks cbs).1, bs ++ [(key, body ++ [cb])]) := by
  induction cbs with
  | nil => exact Or.inl ⟨rfl, blocks_entry hs []⟩
  | cons c cbs ih =>
    by_cases hc : ∃ key, c = .section key
    · obtain ⟨key, rfl⟩ := hc
      rcases ih with ⟨hnil, he⟩ | ⟨bs, k, body, hbs, he⟩
      · exact Or.inr ⟨[], key, (blocks cbs).1, by simp [blocks, hnil], by simp [blocks, he]⟩
      · exact Or.inr ⟨(key, (blocks cbs).1) :: bs, k, body, by simp [blocks, hbs],
          by simp [blocks, he]⟩
    · have hc' : ∀ key, c ≠ .section key := fun key he => hc ⟨key, he⟩
      rw [List.cons_append, blocks_entry hc', blocks_entry hc']
      rcases ih with ⟨hnil, he⟩ | ⟨bs, k, body, hbs, he⟩
      · exact Or.inl ⟨hnil, by simp [he]⟩
      · exact Or.inr ⟨bs, k, body, hbs, by simp [he]⟩

/-- An entry under one section leaves the content of every other one as it is. -/
theorem load_entry_other {cbs : List Callback} {cb : Callback} {key sec : Bytes}
    {parents : List Bytes} (hs : ∀ key, cb ≠ .section key) (hl : lastHeader cbs = some key)
    (hh : sectionHeader key = some (sec, parents)) {k : Key} (hk : k ≠ symtableKey sec) :
    Table.find? (load (cbs ++ [cb])) k = Table.find? (load cbs) k := by
  rcases blocks_snoc hs cbs with ⟨hnil, _⟩ | ⟨bs, key', body, hbs, he⟩
  · simp [lastHeader, hnil] at hl
  · obtain rfl : key' = key := by simpa [lastHeader, hbs] using hl
    simp only [load, he, hbs, List.foldl_append, List.foldl_cons, List.foldl_nil, store, hh]
    rw [Table.find?_update_other _ _ hk, Table.find?_update_other _ _ hk]

end IniSpec

end Yaf
