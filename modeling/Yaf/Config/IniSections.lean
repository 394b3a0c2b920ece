import Yaf.Config.IniCopy
import Yaf.Config.IniWrite

namespace Yaf
open Base Heap IniSpec

/-- What a callback must find for the step to be the plain one: a header that can be cut and
whose parents are tables, or a `POP_ENTRY` walk over tables nothing else holds. -/
def stepClear (st : IniState) : Callback → Bool
  | .section key =>
    match sectionHeader key with
    | none => false
    | some (_, parents) => parents.all fun p =>
      match st.heap.slot? st.arr (symtableKey p) with
      | some (.scalar _) => false
      | _ => true
  | .popEntry key (some _) _ => popPrivate st.heap (st.active.getD st.arr) (popSegments key)
  | _ => true

def runClear (st : IniState) : List Callback → Bool
  | [] => true
  | cb :: cbs => stepClear st cb && (iniParserCb none st cb).all (runClear · cbs)

/-- The active section is the private table stored under the name of the last header. -/
def ActiveAt (st : IniState) (configs : Content) : Option Key → Prop
  | none => st.active = none
  | some k => ∃ sec e, st.active = some sec ∧ PrivateSlot st.heap st.arr k sec ∧
      Table.find? configs k = some (.node e)

/-- A state between two callbacks, and what the file says so far. -/
structure Loads (st : IniState) (configs : Content) (name : Option Key) : Prop where
  focus : Focus st.heap [.ref st.arr] [] st.arr configs
  parsing : st.parsingFlag = .start
  active : ActiveAt st configs name

theorem loads_start : Loads iniStart [] none where
  focus := by
    have hs : Sound (Heap.mk [] : IniHeap) [] := ⟨fun _ => Nat.le_refl _, by simp [table?, cell?]⟩
    refine ⟨hs.alloc, ⟨rfl, by simp, Or.inl List.mem_cons_self, trivial⟩, rfl⟩
  parsing := rfl
  active := rfl

/-- A callback other than a header, on the table it writes into. -/
theorem simpleParserCb_spec {h : IniHeap} {R : List (Val Bytes)} {P : List Addr} {d : Addr}
    {es : Content} (f : Focus h R P d es) (cb : Callback)
    (hc : ∀ key value index, cb = .popEntry key (some value) index →
      popPrivate h d (popSegments key) = true) :
    ∃ h', simpleParserCb h d cb = some h' ∧ Becomes h h' R P d (apply es cb) := by
  cases cb with
  | «section» key => exact ⟨h, rfl, f.becomes⟩
  | entry key value =>
    cases value with
    | none => exact ⟨h, rfl, f.becomes⟩
    | some value => exact ⟨_, rfl, simpleEntry_spec _ value f⟩
  | popEntry key value index =>
    cases value with
    | none => exact ⟨h, rfl, f.becomes⟩
    | some value => exact simplePopEntry_spec f (hc key value index rfl)

/-- An entry changes the content of the section it stands under. -/
def applyUnder (configs : Content) (name : Option Key) (cb : Callback) : Content :=
  match name with
  | none => apply configs cb
  | some k => Table.update configs k (.node (apply (tableAt configs k) cb))

theorem Loads.entry {st : IniState} {configs : Content} {name : Option Key} {cb : Callback}
    (l : Loads st configs name) (hs : ∀ key, cb ≠ .section key) (hc : stepClear st cb = true) :
    ∃ st', iniParserCb none st cb = some st' ∧ Loads st' (applyUnder configs name cb) name := by
  have hpop : ∀ key value index, cb = .popEntry key (some value) index →
      popPrivate st.heap (st.active.getD st.arr) (popSegments key) = true := by
    rintro key value index rfl
    simpa [stepClear] using hc
  have hstep : ∀ h', simpleParserCb st.heap (st.active.getD st.arr) cb = some h' →
      iniParserCb none st cb = some { st with heap := h' } := by
    intro h' hh
    cases cb with
    | «section» key => exact absurd rfl (hs key)
    | entry key value => simp [iniParserCb, l.parsing, hh]
    | popEntry key value index => simp [iniParserCb, l.parsing, hh]
  cases name with
  | none =>
    have ha : st.active = none := l.active
    have hg : st.active.getD st.arr = st.arr := by rw [ha]; rfl
    rw [hg] at hpop hstep
    obtain ⟨h', hh, hb⟩ := simpleParserCb_spec l.focus cb hpop
    exact ⟨_, hstep h' hh, hb.focus, l.parsing, ha⟩
  | some k =>
    obtain ⟨sec, e, ha, hp, he⟩ := l.active
    have hg : st.active.getD st.arr = sec := by rw [ha]; rfl
    rw [hg] at hpop hstep
    obtain ⟨h', hh, hb⟩ := simpleParserCb_spec (l.focus.child hp he) cb hpop
    refine ⟨_, hstep h' hh, ?_, l.parsing, sec, apply e cb, ha, ?_, ?_⟩
    · simpa [applyUnder, tableAt_of_find? he] using (l.focus.up hp hb).focus
    · obtain ⟨t, ht, hk, hrc⟩ := hp
      refine ⟨t, ?_, hk, ?_⟩
      · rw [← ht]
        exact hb.frame.table st.arr List.mem_cons_self
      · exact Nat.le_trans (Nat.le_of_eq (hb.frame.rc sec List.mem_cons_self)) hrc
    · simp [applyUnder, tableAt_of_find? he]

/-- The parents of a header, copied one after the other into the new section. -/
theorem inheritSections_spec {arr sec : Addr} {configs : Content} (parents : List Bytes) :
    ∀ {h : IniHeap} {d : Content}, Focus h [.ref arr] [] arr configs →
      Focus h [.ref sec, .ref arr] [arr] sec d →
      (∀ p ∈ parents, ∀ s, h.slot? arr (symtableKey p) ≠ some (.scalar s)) →
      ∃ h', parents.foldlM (inheritSection arr sec) h = some h' ∧
        Becomes h h' [.ref sec, .ref arr] [arr] sec
          (parents.foldl (fun d p => Nest.mergeTable d (tableAt configs (symtableKey p))) d) := by
  induction parents with
  | nil => exact fun _ fs _ => ⟨_, rfl, fs.becomes⟩
  | cons p parents ih =>
    intro h d f fs hc
    have hone : ∃ h₁, inheritSection arr sec h p = some h₁ ∧
        Becomes h h₁ [.ref sec, .ref arr] [arr] sec
          (Nest.mergeTable d (tableAt configs (symtableKey p))) := by
      rcases f.slot_cases (symtableKey p) with ⟨hk, he⟩ | ⟨s, hk, _⟩ | ⟨a, e, hk, he⟩
      · refine ⟨h, by simp [inheritSection, hk], ?_⟩
        simpa [tableAt, he, Nest.mergeTable] using fs.becomes
      · exact absurd hk (hc p List.mem_cons_self s)
      · obtain ⟨t, ht, hrt⟩ := f.table
        have hk' := hk
        rw [slot?_eq ht] at hk'
        have hr : h.reads (.node e) (.ref a) = true := readsTable_at hrt he hk'
        obtain ⟨h₁, hcopy, hb⟩ :=
          deepCopySection_spec fs (fs.outside_entry ht (Table.mem_of_find? hk')) hr
        exact ⟨h₁, by simpa [inheritSection, hk] using hcopy, by rwa [tableAt_of_find? he]⟩
    obtain ⟨h₁, hstep, hb⟩ := hone
    have fa := (f.apart fs hb).focus
    obtain ⟨h', hloop, hb'⟩ := ih fa hb.focus fun q hq s => by
      rw [slot?, hb.frame.table arr List.mem_cons_self, ← slot?]
      exact hc q (List.mem_cons_of_mem _ hq) s
    exact ⟨h', by simp [List.foldlM_cons, hstep, hloop], hb.trans hb'⟩

theorem Loads.header {st : IniState} {configs : Content} {name : Option Key} {key : Bytes}
    (l : Loads st configs name) (hc : stepClear st (.section key) = true) :
    ∃ st' sec parents, sectionHeader key = some (sec, parents) ∧
      iniParserCb none st (.section key) = some st' ∧
      Loads st' (Table.update configs (symtableKey sec) (.node (inherit configs parents)))
        (some (symtableKey sec)) := by
  cases hh : sectionHeader key with
  | none => simp [stepClear, hh] at hc
  | some p =>
    obtain ⟨sec, parents⟩ := p
    obtain ⟨hb, fs⟩ := l.focus.alloc
    obtain ⟨t, ht, _⟩ := l.focus.table
    have hclear : ∀ p ∈ parents, ∀ s,
        st.heap.alloc.2.slot? st.arr (symtableKey p) ≠ some (.scalar s) := by
      intro p hp s hk
      simp only [stepClear, hh, List.all_eq_true] at hc
      have := hc p hp
      have ht' : st.heap.alloc.2.table? st.arr = some t := table?_push _ ht
      rw [slot?_eq ht'] at hk
      rw [slot?_eq ht, hk] at this
      simp at this
    obtain ⟨h₁, hloop, hs⟩ := inheritSections_spec parents hb.focus fs hclear
    have ha := hb.focus.apart fs hs
    obtain ⟨hput, htab, hrc⟩ := ha.focus.put hs.focus.sound
      (fun a he => Val.ref.inj he ▸ hs.focus.owned.2.1) hs.focus.reads (symtableKey sec)
    obtain ⟨u, hu, _⟩ := ha.focus.table
    let st' : IniState := {
      heap := h₁.put st.arr (symtableKey sec) (.ref st.heap.alloc.1)
      arr := st.arr
      active := some st.heap.alloc.1
      parsingFlag := .start
    }
    refine ⟨st', sec, parents, rfl, by simp [iniParserCb, l.parsing, hh, hloop, st'], ?_⟩
    refine ⟨hput.focus, rfl, st.heap.alloc.1, inherit configs parents, rfl,
      ⟨_, htab u hu, by simp, ?_⟩, by simp⟩
    exact Nat.le_trans (hrc _) (Nat.le_of_eq hs.focus.owned.1)

/-- What the rest of a file makes of what it says so far. -/
def resume (configs : Content) (name : Option Key) (cbs : List Callback) : Content :=
  match name with
  | none => (blocks cbs).2.foldl store ((blocks cbs).1.foldl apply configs)
  | some k => (blocks cbs).2.foldl store
      (Table.update configs k (.node ((blocks cbs).1.foldl apply (tableAt configs k))))

theorem resume_nil {st : IniState} {configs : Content} {name : Option Key}
    (l : Loads st configs name) : resume configs name [] = configs := by
  cases name with
  | none => rfl
  | some k =>
    obtain ⟨_, e, _, _, he⟩ := l.active
    simp only [resume, blocks, List.foldl_nil, tableAt_of_find? he]
    exact Table.update_find? he

theorem resume_entry {cb : Callback} (hs : ∀ key, cb ≠ .section key) (configs : Content)
    (name : Option Key) (cbs : List Callback) :
    resume configs name (cb :: cbs) = resume (applyUnder configs name cb) name cbs := by
  cases name with
  | none => simp [resume, blocks_entry hs, applyUnder]
  | some k => simp [resume, blocks_entry hs, applyUnder, tableAt_update_self, Table.update_update]

theorem resume_header {st : IniState} {configs : Content} {name : Option Key} {key sec : Bytes}
    {parents : List Bytes} (l : Loads st configs name)
    (hh : sectionHeader key = some (sec, parents)) (cbs : List Callback) :
    resume configs name (.section key :: cbs) =
      resume (Table.update configs (symtableKey sec) (.node (inherit configs parents)))
        (some (symtableKey sec)) cbs := by
  have hnil := resume_nil l
  have hstart : resume configs name (.section key :: cbs) =
      (blocks cbs).2.foldl store (store configs (key, (blocks cbs).1)) := by
    cases name with
    | none => rfl
    | some k =>
      simp only [resume, blocks, List.foldl_nil, List.foldl_cons] at hnil ⊢
      rw [hnil]
  rw [hstart]
  simp [resume, store, hh, tableAt_update_self, Table.update_update]

/-- From any state between two callbacks, a clear run stores what the specification says. -/
theorem Loads.run (cbs : List Callback) :
    ∀ {st : IniState} {configs : Content} {name : Option Key}, Loads st configs name →
      runClear st cbs = true →
      ∃ st' name', cbs.foldlM (iniParserCb none) st = some st' ∧
        Loads st' (resume configs name cbs) name' := by
  induction cbs with
  | nil =>
    intro st configs name l _
    exact ⟨st, name, rfl, by rwa [resume_nil l]⟩
  | cons cb cbs ih =>
    intro st configs name l hc
    simp only [runClear, Bool.and_eq_true] at hc
    by_cases hs : ∃ key, cb = .section key
    · obtain ⟨key, rfl⟩ := hs
      obtain ⟨st₁, sec, parents, hh, hstep, l₁⟩ := l.header hc.1
      rw [hstep, Option.all_some] at hc
      obtain ⟨st', name', hrun, l'⟩ := ih l₁ hc.2
      refine ⟨st', name', by simp [List.foldlM_cons, hstep, hrun], ?_⟩
      rwa [resume_header l hh]
    · have hs' : ∀ key, cb ≠ .section key := fun key he => hs ⟨key, he⟩
      obtain ⟨st₁, hstep, l₁⟩ := l.entry hs' hc.1
      rw [hstep, Option.all_some] at hc
      obtain ⟨st', name', hrun, l'⟩ := ih l₁ hc.2
      refine ⟨st', name', by simp [List.foldlM_cons, hstep, hrun], ?_⟩
      rwa [resume_entry hs']

theorem runClear_left {st : IniState} {pre cbs : List Callback} (hp : pre <+: cbs)
    (hc : runClear st cbs = true) : runClear st pre = true := by
  obtain ⟨post, rfl⟩ := hp
  induction pre generalizing st with
  | nil => rfl
  | cons cb pre ih =>
    simp only [List.cons_append, runClear, Bool.and_eq_true] at hc ⊢
    refine ⟨hc.1, ?_⟩
    cases hs : iniParserCb none st cb with
    | none => rfl
    | some st' =>
      rw [hs, Option.all_some] at hc
      exact ih hc.2

/-- Each prefix of a run whose steps are all clear ends, and stores under every section what the
header and the entries under it say; an entry changes the section it stands under and no other. -/
theorem ini_sections_isolated (cbs : List Callback) (hc : runClear iniStart cbs = true) :
    (∀ pre, pre <+: cbs → ∃ st, iniLoad none pre = some st ∧
      st.heap.reads (.node (IniSpec.load pre)) (.ref st.arr) = true) ∧
    ∀ pre cb key sec parents k, pre ++ [cb] <+: cbs → (∀ key, cb ≠ .section key) →
      lastHeader pre = some key → sectionHeader key = some (sec, parents) → k ≠ symtableKey sec →
      Table.find? (IniSpec.load (pre ++ [cb])) k = Table.find? (IniSpec.load pre) k := by
  refine ⟨?_, fun pre cb key sec parents k _ hs hl hh hk => load_entry_other hs hl hh hk⟩
  intro pre hp
  obtain ⟨st, _, hrun, l⟩ := loads_start.run pre (runClear_left hp hc)
  exact ⟨st, hrun, l.focus.reads⟩

/-- A child section that inherits a list and a table, separates the table and pushes into a list
of its own. -/
def clearFile : List Callback := [
  .section (lit "base"),
  .popEntry (lit "list") (some (lit "1")) none,
  .popEntry (lit "list") (some (lit "2")) none,
  .entry (lit "db.host") (some (lit "a")),
  .section (lit "child : base"),
  .entry (lit "db.host") (some (lit "b")),
  .popEntry (lit "own") (some (lit "3")) (some (lit "x"))]

theorem ini_sections_isolated_clearFile :
    ∃ st, iniLoad none clearFile = some st ∧
      st.heap.reads (.node (IniSpec.load clearFile)) (.ref st.arr) = true :=
  (ini_sections_isolated clearFile (by decide)).1 clearFile (List.prefix_refl _)

/-- `[A] a[] = 1` and `[B : A] a[] = 2`: the list is shared when the second value is pushed. -/
def sharedFile : List Callback := [
  .section (lit "A"),
  .popEntry (lit "a") (some (lit "1")) none,
  .section (lit "B : A"),
  .popEntry (lit "a") (some (lit "2")) none]

/-- The push under `B` reaches the content of `A`. -/
theorem ini_push_leaks :
    ∃ st, iniLoad none sharedFile = some st ∧
      st.heap.reads (.node (IniSpec.load sharedFile)) (.ref st.arr) = false ∧
      Table.find? (IniSpec.load sharedFile) (symtableKey (lit "A")) =
        some (.node [(symtableKey (lit "a"), .node [(.index 0, .leaf (lit "1"))])]) ∧
      ∃ t sec u list, st.heap.table? st.arr = some t ∧
        Table.find? t (symtableKey (lit "A")) = some (.ref sec) ∧
        st.heap.table? sec = some u ∧ Table.find? u (symtableKey (lit "a")) = some (.ref list) ∧
        st.heap.table? list =
          some [(.index 0, .scalar (lit "1")), (.index 1, .scalar (lit "2"))] :=
  ⟨_, rfl, by decide, by rfl, _, _, _, _, rfl, rfl, rfl, rfl, rfl⟩

end Yaf
