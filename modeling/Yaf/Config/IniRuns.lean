import Yaf.Base.Checked
import Yaf.Base.HeapReach
import Yaf.Config.IniSections

namespace Yaf
open Base Heap IniSpec

/-- The table a `POP_ENTRY` writes into first: the one without the next segment, or the one its
last segment names. -/
def popTarget (h : IniHeap) (dst : Addr) : List Key → Option Addr
  | [] => none
  | [seg] =>
    match h.slot? dst seg with
    | some (.ref findHash) => some findHash
    | _ => some dst
  | seg :: segs =>
    match h.slot? dst seg with
    | none => some dst
    | some (.ref findHash) => popTarget h findHash segs
    | some (.scalar _) => none

theorem popTarget_empty {h : IniHeap} {d : Addr} (ht : h.table? d = some []) {segs : List Key}
    (hs : segs ≠ []) : popTarget h d segs = some d := by
  cases segs with
  | nil => exact absurd rfl hs
  | cons k segs => cases segs <;> simp [popTarget, slot?_eq ht]

section
variable {h h' : IniHeap} {r dst d : Addr} {es : Content} {k : Key}

/-- The table `key[]` ends at, whoever else holds the tables on the way. -/
theorem popFind_aside (segs : List Key) :
    ∀ {h : IniHeap} {dst : Addr} {es : Content} {h₁ : IniHeap},
      Focus h [.ref r] [] r es → (∃ t, h.table? dst = some t) →
      popFind h dst segs = some (d, k, h₁) →
      ∃ target es', popTarget h dst segs = some target ∧
        Aside h (popTable h₁ d k).2 r target es es' ∧
        (∃ t, (popTable h₁ d k).2.table? (popTable h₁ d k).1 = some t) ∧
        ((popTable h₁ d k).1 = target ∨ h.table? (popTable h₁ d k).1 = none) := by
  induction segs with
  | nil =>
    intro h dst es h₁ _ _ hf
    simp [popFind] at hf
  | cons seg segs ih =>
    intro h dst es h₁ f hlive hf
    obtain ⟨t, ht⟩ := hlive
    cases hs : h.slot? dst seg with
    | none =>
      obtain ⟨⟨es₁, hfresh⟩, hslot, hempty, hold⟩ := f.fresh_aside ht (k := seg) (by simp [hs])
      cases segs with
      | nil =>
        simp only [popFind, hs, Option.some.injEq, Prod.mk.injEq] at hf
        obtain ⟨rfl, rfl, rfl⟩ := hf
        refine ⟨dst, es₁, by simp [popTarget, hs], ?_⟩
        simp only [popTable, hslot]
        exact ⟨hfresh, ⟨[], hempty⟩, Or.inr (table?_alloc_none h)⟩
      | cons seg' segs =>
        simp only [popFind, hs] at hf
        obtain ⟨target, es', htarget, haside, hlive, hwhere⟩ := ih hfresh.focus ⟨[], hempty⟩ hf
        obtain rfl : h.alloc.1 = target := by
          rw [popTarget_empty hempty (by simp)] at htarget
          exact Option.some.inj htarget
        have hgone : ∀ b, (h.alloc.2.put dst seg (.ref h.alloc.1)).table? b = none →
            h.table? b = none := by
          intro b hb
          cases hu : h.table? b with
          | none => rfl
          | some u =>
            obtain ⟨u', hu'⟩ := hold b u hu
            rw [hb] at hu'
            cases hu'
        refine ⟨dst, es', by simp [popTarget, hs],
          hfresh.trans f haside (Or.inr (table?_alloc_none h)), hlive, Or.inr ?_⟩
        rcases hwhere with he | hnone
        · rw [he]
          exact table?_alloc_none h
        · exact hgone _ hnone
    | some v =>
      cases v with
      | scalar s =>
        cases segs with
        | nil =>
          obtain ⟨⟨es₁, hfresh⟩, -, hempty, -⟩ := f.fresh_aside ht (k := seg) (by simp [hs])
          simp only [popFind, hs, Option.some.injEq, Prod.mk.injEq] at hf
          obtain ⟨rfl, rfl, rfl⟩ := hf
          refine ⟨dst, es₁, by simp [popTarget, hs], ?_⟩
          simp only [popTable, hs]
          exact ⟨hfresh, ⟨[], hempty⟩, Or.inr (table?_alloc_none h)⟩
        | cons seg' segs => simp [popFind, hs] at hf
      | ref a =>
        obtain ⟨u, hu⟩ : ∃ u, h.table? a = some u := by
          rw [slot?_eq ht] at hs
          exact f.sound.child_live ht (Table.mem_of_find? hs)
        cases segs with
        | nil =>
          simp only [popFind, hs, Option.some.injEq, Prod.mk.injEq] at hf
          obtain ⟨rfl, rfl, rfl⟩ := hf
          refine ⟨a, es, by simp [popTarget, hs], ?_⟩
          simp only [popTable, hs]
          exact ⟨f.aside_refl a, ⟨u, hu⟩, Or.inl trivial⟩
        | cons seg' segs =>
          simp only [popFind, hs] at hf
          simpa only [popTarget, hs] using ih f ⟨u, hu⟩ hf

/-- A push that goes through leaves a heap that still reads, and what does not reach the table it
writes into reads as before. -/
theorem simplePopEntry_aside {key value : Bytes} {index : Option Bytes}
    (f : Focus h [.ref r] [] r es) (hlive : ∃ t, h.table? dst = some t)
    (hp : simplePopEntry h dst key value index = some h') :
    ∃ target es', popTarget h dst (popSegments key) = some target ∧ Aside h h' r target es es' := by
  simp only [simplePopEntry, Option.bind_eq_bind, Option.bind_eq_some_iff] at hp
  obtain ⟨⟨d, seg, h₁⟩, hf, t, ht, hp⟩ := hp
  obtain ⟨target, es₁, htarget, haside, -, hwhere⟩ := popFind_aside _ f hlive hf
  refine ⟨target, ?_⟩
  cases hk : popKey t index with
  | none =>
    simp only [hk, Option.some.injEq] at hp
    exact ⟨es₁, htarget, hp ▸ haside⟩
  | some i =>
    simp only [hk, Option.some.injEq] at hp
    obtain ⟨es', hput⟩ := haside.focus.scalar_aside ht i value
    exact ⟨es', htarget, hp ▸ haside.trans f hput hwhere⟩

/-- Nothing holds the root, so no walk that starts elsewhere ends there. -/
theorem popTarget_ne_root {segs : List Key} (f : Focus h [.ref r] [] r es) (hne : dst ≠ r)
    {target : Addr} (ht : popTarget h dst segs = some target) : target ≠ r := by
  have hchild : ∀ {b seg a}, h.slot? b seg = some (.ref a) → a ≠ r := by
    intro b seg a hs
    obtain ⟨t, htb, hk⟩ := Option.bind_eq_some_iff.mp hs
    simpa using f.owned.unheld f.sound (by simp) htb (Table.mem_of_find? hk)
  induction segs generalizing dst with
  | nil => simp [popTarget] at ht
  | cons seg segs ih =>
    cases segs with
    | nil =>
      simp only [popTarget] at ht
      split at ht
      · rename_i a hs
        obtain rfl := Option.some.inj ht
        exact hchild hs
      · obtain rfl := Option.some.inj ht
        exact hne
    | cons seg' segs =>
      simp only [popTarget] at ht
      split at ht
      · obtain rfl := Option.some.inj ht
        exact hne
      · rename_i a hs
        exact ih (hchild hs) ht
      · cases ht

end

/-- A step that does not touch what is stored under a key: no header of that name, and no push into
a table the section there holds, itself or through others. -/
def stepSafe (key : Key) (st : IniState) : Callback → Prop
  | .section header => ∀ name parents, sectionHeader header = some (name, parents) →
      symtableKey name ≠ key
  | .popEntry k (some _) _ => ∀ a target, st.heap.slot? st.arr key = some (.ref a) →
      popTarget st.heap (st.active.getD st.arr) (popSegments k) = some target →
        ¬Reach st.heap a target
  | _ => True

def runSafe (key : Key) (st : IniState) : List Callback → Prop
  | [] => True
  | cb :: cbs => stepSafe key st cb ∧ ∀ st' ∈ iniParserCb none st cb, runSafe key st' cbs

section
variable {st st' : IniState} {configs : Content} {name : Option Key} {cb : Callback}

/-- A header that goes through has tables for its parents. -/
theorem inheritSections_clear {arr sec : Addr} (parents : List Bytes) :
    ∀ {h h' : IniHeap} {d : Content}, Focus h [.ref arr] [] arr configs →
      Focus h [.ref sec, .ref arr] [arr] sec d →
      parents.foldlM (inheritSection arr sec) h = some h' →
      ∀ p ∈ parents, ∀ s, h.slot? arr (symtableKey p) ≠ some (.scalar s) := by
  induction parents with
  | nil => simp
  | cons p parents ih =>
    intro h h' d f fs hrun
    rw [List.foldlM_cons, Option.bind_eq_bind, Option.bind_eq_some_iff] at hrun
    obtain ⟨h₁, hstep, hrun⟩ := hrun
    have hp : ∀ s, h.slot? arr (symtableKey p) ≠ some (.scalar s) := by
      intro s hs
      simp [inheritSection, hs] at hstep
    obtain ⟨h₂, hone, hb⟩ := inheritSections_spec [p] f fs (by simpa using hp)
    obtain rfl : h₁ = h₂ := by simpa [List.foldlM_cons, hstep] using hone
    intro q hq
    rcases List.mem_cons.mp hq with rfl | hq
    · exact hp
    · have hrest := ih (f.apart fs hb).focus hb.focus hrun q hq
      rwa [slot?_congr (hb.frame.table arr List.mem_cons_self)] at hrest

theorem Loads.header_any {key : Bytes} (l : Loads st configs name)
    (hstep : iniParserCb none st (.section key) = some st') :
    ∃ sec parents, sectionHeader key = some (sec, parents) ∧
      Loads st' (Table.update configs (symtableKey sec) (.node (inherit configs parents)))
        (some (symtableKey sec)) := by
  have hclear : stepClear st (.section key) = true := by
    simp only [iniParserCb, l.parsing, reduceCtorEq, if_false, Option.bind_eq_bind,
      Option.bind_eq_some_iff] at hstep
    obtain ⟨⟨sec, parents⟩, hh, h₁, hrun, -⟩ := hstep
    obtain ⟨hb, fs⟩ := l.focus.alloc
    obtain ⟨t, ht, _⟩ := l.focus.table
    have hta : st.heap.alloc.2.table? st.arr = some t := table?_push _ ht
    have hall := inheritSections_clear parents hb.focus fs hrun
    simp only [stepClear, hh, List.all_eq_true]
    intro p hp
    have hno := hall p hp
    rw [slot?_congr (hta.trans ht.symm)] at hno
    split
    · rename_i s hs
      exact absurd hs (hno s)
    · rfl
  obtain ⟨st₁, sec, parents, hh, hstep', l'⟩ := l.header hclear
  obtain rfl := Option.some.inj (hstep.symm.trans hstep')
  exact ⟨sec, parents, hh, l'⟩

/-- A push leaves the state one between two callbacks, and another section that it does not write
into as it was. -/
theorem Loads.pop_any {h' : IniHeap} {k value : Bytes} {index : Option Bytes}
    (l : Loads st configs name)
    (hp : simplePopEntry st.heap (st.active.getD st.arr) k value index = some h') :
    ∃ configs', Loads { st with heap := h' } configs' name ∧
      ∀ own key, name = some own → own ≠ key → stepSafe key st (.popEntry k (some value) index) →
        Table.find? configs' key = Table.find? configs key := by
  cases name with
  | none =>
    have hactive : st.active = none := l.active
    have hdst : st.active.getD st.arr = st.arr := by rw [hactive]; rfl
    rw [hdst] at hp
    obtain ⟨t, ht, _⟩ := l.focus.table
    obtain ⟨_, configs', _, haside⟩ := simplePopEntry_aside l.focus ⟨t, ht⟩ hp
    refine ⟨configs', ⟨haside.focus, l.parsing, hactive⟩, fun own key hown => ?_⟩
    cases hown
  | some own =>
    obtain ⟨sec, e, hactive, ⟨t, ht, hk, hrc⟩, he⟩ := l.active
    have hdst : st.active.getD st.arr = sec := by rw [hactive]; rfl
    have hslot : st.heap.slot? st.arr own = some (.ref sec) := by rw [slot?_eq ht, hk]
    have hsec : sec ≠ st.arr := by
      simpa using l.focus.owned.unheld l.focus.sound (by simp) ht (Table.mem_of_find? hk)
    rw [hdst] at hp
    obtain ⟨target, configs', htarget, haside⟩ := simplePopEntry_aside l.focus
      (l.focus.sound.child_live ht (Table.mem_of_find? hk)) hp
    have hne : target ≠ st.arr := popTarget_ne_root l.focus hsec htarget
    have hslot' : h'.slot? st.arr own = some (.ref sec) := by
      rw [slot?_congr (haside.root hne), hslot]
    obtain ⟨e', he'⟩ : ∃ e', Table.find? configs' own = some (.node e') := by
      rcases haside.focus.slot_cases own with ⟨hs, _⟩ | ⟨s, hs, _⟩ | ⟨_, e', _, he'⟩
      · rw [hslot'] at hs
        cases hs
      · rw [hslot'] at hs
        cases hs
      · exact ⟨e', he'⟩
    refine ⟨configs', ⟨haside.focus, l.parsing, sec, e', hactive, ⟨t, ?_, hk, ?_⟩, he'⟩, ?_⟩
    · rw [← ht]
      exact haside.root hne
    · exact Nat.le_trans (haside.rc hne own sec hslot) hrc
    · rintro _ key ⟨rfl⟩ hkey hsafe
      apply haside.kept hne
      intro a ha
      exact hsafe a target ha (by rw [hdst]; exact htarget)

/-- Any callback but a header. -/
theorem Loads.entry_any (l : Loads st configs name) (hs : ∀ key, cb ≠ .section key)
    (hstep : iniParserCb none st cb = some st') :
    ∃ configs', Loads st' configs' name ∧
      ∀ own key, name = some own → own ≠ key → stepSafe key st cb →
        Table.find? configs' key = Table.find? configs key := by
  by_cases hpop : ∃ k value index, cb = .popEntry k (some value) index
  · obtain ⟨k, value, index, rfl⟩ := hpop
    simp only [iniParserCb, l.parsing, reduceCtorEq, if_false, simpleParserCb, Option.bind_eq_bind,
      Option.bind_eq_some_iff, Option.some.injEq] at hstep
    obtain ⟨h', hp, rfl⟩ := hstep
    simpa only [l.parsing] using l.pop_any hp
  · have hclear : stepClear st cb = true := by
      cases cb with
      | «section» key => exact absurd rfl (hs key)
      | entry key value => rfl
      | popEntry key value index =>
        cases value with
        | none => rfl
        | some value => exact absurd ⟨key, value, index, rfl⟩ hpop
    obtain ⟨st₁, hstep₁, l₁⟩ := l.entry hs hclear
    obtain rfl := Option.some.inj (hstep.symm.trans hstep₁)
    refine ⟨_, l₁, ?_⟩
    rintro own key rfl hkey -
    exact Table.find?_update_other _ _ (Ne.symm hkey)

/-- Whatever a file does, a load that goes through leaves a heap that still reads. -/
theorem Loads.run_any (cbs : List Callback) {st : IniState} {configs : Content}
    {name : Option Key} (l : Loads st configs name)
    (hrun : cbs.foldlM (iniParserCb none) st = some st') :
    ∃ configs' name', Loads st' configs' name' := by
  refine foldlM_some_keeps (I := fun st => ∃ configs name, Loads st configs name) ?_
    ⟨configs, name, l⟩ hrun
  intro st cb st' hl hstep
  obtain ⟨configs, name, l⟩ := hl
  by_cases hs : ∃ key, cb = .section key
  · obtain ⟨key, rfl⟩ := hs
    obtain ⟨_, _, _, l₁⟩ := l.header_any hstep
    exact ⟨_, _, l₁⟩
  · obtain ⟨_, l₁, _⟩ := l.entry_any (fun key he => hs ⟨key, he⟩) hstep
    exact ⟨_, _, l₁⟩

/-- From a header on, a safe run keeps what is stored under the key. -/
theorem Loads.run_safe {key : Key} (cbs : List Callback) :
    ∀ {st : IniState} {configs : Content} {name : Option Key}, Loads st configs name →
      (∀ cb ∈ cbs.head?, (∃ header, cb = .section header) ∨ ∃ own, name = some own ∧ own ≠ key) →
      runSafe key st cbs → cbs.foldlM (iniParserCb none) st = some st' →
      ∃ configs' name', Loads st' configs' name' ∧
        Table.find? configs' key = Table.find? configs key := by
  induction cbs with
  | nil =>
    intro st configs name l _ _ hrun
    obtain rfl := Option.some.inj hrun
    exact ⟨configs, name, l, rfl⟩
  | cons cb cbs ih =>
    intro st configs name l hhead hsafe hrun
    rw [List.foldlM_cons, Option.bind_eq_bind, Option.bind_eq_some_iff] at hrun
    obtain ⟨st₁, hstep, hrun⟩ := hrun
    obtain ⟨hsafe₁, hrest⟩ := hsafe
    by_cases hs : ∃ header, cb = .section header
    · obtain ⟨header, rfl⟩ := hs
      obtain ⟨sec, parents, hh, l₁⟩ := l.header_any hstep
      have hne : symtableKey sec ≠ key := hsafe₁ sec parents hh
      obtain ⟨configs', name', l', hfind⟩ :=
        ih l₁ (fun _ _ => Or.inr ⟨_, rfl, hne⟩) (hrest st₁ hstep) hrun
      exact ⟨configs', name', l', hfind.trans (Table.find?_update_other _ _ (Ne.symm hne))⟩
    · rcases hhead cb rfl with hheader | ⟨own, rfl, hne⟩
      · exact absurd hheader hs
      obtain ⟨configs₁, l₁, hkeep⟩ := l.entry_any (fun key he => hs ⟨key, he⟩) hstep
      obtain ⟨configs', name', l', hfind⟩ :=
        ih l₁ (fun _ _ => Or.inr ⟨own, rfl, hne⟩) (hrest st₁ hstep) hrun
      exact ⟨configs', name', l', hfind.trans (hkeep own key rfl hne hsafe₁)⟩

/-- No table seen from outside a private path reaches the one a private walk writes into. -/
theorem popPrivate_unreached {R : List (Val Bytes)} {a target : Addr} (segs : List Key) :
    ∀ {h : IniHeap} {P : List Addr} {d : Addr} {es : Content}, Focus h R P d es →
      popPrivate h d segs = true → popTarget h d segs = some target → Outside h R P d a →
      ¬Reach h a target := by
  induction segs with
  | nil =>
    intro h P d es _ hp
    simp [popPrivate] at hp
  | cons k segs ih =>
    intro h P d es f hp ht ho hreach
    have hself : target ≠ d := by
      rintro rfl
      exact (ho.reach hreach).not_mem f.sound f.owned List.mem_cons_self
    cases segs with
    | nil =>
      rcases f.slot_cases k with ⟨hs, _⟩ | ⟨s, hs, _⟩ | ⟨b, e, hs, he⟩
      · simp only [popTarget, hs, Option.some.injEq] at ht
        exact hself ht.symm
      · simp only [popTarget, hs, Option.some.injEq] at ht
        exact hself ht.symm
      · simp only [popTarget, hs, Option.some.injEq] at ht
        simp only [popPrivate, hs, decide_eq_true_eq] at hp
        subst ht
        have hslot := f.privateSlot hs hp
        obtain ⟨t, ht, hk, _⟩ := hslot
        exact f.owned.hidden_child f.sound ht (Table.mem_of_find? hk)
          (f.child (f.privateSlot hs hp) he).owned.1 (ho.reach hreach)
    | cons seg segs =>
      rcases f.slot_cases k with ⟨hs, _⟩ | ⟨s, hs, _⟩ | ⟨b, e, hs, he⟩
      · simp only [popTarget, hs, Option.some.injEq] at ht
        exact hself ht.symm
      · simp [popPrivate, hs] at hp
      · simp only [popPrivate, hs, Bool.and_eq_true, decide_eq_true_eq] at hp
        simp only [popTarget, hs] at ht
        have hc := f.child (f.privateSlot hs hp.1) he
        obtain ⟨t, htd, hk, _⟩ := f.privateSlot hs hp.1
        have hhidden := f.owned.hidden_child f.sound htd (Table.mem_of_find? hk) hc.owned.1
        exact ih hc hp.2 ht (ho.deeper (List.Subset.refl R) f.sound f.owned hhidden) hreach

/-- A clear entry is safe for every section but the one it stands under. -/
theorem Loads.stepSafe_of_clear {own key : Key} (l : Loads st configs (some own)) (hne : own ≠ key)
    (hs : ∀ header, cb ≠ .section header) (hc : stepClear st cb = true) :
    stepSafe key st cb := by
  cases cb with
  | «section» header => exact absurd rfl (hs header)
  | entry k value => trivial
  | popEntry k value index =>
    cases value with
    | none => trivial
    | some value =>
      intro a target ha htarget
      obtain ⟨sec, e, hactive, hslot, he⟩ := l.active
      have hdst : st.active.getD st.arr = sec := by rw [hactive]; rfl
      rw [hdst] at htarget
      have hp : popPrivate st.heap sec (popSegments k) = true := by
        simpa [stepClear, hdst] using hc
      have fc := l.focus.child hslot he
      obtain ⟨t, ht, hk, _⟩ := hslot
      rw [slot?_eq ht] at ha
      have hsec : a ≠ sec := by
        rintro rfl
        have htwo := tableRefs_two (Table.mem_of_find? hk) (Table.mem_of_find? ha) hne
        have := tableRefs_le_refs ht a
        have := l.focus.sound.counted a
        have := fc.owned.1
        omega
      have harr : a ≠ st.arr := by
        simpa using l.focus.owned.unheld l.focus.sound (by simp) ht (Table.mem_of_find? ha)
      exact popPrivate_unreached _ fc hp htarget
        (.sibling List.mem_cons_self ht (Table.mem_of_find? ha) (by simp [hsec, harr]))

/-- No header has the name that is stored under the key. -/
def noHeader (key : Key) (cbs : List Callback) : Bool :=
  cbs.all fun cb =>
    match cb with
    | .section header => (sectionHeader header).all fun p => symtableKey p.1 ≠ key
    | _ => true

/-- A clear run is safe for a section whose name does not come again. -/
theorem Loads.runSafe_of_clear {key : Key} (cbs : List Callback) :
    ∀ {st : IniState} {configs : Content} {name : Option Key}, Loads st configs name →
      (∀ cb ∈ cbs.head?, (∃ header, cb = .section header) ∨ ∃ own, name = some own ∧ own ≠ key) →
      runClear st cbs = true → noHeader key cbs = true → runSafe key st cbs := by
  induction cbs with
  | nil => exact fun _ _ _ _ => trivial
  | cons cb cbs ih =>
    intro st configs name l hhead hclear hno
    simp only [runClear, Bool.and_eq_true] at hclear
    simp only [noHeader, List.all_cons, Bool.and_eq_true] at hno
    by_cases hs : ∃ header, cb = .section header
    · obtain ⟨header, rfl⟩ := hs
      have hname : ∀ name parents, sectionHeader header = some (name, parents) →
          symtableKey name ≠ key := by
        intro name parents hh
        simpa [hh] using hno.1
      refine ⟨hname, fun st₁ hstep => ?_⟩
      obtain ⟨sec, parents, hh, l₁⟩ := l.header_any hstep
      rw [hstep, Option.all_some] at hclear
      exact ih l₁ (fun _ _ => Or.inr ⟨_, rfl, hname sec parents hh⟩) hclear.2 hno.2
    · have hs' : ∀ header, cb ≠ .section header := fun header he => hs ⟨header, he⟩
      rcases hhead cb rfl with hheader | ⟨own, rfl, hne⟩
      · exact absurd hheader hs
      refine ⟨l.stepSafe_of_clear hne hs' hclear.1, fun st₁ hstep => ?_⟩
      obtain ⟨configs₁, l₁, _⟩ := l.entry_any hs' hstep
      rw [hstep, Option.all_some] at hclear
      exact ih l₁ (fun _ _ => Or.inr ⟨own, rfl, hne⟩) hclear.2 hno.2

end

end Yaf
