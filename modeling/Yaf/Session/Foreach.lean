import Yaf.Php.Numeric
import Yaf.Session

namespace Yaf
open Base HashTable

namespace Session

variable {ν τ : Type}

/-- What a loop over the session runs for an entry. A body that does not end has no result. -/
abbrev Body (ν τ : Type) : Type := Key → ν → τ → SessionProgram ν (Option τ)

/-- The turns of `foreach ($session as $key => $value)`, with the entries handed to the body. -/
def turns (body : Body ν τ) : Nat → Table Key ν → τ → SessionProgram ν (Option (Table Key ν × τ))
  | 0, _, _ => .done none
  | fuel + 1, seen, t =>
    .call .valid fun more =>
      match more with
      | .bool true =>
        .call .current fun v =>
        .call .key fun k =>
          match k, v with
          | .key k, .value v =>
            (body k v t).bind fun r =>
              match r with
              | none => .done none
              | some t' => .call .next fun _ => turns body fuel (seen ++ [(k, v)]) t'
          | _, _ => .done none
      | _ => .done (some (seen, t))

/-- `ZEND_FE_RESET` and `ZEND_FE_FETCH` on the session object. -/
def foreach (body : Body ν τ) (fuel : Nat) (t : τ) : SessionProgram ν (Option (Table Key ν × τ)) :=
  .call .rewind fun _ => turns body fuel [] t

section turns
variable {body : Body ν τ} {c : Cursor Key ν} {fuel : Nat} {seen : Table Key ν} {t : τ}

theorem turns_end (h : c.current? = none) :
    (turns body (fuel + 1) seen t).run spec c = .ok (some (seen, t), c) := by
  have hv : spec c .valid = .ok (.bool false, c) := by rw [spec, h]; rfl
  rw [turns, Client.run_call_ok hv]
  rfl

/-- One turn hands the current entry to the body, and goes on where the body leaves the place. -/
theorem turns_step {k : Key} {v : ν} (h : c.current? = some (k, v)) :
    (turns body (fuel + 1) seen t).run spec c =
      match (body k v t).run spec c with
      | .ok (some t', c') => (turns body fuel (seen ++ [(k, v)]) t').run spec c'.advance
      | .ok (none, c') => .ok (none, c')
      | .error e => .error e := by
  have hv : spec c .valid = .ok (.bool true, c) := by rw [spec, h]; rfl
  have hc : spec c .current = .ok (.value v, c) := by rw [spec, h]
  have hk : spec c .key = .ok (.key k, c) := by rw [spec, h]
  rw [turns, Client.run_call_ok hv]
  simp only
  rw [Client.run_call_ok hc, Client.run_call_ok hk]
  simp only
  rw [Client.run_bind]
  cases (body k v t).run spec c with
  | error e => rfl
  | ok r =>
    obtain ⟨r, c'⟩ := r
    cases r <;> rfl

theorem only_turns {P : SessionCall ν → Prop} (hbody : ∀ k v t, Client.Only P (body k v t))
    (valid : P .valid) (current : P .current) (key : P .key) (next : P .next) :
    Client.Only P (turns body fuel seen t) := by
  induction fuel generalizing seen t with
  | zero => exact .done none
  | succ fuel ih =>
    refine .call _ _ valid ?_
    intro more
    split
    · refine .call _ _ current ?_
      intro v
      refine .call _ _ key ?_
      intro k
      split
      · apply (hbody _ _ _).bind
        intro r
        split
        · exact .done none
        · exact .call _ _ next fun _ => ih
      · exact .done none
    · exact .done _

theorem only_foreach {P : SessionCall ν → Prop} (hbody : ∀ k v t, Client.Only P (body k v t))
    (rewind : P .rewind) (valid : P .valid) (current : P .current) (key : P .key) (next : P .next) :
    Client.Only P (foreach body fuel t) :=
  .call _ _ rewind fun _ => only_turns hbody valid current key next

end turns

section deleting

/-- A body that takes an entry out of the session when the test drops it. -/
def deleting (drop : Bytes → ν → Bool) : Body ν τ := fun k v t =>
  match k with
  | .name s => if drop s v then .call (.del s) fun _ => .done (some t) else .done (some t)
  | .index _ => .done (some t)

/-- What such a body drops: no entry with an integer key. -/
def drops (drop : Bytes → ν → Bool) : Key → ν → Bool
  | .name s, v => drop s v
  | .index _, _ => false

variable {drop : Bytes → ν → Bool} {t : τ}

theorem deleting_keeps {k : Key} {v : ν} (c : Cursor Key ν) (h : drops drop k v = false) :
    (deleting drop k v t).run spec c = .ok (some t, c) := by
  cases k with
  | index i => rfl
  | name s =>
    change drop s v = false at h
    rw [deleting]
    simp only [h]
    rfl

theorem deleting_drops {k : Key} {v : ν} {c : Cursor Key ν} (h : drops drop k v = true)
    (found : (c.find? k).isSome = true) :
    (deleting drop k v t).run spec c = .ok (some t, c.erase k) := by
  cases k with
  | index i => cases h
  | name s =>
    change drop s v = true at h
    rw [deleting]
    simp only [h, if_true]
    have hs : spec c (.del s) = .ok (.self, c.erase (.name s)) := by rw [spec, if_pos found]
    rw [Client.run_call_ok hs]
    rfl

theorem turns_deleting {before after : Table Key ν} {fuel : Nat} (seen : Table Key ν)
    (nodup : (Table.keys (before ++ after)).Nodup) (enough : after.length < fuel) :
    ∃ c, (turns (deleting drop) fuel seen t).run spec (.between before after nodup) =
        .ok (some (seen ++ (sweep (drops drop) after).1, t), c) ∧
      c.entries = before ++ (sweep (drops drop) after).2 := by
  induction fuel generalizing before after seen with
  | zero => cases enough
  | succ fuel ih =>
    cases after with
    | nil =>
      refine ⟨.between before [] nodup, ?_, rfl⟩
      rw [turns_end Cursor.current?_between, sweep, List.append_nil]
    | cons p rest =>
      obtain ⟨k, v⟩ := p
      have hcur : (Cursor.between before ((k, v) :: rest) nodup).current? = some (k, v) :=
        Cursor.current?_between
      have henough : rest.length < fuel := Nat.lt_of_succ_lt_succ enough
      have hnodup : (Table.keys (before ++ [(k, v)] ++ rest)).Nodup := by
        rwa [List.append_assoc, List.singleton_append]
      rw [turns_step hcur]
      cases hd : drops drop k v with
      | false =>
        rw [deleting_keeps _ hd]
        simp only
        rw [Cursor.advance_between nodup hnodup]
        obtain ⟨c, hrun, hc⟩ := ih (seen ++ [(k, v)]) hnodup henough
        refine ⟨c, ?_, ?_⟩
        · rw [hrun, sweep_keep rest hd, List.append_assoc, List.singleton_append]
        · rw [hc, sweep_keep rest hd, List.append_assoc, List.singleton_append]
      | true =>
        have hfound : ((Cursor.between before ((k, v) :: rest) nodup).find? k).isSome = true := by
          have hm : (k, v) ∈ before ++ (k, v) :: rest := by simp
          have hf : (Cursor.between before ((k, v) :: rest) nodup).find? k = some v :=
            Table.find?_of_mem nodup hm
          rw [hf]
          rfl
        have hrest : (Table.keys (before ++ rest)).Nodup := by
          rw [Table.keys_append, Table.keys_cons] at nodup
          rw [Table.keys_append]
          exact nodup.sublist ((List.sublist_cons_self k (Table.keys rest)).append_left before.keys)
        rw [deleting_drops hd hfound]
        simp only
        rw [Cursor.erase_between nodup hrest]
        cases rest with
        | nil =>
          rw [Cursor.advance_between_nil]
          obtain ⟨c, hrun, hc⟩ := ih (seen ++ [(k, v)]) hrest henough
          refine ⟨c, ?_, ?_⟩
          · rw [hrun, sweep_drop_last hd, sweep, List.append_nil]
          · rw [hc, sweep_drop_last hd, sweep]
        | cons q rest =>
          have hnext : (Table.keys (before ++ [q] ++ rest)).Nodup := by
            rwa [List.append_assoc, List.singleton_append]
          rw [Cursor.advance_between hrest hnext]
          obtain ⟨c, hrun, hc⟩ := ih (seen ++ [(k, v)]) hnext
            (Nat.lt_of_succ_lt henough)
          refine ⟨c, ?_, ?_⟩
          · rw [hrun, sweep_drop q rest hd, List.append_assoc, List.singleton_append]
          · rw [hc, sweep_drop q rest hd, List.append_assoc, List.singleton_append]

end deleting

section engine
variable {β : Type} {sess sess' : HashTable Key ν} {c : Cursor Key ν}

/-- A call that cannot make the table grow. -/
def Bounded : SessionCall ν → Prop
  | .set _ _ => False
  | _ => True

/-- What a program that writes nothing does to the specification it does to the engine's table. -/
theorem run_of_spec {p : SessionProgram ν β} {b : β} {c' : Cursor Key ν}
    (h : Holds sess c) (only : Client.Only Bounded p)
    (hrun : p.run spec c = .ok (b, c')) :
    ∃ sess', p.run apply sess = .ok (b, sess') ∧ Holds sess' c' := by
  rcases p.run_agree (fun _ _ call hr => apply_agree hr call) h with ha | ⟨e, call, t, -, hm, hg⟩
  · rw [hrun] at ha
    generalize hr : p.run apply sess = r at ha
    cases ha with
    | ok b sess' c' related => exact ⟨sess', rfl, related⟩
  · have hb := only.mem_calls hm
    cases call with
    | set name value => cases hb
    | _ => cases hg

/-- What returns on the engine's table returns on the specification. -/
theorem spec_of_run {p : SessionProgram ν β} {b : β} (h : Holds sess c)
    (hrun : p.run apply sess = .ok (b, sess')) :
    ∃ c', p.run spec c = .ok (b, c') ∧ Holds sess' c' := by
  rcases p.run_agree (fun _ _ call hr => apply_agree hr call) h with ha | ⟨e, _, _, he, -, -⟩
  · exact Client.run_ok_of_agree ha hrun
  · rw [hrun] at he
    cases he

/-- A session of three names. -/
def sampleProgram : SessionProgram Nat Unit :=
  .call (.set (lit "a") 1) fun _ =>
    .call (.set (lit "b") 2) fun _ => .call (.set (lit "c") 3) fun _ => .done ()

def sampleSession : HashTable Key Nat :=
  ((sampleProgram.run apply (arrayInit Key Nat)).toOption.map Prod.snd).getD (arrayInit Key Nat)

def sampleCursor : Cursor Key Nat :=
  ((Cursor.empty.update (.name (lit "a")) 1).update (.name (lit "b")) 2).update (.name (lit "c")) 3

theorem sample_holds : Holds sampleSession sampleCursor := by
  have hrun : sampleProgram.run apply (arrayInit Key Nat) = .ok ((), sampleSession) := rfl
  obtain ⟨c, hspec, hr⟩ := spec_of_run holds_arrayInit hrun
  obtain ⟨-, rfl⟩ := Prod.mk.inj (Except.ok.inj hspec)
  exact hr

/-- A loop that deletes as it goes hands every entry to its body but those that follow a deleted
one, and these it keeps. -/
theorem foreach_deleting (h : Holds sess c) (drop : Bytes → ν → Bool) (t : τ)
    {fuel : Nat} (enough : c.entries.length < fuel) :
    ∃ sess', (foreach (deleting drop) fuel t).run apply sess =
        .ok (some ((sweep (drops drop) c.entries).1, t), sess') ∧
      entries sess'.arData = (sweep (drops drop) c.entries).2 := by
  have hrewind : spec c .rewind = .ok (.null, c.rewind) := rfl
  have hbetween : c.rewind = .between [] c.entries c.nodup := by
    apply Cursor.ext <;> rfl
  have hnodup : (Table.keys ([] ++ c.entries)).Nodup := c.nodup
  obtain ⟨c', hturns, hc'⟩ : ∃ c', (turns (deleting drop) fuel [] t).run spec
      (.between [] c.entries hnodup) = .ok (some ([] ++ (sweep (drops drop) c.entries).1, t), c') ∧
        c'.entries = [] ++ (sweep (drops drop) c.entries).2 := turns_deleting [] hnodup enough
  have honly : Client.Only Bounded (foreach (deleting drop) fuel t) := by
    apply only_foreach <;> try trivial
    intro k v t
    cases k with
    | index i => exact .done _
    | name s =>
      unfold deleting
      simp only
      split
      · exact .call _ _ trivial fun _ => .done _
      · exact .done _
  have hspec : (foreach (deleting drop) fuel t).run spec c =
      .ok (some ((sweep (drops drop) c.entries).1, t), c') := by
    rw [foreach, Client.run_call_ok hrewind, hbetween, hturns, List.nil_append]
  obtain ⟨sess', hrun, hr⟩ := run_of_spec h honly hspec
  exact ⟨sess', hrun, by rw [hr.entries_eq, hc', List.nil_append]⟩

theorem foreach_deleting_first :
    ∃ sess', (foreach (deleting fun _ v => v == 1) 4 ()).run apply sampleSession =
        .ok (some ([(.name (lit "a"), 1), (.name (lit "c"), 3)], ()), sess') ∧
      entries sess'.arData = [(.name (lit "b"), 2), (.name (lit "c"), 3)] :=
  foreach_deleting sample_holds (fun _ v => v == 1) () (by decide)

end engine

section reads

/-- A call that changes nothing. -/
def Reads : SessionCall ν → Prop
  | .set _ _ | .del _ | .clear | .rewind | .next => False
  | _ => True

theorem spec_reads {call : SessionCall ν} {c c' : Cursor Key ν} {a : SessionAnswer ν}
    (reads : Reads call) (h : spec c call = .ok (a, c')) : c = c' := by
  cases call with
  | get name =>
    cases name with
    | none => exact (Prod.mk.inj (Except.ok.inj h)).2
    | some name =>
      rw [spec] at h
      cases hf : c.find? (.name name) with
      | none =>
        rw [hf] at h
        exact (Prod.mk.inj (Except.ok.inj h)).2
      | some v =>
        rw [hf] at h
        exact (Prod.mk.inj (Except.ok.inj h)).2
  | has name => exact (Prod.mk.inj (Except.ok.inj h)).2
  | count => exact (Prod.mk.inj (Except.ok.inj h)).2
  | valid => exact (Prod.mk.inj (Except.ok.inj h)).2
  | readHandedOut => exact (Prod.mk.inj (Except.ok.inj h)).2
  | current =>
    rw [spec] at h
    cases hc : c.current? with
    | none =>
      rw [hc] at h
      exact (Prod.mk.inj (Except.ok.inj h)).2
    | some p =>
      rw [hc] at h
      exact (Prod.mk.inj (Except.ok.inj h)).2
  | key =>
    rw [spec] at h
    cases hc : c.current? with
    | none =>
      rw [hc] at h
      cases h
    | some p =>
      rw [hc] at h
      exact (Prod.mk.inj (Except.ok.inj h)).2
  | set name value => cases reads
  | del name => cases reads
  | clear => cases reads
  | rewind => cases reads
  | next => cases reads

end reads

section gentle

/-- A call that neither takes an entry out nor moves the pointer. -/
def Gentle : SessionCall ν → Prop
  | .del _ | .clear | .rewind | .next => False
  | _ => True

/-- The place is where it was, and keys have come only at the end. -/
def Extends (c c' : Cursor Key ν) : Prop :=
  c'.position = c.position ∧ c.entries.keys <+: c'.entries.keys

theorem extends_refl (c : Cursor Key ν) : Extends c c := ⟨rfl, List.prefix_refl _⟩

theorem extends_trans (c₁ c₂ c₃ : Cursor Key ν) (h₁ : Extends c₁ c₂) (h₂ : Extends c₂ c₃) :
    Extends c₁ c₃ :=
  ⟨h₂.1.trans h₁.1, h₁.2.trans h₂.2⟩

theorem spec_extends (call : SessionCall ν) (c : Cursor Key ν) (a : SessionAnswer ν)
    (c' : Cursor Key ν) (gentle : Gentle call) (h : spec c call = .ok (a, c')) : Extends c c' := by
  cases call with
  | set name value =>
    obtain ⟨-, rfl⟩ := Prod.mk.inj (Except.ok.inj h)
    refine ⟨rfl, ?_⟩
    rw [Cursor.entries_update, Table.keys_update]
    split
    · exact List.prefix_refl _
    · exact List.prefix_append _ _
  | del name => cases gentle
  | clear => cases gentle
  | rewind => cases gentle
  | next => cases gentle
  | _ =>
    have hc : c = c' := by
      refine spec_reads ?_ h
      trivial
    exact hc ▸ extends_refl c

/-- A body that always ends. -/
def ends (b : Key → ν → τ → SessionProgram ν τ) : Body ν τ := fun k v t =>
  (b k v t).bind fun t' => .done (some t')

variable {b : Key → ν → τ → SessionProgram ν τ}

theorem ends_run {k : Key} {v : ν} {t : τ} {c c' : Cursor Key ν} {r : Option τ}
    (h : (ends b k v t).run spec c = .ok (r, c')) :
    ∃ t', r = some t' ∧ (b k v t).run spec c = .ok (t', c') := by
  rw [ends, Client.run_bind] at h
  cases hb : (b k v t).run spec c with
  | error e =>
    rw [hb] at h
    cases h
  | ok p =>
    obtain ⟨t', c₁⟩ := p
    rw [hb] at h
    obtain ⟨rfl, rfl⟩ := Prod.mk.inj (Except.ok.inj h)
    exact ⟨t', rfl, rfl⟩

/-- The loop has passed exactly the keys before the place. It ends at the last key, or there are as
many as it had turns. -/
theorem turns_visit {c c' : Cursor Key ν} {fuel : Nat} {seen : Table Key ν} {t : τ}
    {r : Option (Table Key ν × τ)} (gentle : ∀ k v t, Client.Only Gentle (b k v t))
    (passed : seen.keys = c.entries.keys.take c.position)
    (h : (turns (ends b) fuel seen t).run spec c = .ok (r, c')) :
    (∀ seen' t', r = some (seen', t') → seen'.keys = c'.entries.keys) ∧
      (r = none → c.position + fuel ≤ c'.entries.length) := by
  induction fuel generalizing c seen t with
  | zero =>
    obtain ⟨rfl, rfl⟩ := Prod.mk.inj (Except.ok.inj h)
    refine ⟨?_, ?_⟩
    · intro seen' t' hr
      cases hr
    · intro _
      exact c.within
  | succ fuel ih =>
    cases hc : c.current? with
    | none =>
      rw [turns_end hc] at h
      obtain ⟨rfl, rfl⟩ := Prod.mk.inj (Except.ok.inj h)
      have hlen : c.entries.length ≤ c.position := List.getElem?_eq_none_iff.mp hc
      refine ⟨?_, ?_⟩
      · intro seen' t' hr
        obtain ⟨rfl, -⟩ := Prod.mk.inj (Option.some.inj hr)
        rw [passed, List.take_of_length_le]
        rwa [Table.length_keys]
      · intro hr
        cases hr
    | some p =>
      obtain ⟨k, v⟩ := p
      rw [turns_step hc] at h
      cases hb : (ends b k v t).run spec c with
      | error e =>
        rw [hb] at h
        cases h
      | ok p =>
        obtain ⟨o, c₁⟩ := p
        obtain ⟨t₁, rfl, hrun⟩ := ends_run hb
        rw [hb] at h
        simp only at h
        obtain ⟨hpos, hkeys⟩ := (gentle k v t).run_keeps extends_refl extends_trans
          (fun call c a c' hg hs => spec_extends call c a c' hg hs) hrun
        have hlt : c.position < c.entries.length := (List.getElem?_eq_some_iff.mp hc).1
        have hle : c.entries.length ≤ c₁.entries.length := by
          have := hkeys.length_le
          rwa [Table.length_keys, Table.length_keys] at this
        have hadvance : c₁.advance.position = c.position + 1 := by
          change min (c₁.position + 1) c₁.entries.length = c.position + 1
          omega
        have hkey : c.entries.keys[c.position]? = some k := by
          rw [Table.keys, List.getElem?_map]
          exact congrArg (Option.map Prod.fst) hc
        have hpassed : Table.keys (seen ++ [(k, v)]) =
            c₁.advance.entries.keys.take c₁.advance.position := by
          obtain ⟨more, hmore⟩ := hkeys
          have hklen : c.position + 1 ≤ c.entries.keys.length := by
            rwa [Table.length_keys]
          rw [hadvance, Cursor.entries_advance, ← hmore, List.take_append_of_le_length hklen,
            List.take_add_one, hkey, Table.keys_append, passed]
          rfl
        obtain ⟨hsome, hnone⟩ := ih hpassed h
        refine ⟨hsome, ?_⟩
        intro hr
        have := hnone hr
        omega

end gentle

section nested

/-- A body that does something, itself loops over the session, and does something more. -/
def nested (before : Body ν τ) (inner : Key → ν → Body ν τ) (fuel : Nat) (after : Body ν τ) :
    Body ν τ := fun k v t =>
  (before k v t).bind fun r =>
    match r with
    | none => .done none
    | some t =>
      (foreach (inner k v) fuel t).bind fun r =>
        match r with
        | none => .done none
        | some (_, t) => after k v t

variable {c c' : Cursor Key ν} {body : Body ν τ} {fuel : Nat} {t t' : τ}

end nested

section results
variable {β : Type} {sess sess' : HashTable Key ν} {c : Cursor Key ν} {fuel : Nat} {t : τ}

/-- A loop whose body neither deletes nor moves the pointer sees every key once and in order, those
that come while it runs among them; only a session that keeps growing keeps it from its end. -/
theorem foreach_visits {b : Key → ν → τ → SessionProgram ν τ} {r : Option (Table Key ν × τ)}
    (h : Holds sess c) (gentle : ∀ k v t, Client.Only Gentle (b k v t))
    (hrun : (foreach (ends b) fuel t).run apply sess = .ok (r, sess')) :
    (∀ seen t', r = some (seen, t') → seen.keys = (entries sess'.arData).keys) ∧
      (r = none → fuel ≤ sess'.nNumOfElements) := by
  obtain ⟨c', hspec, hr⟩ := spec_of_run h hrun
  have hrewind : spec c .rewind = .ok (.null, c.rewind) := rfl
  rw [foreach, Client.run_call_ok hrewind] at hspec
  obtain ⟨hsome, hnone⟩ := turns_visit gentle (by rfl) hspec
  refine ⟨?_, ?_⟩
  · rw [hr.entries_eq]
    exact hsome
  · intro hn
    rw [hr.wf.count, hr.entries_eq]
    have := hnone hn
    omega

/-- A body that writes the same name in every turn. -/
def marking : Key → Nat → Nat → SessionProgram Nat Nat := fun _ v t =>
  .call (.set (lit "d") 9) fun _ => .done (t + v)

theorem foreach_visits_mark :
    ∃ sess' seen, (foreach (ends marking) 5 0).run apply sampleSession =
        .ok (some (seen, 15), sess') ∧
      seen.keys = (entries sess'.arData).keys := by
  have gentle : ∀ k v t, Client.Only Gentle (marking k v t) :=
    fun k v t => .call _ _ trivial fun _ => .done _
  obtain ⟨sess', seen, hrun⟩ : ∃ sess' seen,
      (foreach (ends marking) 5 0).run apply sampleSession = .ok (some (seen, 15), sess') :=
    ⟨_, _, rfl⟩
  exact ⟨sess', seen, hrun, (foreach_visits sample_holds gentle hrun).1 seen 15 rfl⟩

/-- A body that adds up the values. -/
def adding : Body Nat Nat := ends fun _ v t => .done (t + v)

/-- Every program gets from the engine's table what it gets from the specification, as long as no
table of `2 ^ 30` entries has to grow. -/
theorem session_refines (h : Holds sess c) (p : SessionProgram ν β) :
    Client.Agree Holds (p.run apply sess) (p.run spec c) ∨
      p.run apply sess = .error .overflow ∧
        ∃ name value d, (SessionCall.set name value, d) ∈ p.calls spec c ∧
          2 ^ 30 ≤ d.entries.length := by
  rcases p.run_agree (fun _ _ call hr => apply_agree hr call) h with ha | ⟨e, call, d, he, hm, hg⟩
  · exact Or.inl ha
  · right
    cases call with
    | set name value =>
      obtain ⟨rfl, hbig⟩ := hg
      exact ⟨he, name, value, d, hm, hbig⟩
    | _ => cases hg

theorem session_refines_adding :
    Client.Agree Holds ((foreach adding 4 0).run apply sampleSession)
        ((foreach adding 4 0).run spec sampleCursor) ∨
      (foreach adding 4 0).run apply sampleSession = .error .overflow ∧
        ∃ name value d,
          (SessionCall.set name value, d) ∈ (foreach adding 4 0).calls spec sampleCursor ∧
            2 ^ 30 ≤ d.entries.length :=
  session_refines sample_holds (foreach adding 4 0)

/-- `$_SESSION[$name]` read by the script itself (`zend_symtable_find`): a decimal integer is an
integer key. -/
def readDimension (sess : HashTable Key ν) (name : Bytes) : Option ν :=
  match symtableKey name with
  | .index i => zendHashIndexFind sess i
  | .name s => sess.zendHashFind hashKey (.name s)

theorem readDimension_integer (h : Holds sess c) {name : Bytes} {i : Int}
    (hi : handleNumericStr name = some i) : readDimension sess name = c.find? (.index i) := by
  obtain ⟨low, high⟩ := handleNumericStr_bounds hi
  have hkey : symtableKey name = .index i := by rw [symtableKey, hi]
  rw [readDimension, hkey]
  exact indexFind_eq h low high

theorem spec_integer_keys (i : Int) (call : SessionCall ν) (c : Cursor Key ν) (a : SessionAnswer ν)
    (c' : Cursor Key ν) (keeps : call ≠ .clear) (h : spec c call = .ok (a, c')) :
    c'.find? (.index i) = c.find? (.index i) := by
  cases call with
  | set name value =>
    obtain ⟨-, rfl⟩ := Prod.mk.inj (Except.ok.inj h)
    apply Table.find?_update_other
    simp
  | del name =>
    rw [spec] at h
    split at h
    · obtain ⟨-, rfl⟩ := Prod.mk.inj (Except.ok.inj h)
      apply Table.find?_erase_other
      simp
    · obtain ⟨-, rfl⟩ := Prod.mk.inj (Except.ok.inj h)
      rfl
  | clear => exact absurd rfl keeps
  | rewind =>
    obtain ⟨-, rfl⟩ := Prod.mk.inj (Except.ok.inj h)
    rfl
  | next =>
    obtain ⟨-, rfl⟩ := Prod.mk.inj (Except.ok.inj h)
    rfl
  | _ =>
    have hc : c = c' := by
      refine spec_reads ?_ h
      trivial
    rw [hc]

/-- No program on the session object but one that clears it changes what the script reads under a
name that is a decimal integer. -/
theorem integer_names_apart {p : SessionProgram ν β} {b : β} (h : Holds sess c)
    (only : Client.Only (· ≠ .clear) p) (hrun : p.run apply sess = .ok (b, sess')) {name : Bytes}
    (integer : (handleNumericStr name).isSome = true) :
    readDimension sess' name = readDimension sess name := by
  obtain ⟨c', hspec, hr⟩ := spec_of_run h hrun
  obtain ⟨i, hi⟩ := Option.isSome_iff_exists.mp integer
  rw [readDimension_integer hr hi, readDimension_integer h hi]
  apply only.run_keeps (K := fun c c' => c'.find? (.index i) = c.find? (.index i)) _ _ _ hspec
  · intro c
    rfl
  · intro c₁ c₂ c₃ h₁ h₂
    exact h₂.trans h₁
  · exact spec_integer_keys i

/-- What `$_SESSION[7] = 1` makes of a session that has just been started. -/
def packedSession : HashTable Key Nat where
  initialized := true
  packed := true
  nTableSize := HT_MIN_SIZE
  hash := [none, none]
  arData := List.replicate 7 ⟨0, .index 0, none, none⟩ ++ [⟨7, .index 7, some 1, none⟩]
  nNumOfElements := 1
  nInternalPointer := some 7

def packedCursor : Cursor Key Nat := Cursor.empty.update (.index 7) 1

theorem packed_holds : Holds packedSession packedCursor where
  wf := {
    count := rfl
    heads := rfl
    fresh := by
      intro hf
      cases hf
    unchained := by
      intro _
      rfl
    size_pos := by decide
    size_le := by decide
    room := by decide
    hashed := by decide
    nodup := by decide
    chained := by
      intro hplain
      cases hplain
    pointer := by
      intro i hi
      obtain rfl := Option.some.inj hi
      rfl }
  entries_eq := rfl
  place_eq := rfl
  inPlace := by
    intro _ i p hi hp
    have hlt : i < 8 := (List.getElem?_eq_some_iff.mp hi).1
    have hall : ∀ i < 8, (packedSession.arData[i]?).all (fun p => !isLive p || p.key = .index i) =
        true := by decide
    have hkey := hall i hlt
    rw [hi, Option.all_some, hp] at hkey
    simpa using hkey

theorem integer_names_apart_seven :
    ∃ sess', Client.run apply (.call (.set (lit "7") 5) .done) packedSession = .ok (.self, sess') ∧
      readDimension sess' (lit "7") = readDimension packedSession (lit "7") := by
  have only : Client.Only (· ≠ .clear) (.call (.set (lit "7") 5) .done : SessionProgram Nat _) := by
    refine .call _ _ ?_ fun _ => .done _
    simp
  obtain ⟨sess', hrun⟩ : ∃ sess',
      Client.run apply (.call (.set (lit "7") 5) .done) packedSession = .ok (.self, sess') :=
    ⟨_, rfl⟩
  exact ⟨sess', hrun, integer_names_apart packed_holds only hrun rfl⟩

end results

end Session
end Yaf
