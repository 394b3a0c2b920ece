import Yaf.Session

namespace Yaf
open Base HashTable

/-- The static methods of `Yaf_Registry`. -/
inductive RegistryCall (ν : Type) where
  | get (name : Bytes)
  | set (name : Bytes) (value : ν)
  | has (name : Bytes)
  | del (name : Bytes)
  deriving DecidableEq, Repr

inductive RegistryAnswer (ν : Type) where
  | null
  | bool (b : Bool)
  | value (v : ν)
  deriving DecidableEq, Repr

/-- The static property of the class: the entries of the one registry, once a call has made it. -/
abbrev Registry (ν : Type) : Type := Option (HashTable Key ν)

namespace Registry

variable {ν : Type}

/-- `yaf_registry_instance` -/
def yafRegistryInstance (instance' : Registry ν) : HashTable Key ν :=
  match instance' with
  | none => arrayInit Key ν
  | some entrys => entrys

/-- A call; none is the fatal error of a table that cannot grow. -/
def apply (instance' : Registry ν) :
    RegistryCall ν → Except Unit (RegistryAnswer ν × Registry ν)
  | .get name =>
    let entrys := yafRegistryInstance instance'
    match entrys.zendHashFind hashKey (.name name) with
    | some v => .ok (.value v, some entrys)
    | none => .ok (.null, some entrys)
  | .set name value =>
    let entrys := yafRegistryInstance instance'
    match entrys.zendHashUpdate hashKey (.name name) value with
    | some entrys => .ok (.bool true, some entrys)
    | none => .error ()
  | .has name =>
    let entrys := yafRegistryInstance instance'
    .ok (.bool (entrys.zendHashExists hashKey (.name name)), some entrys)
  | .del name =>
    let entrys := yafRegistryInstance instance'
    match entrys.zendHashDel hashKey (.name name) with
    | some entrys => .ok (.bool true, some entrys)
    | none => .ok (.bool true, some entrys)

/-- What a call makes of the value under a name. -/
def effect (name : Bytes) (held : Option ν) : RegistryCall ν → Option ν
  | .set n v => if n = name then some v else held
  | .del n => if n = name then none else held
  | _ => held

/-- What a history of calls leaves under a name. -/
def lastWrite (name : Bytes) (history : List (RegistryCall ν)) : Option ν :=
  history.foldl (effect name) none

/-- The entries are those of an ordered table, with this value under the name. -/
def Holds (name : Bytes) (instance' : Registry ν) (held : Option ν) : Prop :=
  ∃ c, Session.Holds (yafRegistryInstance instance') c ∧ c.find? (.name name) = held

theorem apply_holds {name : Bytes} (instance' : Registry ν) (held : Option ν)
    (call : RegistryCall ν) (a : RegistryAnswer ν) (after : Registry ν)
    (h : Holds name instance' held) (hs : apply instance' call = .ok (a, after)) :
    Holds name after (effect name held call) := by
  obtain ⟨c, hr, rfl⟩ := h
  cases call with
  | get n =>
    rw [apply] at hs
    cases hf : (yafRegistryInstance instance').zendHashFind hashKey (.name n) with
    | none =>
      simp only [hf] at hs
      obtain ⟨-, rfl⟩ := Prod.mk.inj (Except.ok.inj hs)
      exact ⟨c, hr, rfl⟩
    | some v =>
      simp only [hf] at hs
      obtain ⟨-, rfl⟩ := Prod.mk.inj (Except.ok.inj hs)
      exact ⟨c, hr, rfl⟩
  | has n =>
    obtain ⟨-, rfl⟩ := Prod.mk.inj (Except.ok.inj hs)
    exact ⟨c, hr, rfl⟩
  | set n v =>
    rw [apply] at hs
    cases hu : (yafRegistryInstance instance').zendHashUpdate hashKey (.name n) v with
    | none =>
      simp only [hu] at hs
      cases hs
    | some entrys =>
      simp only [hu] at hs
      obtain ⟨-, rfl⟩ := Prod.mk.inj (Except.ok.inj hs)
      obtain ⟨hplain, hupdated⟩ := hr.of_update (hr.inPlace.byChain n) hu
      refine ⟨c.update (.name n) v, ⟨hupdated, Session.inPlace_of_plain hplain⟩, ?_⟩
      rw [Cursor.find?, Cursor.entries_update, Table.find?_update, effect]
      simp [Cursor.find?, eq_comm]
  | del n =>
    rw [apply] at hs
    rcases hr.del (hr.inPlace.byChain n) with ⟨hn, hk⟩ | ⟨entrys, he, hplain, -, hr'⟩
    · simp only [hn] at hs
      obtain ⟨-, rfl⟩ := Prod.mk.inj (Except.ok.inj hs)
      refine ⟨c, hr, ?_⟩
      rw [effect]
      split
      · rename_i hname
        rw [← hname]
        exact Table.find?_eq_none.mpr hk
      · rfl
    · simp only [he] at hs
      obtain ⟨-, rfl⟩ := Prod.mk.inj (Except.ok.inj hs)
      refine ⟨c.erase (.name n), ⟨hr', Session.inPlace_of_plain hplain⟩, ?_⟩
      rw [effect, Cursor.find?, Cursor.entries_erase]
      split
      · rename_i hname
        rw [hname]
        exact Table.find?_erase_self c.nodup (.name name)
      · rename_i hname
        apply Table.find?_erase_other
        intro he
        injection he with he
        exact hname he.symm

theorem holds_fresh (name : Bytes) : Holds name (none : Registry ν) none :=
  ⟨Cursor.empty, Session.holds_arrayInit, rfl⟩

/-- After any program, the registry has under a name what the program last wrote there, whatever
else it did; a name never written, or deleted since, has nothing. -/
theorem get_last_write {β : Type} {p : Client (RegistryCall ν) (RegistryAnswer ν) β} {b : β}
    {after : Registry ν} (name : Bytes) (hrun : p.run apply none = .ok (b, after)) :
    ∃ after', apply after (.get name) =
      .ok (((lastWrite name ((p.calls apply none).map Prod.fst)).map .value).getD .null,
        after') := by
  have hh : Holds name after (lastWrite name ((p.calls apply none).map Prod.fst)) :=
    Client.run_fold apply_holds (holds_fresh name) hrun
  obtain ⟨c, hr, hf⟩ := hh
  rw [apply, Session.find_eq hr]
  refine ⟨some (yafRegistryInstance after), ?_⟩
  rw [hf]
  cases lastWrite name ((p.calls apply none).map Prod.fst) <;> rfl

/-- A program that stores two things under one name, and drops another. -/
def sampleProgram : Client (RegistryCall Nat) (RegistryAnswer Nat) (RegistryAnswer Nat) :=
  .call (.set (lit "config") 1) fun _ =>
    .call (.set (lit "db") 2) fun _ =>
      .call (.set (lit "config") 3) fun _ => .call (.del (lit "db")) .done

theorem get_last_config :
    ∃ after after', sampleProgram.run apply none = .ok (.bool true, after) ∧
      apply after (.get (lit "config")) = .ok (.value 3, after') := by
  obtain ⟨after', h⟩ := get_last_write (p := sampleProgram) (lit "config") rfl
  exact ⟨_, after', rfl, h⟩

end Registry
end Yaf
