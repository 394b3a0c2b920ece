import Yaf.Base.Client
import Yaf.Php.Bytes
import Yaf.Php.HashErase

namespace Yaf
open Base HashTable

/-- `zend_inline_hash_func`, whose bytes are signed. -/
def zendInlineHashFunc (s : Bytes) : Nat :=
  s.foldl
    (fun hash c => (hash * 33 + if c < 128 then c.toNat else c.toNat + (2 ^ 64 - 256)) % 2 ^ 64)
    5381 ||| 0x8000000000000000

/-- `p->h`: an integer key is its own hash. -/
def hashKey : Key → Nat
  | .index i => (i % 2 ^ 64).toNat
  | .name s => zendInlineHashFunc s

/-- The methods of `Yaf_Session` that work on the array of the session, and the reading of the array
that `get` without a name hands out: it is the one the other methods write. -/
inductive SessionCall (ν : Type) where
  | get (name : Option Bytes)
  | set (name : Bytes) (value : ν)
  | has (name : Bytes)
  | del (name : Bytes)
  | count
  | clear
  | rewind
  | current
  | key
  | next
  | valid
  | readHandedOut
  deriving DecidableEq, Repr

inductive SessionAnswer (ν : Type) where
  | null
  | bool (b : Bool)
  | long (n : Nat)
  | key (k : Key)
  | value (v : ν)
  | session
  | entries (table : Table Key ν)
  | self
  deriving DecidableEq, Repr

/-- How a call can fail: the table cannot grow, or `key` returns a string it never set. -/
inductive SessionFault where
  | overflow
  | unsetKey
  deriving DecidableEq, Repr

abbrev SessionProgram (ν β : Type) : Type := Client (SessionCall ν) (SessionAnswer ν) β

namespace Session

variable {ν : Type}

/-- `zend_hash_index_find` -/
def zendHashIndexFind (ht : HashTable Key ν) (i : Int) : Option ν :=
  if ht.packed then (ht.arData[hashKey (.index i)]?).bind Bucket.val
  else ht.zendHashFind hashKey (.index i)

/-- A call on the array the session object refers to. -/
def apply (sess : HashTable Key ν) :
    SessionCall ν → Except SessionFault (SessionAnswer ν × HashTable Key ν)
  | .get none => .ok (.session, sess)
  | .get (some name) =>
    match sess.zendHashFind hashKey (.name name) with
    | none => .ok (.null, sess)
    | some v => .ok (.value v, sess)
  | .set name value =>
    match sess.zendHashUpdate hashKey (.name name) value with
    | none => .error .overflow
    | some sess' => .ok (.self, sess')
  | .has name => .ok (.bool (sess.zendHashExists hashKey (.name name)), sess)
  | .del name =>
    match sess.zendHashDel hashKey (.name name) with
    | some sess' => .ok (.self, sess')
    | none => .ok (.bool false, sess)
  | .count => .ok (.long sess.nNumOfElements, sess)
  | .clear => .ok (.null, sess.zendHashClean)
  | .rewind => .ok (.null, sess.zendHashInternalPointerReset)
  | .current =>
    match sess.zendHashGetCurrentData with
    | none => .ok (.bool false, sess)
    | some v => .ok (.value v, sess)
  | .key =>
    match sess.zendHashGetCurrentKey with
    | none => .error .unsetKey
    | some k => .ok (.key k, sess)
  | .next => .ok (.null, sess.zendHashMoveForward)
  | .valid => .ok (.bool sess.zendHashHasMoreElements, sess)
  | .readHandedOut => .ok (.entries (entries sess.arData), sess)

/-- What the calls are for: a table in the order of its first writes, and a place in it. -/
def spec (c : Cursor Key ν) : SessionCall ν → Except SessionFault (SessionAnswer ν × Cursor Key ν)
  | .get none => .ok (.session, c)
  | .get (some name) =>
    match c.find? (.name name) with
    | none => .ok (.null, c)
    | some v => .ok (.value v, c)
  | .set name value => .ok (.self, c.update (.name name) value)
  | .has name => .ok (.bool (c.find? (.name name)).isSome, c)
  | .del name =>
    if (c.find? (.name name)).isSome then .ok (.self, c.erase (.name name))
    else .ok (.bool false, c)
  | .count => .ok (.long c.entries.length, c)
  | .clear => .ok (.null, Cursor.empty)
  | .rewind => .ok (.null, c.rewind)
  | .current =>
    match c.current? with
    | none => .ok (.bool false, c)
    | some p => .ok (.value p.2, c)
  | .key =>
    match c.current? with
    | none => .error .unsetKey
    | some p => .ok (.key p.1, c)
  | .next => .ok (.null, c.advance)
  | .valid => .ok (.bool c.current?.isSome, c)
  | .readHandedOut => .ok (.entries c.entries, c)

/-- The only call that can give up, and when. -/
def GivesUp (e : SessionFault) : SessionCall ν → Cursor Key ν → Prop
  | .set _ _, c => e = .overflow ∧ 2 ^ 30 ≤ c.entries.length
  | _, _ => False

/-- A packed table has integer keys alone, and each is the number of its bucket. -/
def InPlace (sess : HashTable Key ν) : Prop :=
  sess.packed = true → ∀ (i : Nat) p, sess.arData[i]? = some p → isLive p = true → p.key = .index i

/-- The array of a session holds the entries of the cursor, whether it is packed or not. -/
structure Holds (sess : HashTable Key ν) (c : Cursor Key ν) : Prop
    extends Represents hashKey sess c where
  inPlace : InPlace sess

variable {sess : HashTable Key ν} {c : Cursor Key ν}

theorem inPlace_of_plain (plain : sess.packed = false) : InPlace sess := by
  intro hpacked
  rw [plain] at hpacked
  cases hpacked

/-- No name is a key of a packed table. -/
theorem InPlace.byChain (h : InPlace sess) (name : Bytes) : ByChain sess (.name name) := by
  intro hpacked hk
  obtain ⟨i, p, hi, hp, hkey⟩ := exists_bucket hk
  have hindex : p.key = .index i := h hpacked i p hi hp
  rw [hkey] at hindex
  cases hindex

theorem inPlace_clean (sess : HashTable Key ν) : InPlace sess.zendHashClean := by
  intro _ i p hi _
  cases hi

theorem inPlace_moveForward (h : InPlace sess) : InPlace sess.zendHashMoveForward := by
  unfold zendHashMoveForward
  split
  · exact h
  · exact h

theorem find_eq (h : Holds sess c) (name : Bytes) :
    sess.zendHashFind hashKey (.name name) = c.find? (.name name) := by
  rw [h.wf.find_eq (h.inPlace.byChain name), h.entries_eq, Cursor.find?]

/-- An integer key is found by its chain, or in its own bucket of a packed table. -/
theorem indexFind_eq (h : Holds sess c) {i : Int} (low : -2 ^ 63 ≤ i) (high : i < 2 ^ 63) :
    zendHashIndexFind sess i = c.find? (.index i) := by
  unfold zendHashIndexFind
  cases hpacked : sess.packed with
  | false =>
    rw [if_neg (by simp), h.wf.find_eq (byChain_of_plain hpacked _), h.entries_eq, Cursor.find?]
  | true =>
    have hroom := Nat.le_trans h.wf.room h.wf.size_le
    rw [if_pos rfl, Cursor.find?, ← h.entries_eq]
    by_cases hk : .index i ∈ (entries sess.arData).keys
    · obtain ⟨n, p, hn, hp, hkey⟩ := exists_bucket hk
      obtain ⟨v, hv⟩ := Option.isSome_iff_exists.mp hp
      have hi : Key.index i = .index n := hkey.symm.trans (h.inPlace hpacked n p hn hp)
      obtain rfl := Key.index.inj hi
      have hlt := (List.getElem?_eq_some_iff.mp hn).1
      have hbucket : hashKey (.index (n : Int)) = n := by
        change ((n : Int) % 2 ^ 64).toNat = n
        omega
      rw [hbucket, hn, Option.bind_some, hv, ← hkey, find?_entries_of_live h.wf.nodup hn hv]
    · rw [Table.find?_eq_none.mpr hk]
      cases hn : sess.arData[hashKey (.index i)]? with
      | none => rfl
      | some p =>
        rw [Option.bind_some]
        by_contra hlive
        have hp : isLive p = true := Option.isSome_iff_ne_none.mpr hlive
        obtain ⟨v, hv⟩ := Option.isSome_iff_exists.mp hp
        have hlt : (i % 2 ^ 64).toNat < sess.arData.length := (List.getElem?_eq_some_iff.mp hn).1
        have hkey : p.key = .index (hashKey (.index i)) := h.inPlace hpacked _ p hn hp
        have hi : ((hashKey (.index i) : Nat) : Int) = i := by
          change (((i % 2 ^ 64).toNat : Nat) : Int) = i
          omega
        rw [hi] at hkey
        have hfound := find?_entries_of_live h.wf.nodup hn hv
        rw [hkey] at hfound
        exact hk (Table.mem_keys_of_find? hfound)

theorem holds_arrayInit : Holds (arrayInit Key ν) Cursor.empty where
  toRepresents := represents_arrayInit hashKey
  inPlace := inPlace_of_plain rfl

/-- One call answers as the specification does. -/
theorem apply_agree (h : Holds sess c) (call : SessionCall ν) :
    Client.Agree Holds (apply sess call) (spec c call) ∨
      ∃ e, apply sess call = .error e ∧ GivesUp e call c := by
  cases call with
  | get name =>
    left
    cases name with
    | none => exact .ok _ _ _ h
    | some name =>
      rw [apply, spec, find_eq h]
      cases c.find? (.name name) <;> exact .ok _ _ _ h
  | set name value =>
    rw [apply, spec]
    rcases h.update (h.inPlace.byChain name) value with ⟨hn, hbig⟩ | ⟨sess', hs, hplain, hr⟩
    · right
      rw [hn]
      exact ⟨_, rfl, rfl, hbig⟩
    · left
      rw [hs]
      exact .ok _ _ _ ⟨hr, inPlace_of_plain hplain⟩
  | has name =>
    left
    rw [apply, spec, h.wf.exists_eq (h.inPlace.byChain name), h.entries_eq]
    exact .ok _ _ _ h
  | del name =>
    left
    rw [apply, spec]
    rcases h.del (h.inPlace.byChain name) with ⟨hn, hk⟩ | ⟨sess', hs, hplain, hk, hr⟩
    · have hf : c.find? (.name name) = none := Table.find?_eq_none.mpr hk
      rw [hn, hf]
      exact .ok _ _ _ h
    · have hf : (c.find? (.name name)).isSome = true := by
        rw [Option.isSome_iff_ne_none]
        intro hnone
        exact Table.find?_eq_none.mp hnone hk
      rw [hs, if_pos hf]
      exact .ok _ _ _ ⟨hr, inPlace_of_plain hplain⟩
  | count =>
    left
    rw [apply, spec, h.wf.count, h.entries_eq]
    exact .ok _ _ _ h
  | clear => exact Or.inl (.ok _ _ _ ⟨h.clean, inPlace_clean sess⟩)
  | rewind => exact Or.inl (.ok _ _ _ ⟨h.rewind, h.inPlace⟩)
  | current =>
    left
    rw [apply, spec, h.currentData_eq]
    cases c.current? <;> exact .ok _ _ _ h
  | key =>
    left
    rw [apply, spec, h.currentKey_eq]
    cases c.current? with
    | none => exact .error _
    | some p => exact .ok _ _ _ h
  | next => exact Or.inl (.ok _ _ _ ⟨h.advance, inPlace_moveForward h.inPlace⟩)
  | valid =>
    left
    rw [apply, spec, h.hasMore_eq]
    exact .ok _ _ _ h
  | readHandedOut =>
    left
    rw [apply, spec, h.entries_eq]
    exact .ok _ _ _ h

end Session
end Yaf
