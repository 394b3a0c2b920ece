import Mathlib.Algebra.Ring.Nat
import Mathlib.Data.List.DropRight
import Yaf.Base.Cursor
import Yaf.Base.Links

namespace Yaf
open Base

/-- A bucket. One whose value is gone (`IS_UNDEF`) is a hole. -/
structure Bucket (κ ν : Type) where
  h : Nat
  key : κ
  val : Option ν
  next : Option Nat
  deriving DecidableEq, Repr

/-- `ZVAL_COPY_VALUE` and `ZVAL_UNDEF`: the link of the bucket stays. -/
def Bucket.setVal {κ ν : Type} (v : Option ν) (p : Bucket κ ν) : Bucket κ ν := { p with val := v }

def Bucket.setNext {κ ν : Type} (n : Option Nat) (p : Bucket κ ν) : Bucket κ ν :=
  { p with next := n }

/-- `HashTable`. `arData` holds the `nNumUsed` buckets in use, `hash` the heads of the chains, from
`HT_HASH(ht, nTableMask)` to `HT_HASH(ht, -1)`. Where it is `packed` (`HASH_FLAG_PACKED`) there are
no chains, and an integer key is the number of its bucket. -/
structure HashTable (κ ν : Type) where
  initialized : Bool
  packed : Bool
  nTableSize : Nat
  hash : List (Option Nat)
  arData : List (Bucket κ ν)
  nNumOfElements : Nat
  nInternalPointer : Option Nat
  deriving DecidableEq, Repr

namespace HashTable

def HT_MIN_SIZE : Nat := 8
def HT_MAX_SIZE : Nat := 0x80000000

/-- Where `h | nTableMask` lies among the heads, the mask being minus their number. -/
def slot (heads h : Nat) : Nat := (h ||| (2 ^ 32 - heads)) % 2 ^ 32 - (2 ^ 32 - heads)

section Reading
variable {κ ν : Type}

def isLive (p : Bucket κ ν) : Bool := p.val.isSome

/-- `Z_NEXT` -/
def links (ar : List (Bucket κ ν)) (i : Nat) : Option Nat := (ar[i]?).bind Bucket.next

/-- The first live bucket from `i` on. -/
def liveFrom (ar : List (Bucket κ ν)) (i : Nat) : Option Nat :=
  ((ar.drop i).findIdx? isLive).map (· + i)

/-- `zend_hash_internal_pointer_reset` -/
def zendHashInternalPointerReset (ht : HashTable κ ν) : HashTable κ ν :=
  { ht with nInternalPointer := liveFrom ht.arData 0 }

/-- `zend_hash_move_forward` -/
def zendHashMoveForward (ht : HashTable κ ν) : HashTable κ ν :=
  match ht.nInternalPointer with
  | none => ht
  | some idx => { ht with nInternalPointer := liveFrom ht.arData (idx + 1) }

def bucketAt (ht : HashTable κ ν) : Option (Bucket κ ν) :=
  ht.nInternalPointer.bind fun idx => ht.arData[idx]?

/-- `zend_hash_get_current_data` -/
def zendHashGetCurrentData (ht : HashTable κ ν) : Option ν := ht.bucketAt.bind Bucket.val

/-- `zend_hash_get_current_key`; the key of a hole is still read. -/
def zendHashGetCurrentKey (ht : HashTable κ ν) : Option κ := ht.bucketAt.map Bucket.key

/-- `zend_hash_has_more_elements` -/
def zendHashHasMoreElements (ht : HashTable κ ν) : Bool := ht.nInternalPointer.isSome

/-- `zend_hash_clean` -/
def zendHashClean (ht : HashTable κ ν) : HashTable κ ν :=
  { ht with
    hash :=
      if ht.arData.isEmpty || ht.packed then ht.hash else List.replicate ht.hash.length none
    arData := []
    nNumOfElements := 0
    nInternalPointer := none }

/-- What `zend_hash_rehash` has done so far: the buckets moved together, the chains through them,
and the internal pointer. -/
structure Rehash (κ ν : Type) where
  placed : List (Bucket κ ν)
  heads : List (Option Nat)
  pointer : Option Nat

/-- A live bucket goes behind those already placed, in front of its chain. -/
def Rehash.place (r : Rehash κ ν) (i : Nat) (p : Bucket κ ν) : Rehash κ ν :=
  if isLive p then
    let n := slot r.heads.length p.h
    let j := r.placed.length
    { placed := r.placed ++ [p.setNext (r.heads[n]?).join]
      heads := r.heads.set n (some j)
      pointer := if r.pointer = some i then some j else r.pointer }
  else r

def Rehash.from (r : Rehash κ ν) : Nat → List (Bucket κ ν) → Rehash κ ν
  | _, [] => r
  | i, p :: ps => Rehash.from (r.place i p) (i + 1) ps

/-- `zend_hash_rehash` -/
def zendHashRehash (ht : HashTable κ ν) : HashTable κ ν :=
  if ht.nNumOfElements = 0 then
    if ht.initialized then
      { ht with arData := [], hash := List.replicate ht.hash.length none }
    else ht
  else
    let start : Rehash κ ν := ⟨[], List.replicate ht.hash.length none, ht.nInternalPointer⟩
    let r := start.from 0 ht.arData
    { ht with arData := r.placed, hash := r.heads, nInternalPointer := r.pointer }

/-- `zend_hash_do_resize`: holes are squeezed out if there are enough of them, else the table
doubles. It is a fatal error where it cannot. -/
def zendHashDoResize (ht : HashTable κ ν) : Option (HashTable κ ν) :=
  if ht.nNumOfElements + ht.nNumOfElements / 32 < ht.arData.length then some ht.zendHashRehash
  else if ht.nTableSize < HT_MAX_SIZE then
    some { ht with
      nTableSize := ht.nTableSize + ht.nTableSize
      hash := List.replicate (ht.nTableSize + ht.nTableSize) none }.zendHashRehash
  else none

/-- `zend_hash_packed_to_hash` -/
def zendHashPackedToHash (ht : HashTable κ ν) : HashTable κ ν :=
  { ht with packed := false, hash := List.replicate ht.nTableSize none }.zendHashRehash

/-- `zend_hash_real_init` of a table that is not to be packed. -/
def zendHashRealInit (ht : HashTable κ ν) : HashTable κ ν :=
  { ht with initialized := true, hash := List.replicate ht.nTableSize none }

/-- The end of `_zend_hash_add_or_update_i`, at `add_to_hash`. -/
def addToHash (ht : HashTable κ ν) (h : Nat) (key : κ) (v : ν) : HashTable κ ν :=
  let idx := ht.arData.length
  let n := slot ht.hash.length h
  { ht with
    arData := ht.arData ++ [⟨h, key, some v, (ht.hash[n]?).join⟩]
    hash := ht.hash.set n (some idx)
    nNumOfElements := ht.nNumOfElements + 1
    nInternalPointer := if ht.nInternalPointer = none then some idx else ht.nInternalPointer }

/-- `ZEND_HASH_IF_FULL_DO_RESIZE` and what follows it. -/
def addWithRoom (ht : HashTable κ ν) (h : Nat) (key : κ) (v : ν) : Option (HashTable κ ν) :=
  if ht.nTableSize ≤ ht.arData.length then ht.zendHashDoResize.map fun ht' => ht'.addToHash h key v
  else some (ht.addToHash h key v)

/-- The holes at the end fall out of use. -/
def dropHoles (ar : List (Bucket κ ν)) : List (Bucket κ ν) := ar.rdropWhile fun p => !isLive p

/-- The bucket before, if there is one, names the bucket after. -/
def relink (ar : List (Bucket κ ν)) (prev next : Option Nat) : List (Bucket κ ν) :=
  match prev with
  | some q => ar.modify q (Bucket.setNext next)
  | none => ar

/-- The buckets in use once the one at `idx` is off its chain. -/
def used (ar : List (Bucket κ ν)) (idx : Nat) : List (Bucket κ ν) :=
  if ar.length = idx + 1 then dropHoles ar.dropLast else ar

/-- `_zend_hash_del_el_ex` -/
def zendHashDelElEx (ht : HashTable κ ν) (idx : Nat) (prev : Option Nat) : HashTable κ ν :=
  match ht.arData[idx]? with
  | none => ht
  | some p =>
    let ar := used (relink ht.arData prev p.next) idx
    { ht with
      hash := if prev = none then ht.hash.set (slot ht.hash.length p.h) p.next else ht.hash
      arData := ar.modify idx (Bucket.setVal none)
      nNumOfElements := ht.nNumOfElements - 1
      nInternalPointer :=
        if ht.nInternalPointer = some idx then liveFrom ar (idx + 1) else ht.nInternalPointer }

end Reading

section Keyed
variable {κ ν : Type} [DecidableEq κ] (hashVal : κ → Nat)

def isBucketOf (ar : List (Bucket κ ν)) (key : κ) (i : Nat) : Bool :=
  (ar[i]?).any fun p => p.h = hashVal key && p.key = key

/-- The walk along the chain of the key, to its bucket and the one before it. -/
def walkTo (ht : HashTable κ ν) (key : κ) : Option (Nat × Option Nat) :=
  walk (links ht.arData) (isBucketOf hashVal ht.arData key) ht.arData.length none
    (ht.hash[slot ht.hash.length (hashVal key)]?).join

/-- `zend_hash_find_bucket` -/
def zendHashFindBucket (ht : HashTable κ ν) (key : κ) : Option Nat :=
  (ht.walkTo hashVal key).map Prod.fst

/-- `zend_hash_find` -/
def zendHashFind (ht : HashTable κ ν) (key : κ) : Option ν :=
  (ht.zendHashFindBucket hashVal key).bind fun idx => (ht.arData[idx]?).bind Bucket.val

/-- `zend_hash_exists` -/
def zendHashExists (ht : HashTable κ ν) (key : κ) : Bool :=
  (ht.zendHashFindBucket hashVal key).isSome

/-- `zend_hash_update`; none is the fatal error of a table that cannot grow. -/
def zendHashUpdate (ht : HashTable κ ν) (key : κ) (v : ν) : Option (HashTable κ ν) :=
  if ht.initialized then
    if ht.packed then ht.zendHashPackedToHash.addWithRoom (hashVal key) key v
    else
      match ht.zendHashFindBucket hashVal key with
      | some idx =>
        some { ht with arData := ht.arData.modify idx (Bucket.setVal (some v)) }
      | none => ht.addWithRoom (hashVal key) key v
  else some (ht.zendHashRealInit.addToHash (hashVal key) key v)

/-- `zend_hash_del`; none is FAILURE. -/
def zendHashDel (ht : HashTable κ ν) (key : κ) : Option (HashTable κ ν) :=
  (ht.walkTo hashVal key).map fun w => ht.zendHashDelElEx w.1 w.2

end Keyed

/-- `array_init`: a table with room for eight entries, its memory not yet taken. -/
def arrayInit (κ ν : Type) : HashTable κ ν where
  initialized := false
  packed := false
  nTableSize := HT_MIN_SIZE
  hash := [none, none]
  arData := []
  nNumOfElements := 0
  nInternalPointer := none

end HashTable
end Yaf
