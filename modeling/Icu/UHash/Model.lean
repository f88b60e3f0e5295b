import Icu.ErrorCode
import Mathlib.Data.Nat.Log
import Icu.Lib.OpenAddressing
import Icu.Lib.PrimeCertificate
import Mathlib.Tactic.NormNum.Prime

/-! # `UHashtable`

The table of `uhash.c`: all elements are in one array, and a double hash resolves collisions. A
function that crashes, or whose behaviour is undefined, returns `none`. Deleters are not set.
-/

namespace Icu.UHash

/-- Non-consecutive primes with `PRIMES[i+1] ~ 2*PRIMES[i]`. -/
def primes : List Nat := [
    13, 31, 61, 127, 251, 509, 1021, 2039, 4093, 8191, 16381, 32749,
    65521, 131071, 262139, 524287, 1048573, 2097143, 4194301, 8388593,
    16777213, 33554393, 67108859, 134217689, 268435399, 536870909,
    1073741789, 2147483647]

def defaultPrimeIndex : Nat := 3

def hashDeleted : Int := -0x80000000
def hashEmpty : Int := hashDeleted + 1

/-- `IS_EMPTY_OR_DELETED(x)` -/
def isEmptyOrDeleted (x : Int) : Bool := x < 0

inductive UHashResizePolicy
  | grow
  | growAndShrink
  | fixed
  deriving DecidableEq, Repr

/-- A natural number as a `float`: 24 bits, ties to even. -/
def toFloat (n : Nat) : Nat :=
  if n < 2 ^ 24 then n
  else
    let k := n.log2 - 23
    let q := n / 2 ^ k
    let r := n % 2 ^ k
    (if 2 * r > 2 ^ k ∨ 2 * r = 2 ^ k ∧ q % 2 = 1 then q + 1 else q) * 2 ^ k

/-- `RESIZE_POLICY_RATIO_TABLE`, in units of `2^-27`: `0.1F` is `13421773 * 2^-27`. -/
def lowWaterRatioOf : UHashResizePolicy → Nat
  | .grow => 0
  | .growAndShrink => 13421773
  | .fixed => 0

def highWaterRatioOf : UHashResizePolicy → Nat
  | .grow => 2 ^ 26
  | .growAndShrink => 2 ^ 26
  | .fixed => 2 ^ 27

/-- `(int32_t)(length * ratio)` in `float` arithmetic. -/
def waterMark (length ratio : Nat) : Nat := toFloat (toFloat length * ratio) / 2 ^ 27

/-! ## The table -/

structure UHashElement (T : Type) where
  hashcode : Int
  value : T
  key : T
  deriving DecidableEq, Repr

structure UHashtable (T : Type) where
  elements : List (UHashElement T)
  count : Nat
  length : Nat
  highWaterMark : Nat
  lowWaterMark : Nat
  highWaterRatio : Nat
  lowWaterRatio : Nat
  primeIndex : Nat
  deriving DecidableEq, Repr

/-- The functions of the user, on tokens. The empty token is `NULL` and 0. -/
structure KeyFunctions (T : Type) where
  emptytok : T
  keyHasher : T → Int
  keyComparator : T → T → Bool

/-- `hashcode &= 0x7FFFFFFF; /* must be positive */` -/
def masked (hashcode : Int) : Nat := (hashcode % 0x80000000).toNat

variable {T : Type}

def emptyElement (f : KeyFunctions T) : UHashElement T := ⟨hashEmpty, f.emptytok, f.emptytok⟩

namespace UHashtable

variable (f : KeyFunctions T) (hash : UHashtable T)

/-- `elements[i]` -/
def element (i : Nat) : UHashElement T := hash.elements.getD i (emptyElement f)

/-- The loop of `_uhash_find` from `theIndex`. -/
def findLoop (key : T) (hashcode startIndex : Nat) : Nat → Nat → Option Nat → Option Nat
  | 0, _, _ => none
  | fuel + 1, theIndex, firstDeleted =>
    let tableHash := (hash.element f theIndex).hashcode
    let next := fun firstDeleted : Option Nat =>
      let jump := hashcode % (hash.length - 1) + 1
      if theIndex + jump ≥ 0x80000000 then none -- the sum of two int32_t overflows
      else if (theIndex + jump) % hash.length = startIndex then
        firstDeleted -- or NULL if the table is full
      else findLoop key hashcode startIndex fuel ((theIndex + jump) % hash.length) firstDeleted
    if tableHash = hashcode then
      if f.keyComparator key (hash.element f theIndex).key then some theIndex
      else next firstDeleted
    else if !isEmptyOrDeleted tableHash then next firstDeleted
    else if tableHash = hashEmpty then some (firstDeleted.getD theIndex)
    else next (some (firstDeleted.getD theIndex))

/-- `_uhash_find(hash, key, hashcode)`: the index of the element, or `NULL`. -/
def findElement (key : T) (hashcode : Int) : Option Nat :=
  let startIndex := (masked hashcode ^^^ 0x4000000) % hash.length
  hash.findLoop f key (masked hashcode) startIndex hash.length startIndex none

/-- `_uhash_internalSetResizePolicy(hash, policy)` -/
def internalSetResizePolicy (policy : UHashResizePolicy) : UHashtable T :=
  { hash with
    lowWaterRatio := lowWaterRatioOf policy
    highWaterRatio := highWaterRatioOf policy }

/-- `_uhash_allocate(hash, primeIndex, status)` -/
def allocate (primeIndex : Nat) (allocates : Bool) : UHashtable T × UErrorCode :=
  let length := primes.getD primeIndex 0
  let hash := { hash with primeIndex, length }
  if !allocates then ({ hash with elements := [] }, .memoryAllocationError)
  else
    ({ hash with
        elements := List.replicate length (emptyElement f)
        count := 0
        lowWaterMark := waterMark length hash.lowWaterRatio
        highWaterMark := waterMark length hash.highWaterRatio }, .zeroError)

/-- `_uhash_setElement(hash, e, hashcode, key, value, hint)`: the old value is returned. -/
def setElement (i : Nat) (hashcode : Int) (key value : T) : UHashtable T × T :=
  ({ hash with elements := hash.elements.set i ⟨hashcode, value, key⟩ }, (hash.element f i).value)

/-- One element of the old array in `_uhash_rehash`. -/
def rehashElement (old : UHashElement T) : Option (UHashtable T) :=
  if isEmptyOrDeleted old.hashcode then some hash
  else
    match hash.findElement f old.key old.hashcode with
    | none => none
    | some i => some { hash with elements := hash.elements.set i old, count := hash.count + 1 }

/-- The prime index for a table that is too full or too empty. -/
def newPrimeIndex : Option Nat :=
  if hash.count > hash.highWaterMark then
    if hash.primeIndex + 1 ≥ primes.length then none else some (hash.primeIndex + 1)
  else if hash.count < hash.lowWaterMark then
    if hash.primeIndex = 0 then none else some (hash.primeIndex - 1)
  else none

/-- `_uhash_rehash(hash, status)` -/
def rehash (allocates : Bool) : Option (UHashtable T × UErrorCode) :=
  match hash.newPrimeIndex with
  | none => some (hash, .zeroError)
  | some newPrimeIndex =>
    let new := hash.allocate f newPrimeIndex allocates
    if !new.2.isSuccess then
      some ({ new.1 with elements := hash.elements, length := hash.length }, new.2)
    else
      (hash.elements.reverse.foldlM (rehashElement f) new.1).map fun new => (new, .zeroError)

/-- `_uhash_internalRemoveElement(hash, e)` -/
def internalRemoveElement (i : Nat) : UHashtable T × T :=
  { hash with count := hash.count - 1 }.setElement f i hashDeleted f.emptytok f.emptytok

/-- `_uhash_remove(hash, key)` -/
def remove (key : T) (allocates : Bool) : Option (UHashtable T × T) :=
  match hash.findElement f key (f.keyHasher key) with
  | none => none
  | some i =>
    if isEmptyOrDeleted (hash.element f i).hashcode then some (hash, f.emptytok)
    else
      let r := hash.internalRemoveElement f i
      if r.1.count < r.1.lowWaterMark then (r.1.rehash f allocates).map fun new => (new.1, r.2)
      else some r

/-- The second half of `_uhash_put`, behind the rehash. -/
def putElement (key value : T) : Option (UHashtable T × T × UErrorCode) :=
  let hashcode := f.keyHasher key
  match hash.findElement f key hashcode with
  | none => none
  | some i =>
    if isEmptyOrDeleted (hash.element f i).hashcode then
      if hash.count + 1 = hash.length then
        some (hash, f.emptytok, .memoryAllocationError) -- don't allow count to reach length
      else
        let r := { hash with count := hash.count + 1 }.setElement f i (masked hashcode) key value
        some (r.1, r.2, .zeroError)
    else
      let r := hash.setElement f i (masked hashcode) key value
      some (r.1, r.2, .zeroError)

/-- `_uhash_put(hash, key, value, hint, status)` -/
def put [DecidableEq T] (key value : T) (hintValuePointer allocates : Bool) :
    Option (UHashtable T × T × UErrorCode) :=
  if hintValuePointer ∧ value = f.emptytok then
    -- storing NULL == removing
    (hash.remove f key allocates).map fun r => (r.1, r.2, .zeroError)
  else if hash.count > hash.highWaterMark then
    match hash.rehash f allocates with
    | none => none
    | some (hash, status) =>
      if !status.isSuccess then some (hash, f.emptytok, status) else hash.putElement f key value
  else hash.putElement f key value

/-- `uhash_setResizePolicy(hash, policy)` -/
def setResizePolicy (policy : UHashResizePolicy) (allocates : Bool) : Option (UHashtable T) :=
  let hash := hash.internalSetResizePolicy policy
  let hash := { hash with
    lowWaterMark := waterMark hash.length hash.lowWaterRatio
    highWaterMark := waterMark hash.length hash.highWaterRatio }
  (hash.rehash f allocates).map Prod.fst

/-- `uhash_get(hash, key)` and `uhash_geti(hash, key)` -/
def get (key : T) : Option T :=
  (hash.findElement f key (f.keyHasher key)).map fun i => (hash.element f i).value

/-- `uhash_find(hash, key)`: the index of the element, or `some none` for `NULL`. -/
def find (key : T) : Option (Option Nat) :=
  (hash.findElement f key (f.keyHasher key)).map fun i =>
    if isEmptyOrDeleted (hash.element f i).hashcode then none else some i

/-- The loop of `uhash_nextElement` from `i`. -/
def nextLoop : Nat → Nat → Option Nat
  | 0, _ => none
  | fuel + 1, i =>
    if !isEmptyOrDeleted (hash.element f i).hashcode then some i else nextLoop fuel (i + 1)

/-- `uhash_nextElement(hash, &pos)`: the index that is returned and set as `pos`. -/
def nextElement (pos : Int) : Option Nat :=
  hash.nextLoop f (hash.length - (pos + 1).toNat) (pos + 1).toNat

/-- `uhash_removeElement(hash, e)` -/
def removeElement (i : Nat) : UHashtable T × T :=
  if !isEmptyOrDeleted (hash.element f i).hashcode then hash.internalRemoveElement f i
  else (hash, f.emptytok)

/-- The loop of `uhash_removeAll`. -/
def removeAllLoop : Nat → UHashtable T → Int → UHashtable T
  | 0, hash, _ => hash
  | fuel + 1, hash, pos =>
    match hash.nextElement f pos with
    | none => hash
    | some i => removeAllLoop fuel (hash.removeElement f i).1 i

/-- `uhash_removeAll(hash)` -/
def removeAll : UHashtable T :=
  if hash.count ≠ 0 then removeAllLoop f (hash.length + 1) hash (-1) else hash

end UHashtable

/-- `_uhash_init` with memory: `U_GROW` and an empty array. -/
def init (f : KeyFunctions T) (primeIndex : Nat) : UHashtable T :=
  let hash : UHashtable T := ⟨[], 0, 0, 0, 0, 0, 0, 0⟩
  ((hash.internalSetResizePolicy .grow).allocate f primeIndex true).1

/-- The smallest index of a prime that is not below the size. -/
def primeIndexOf (size : Nat) : Nat := (primes.dropLast.findIdx fun p => size ≤ p)

/-- `uhash_openSize(…, size, status)` -/
def uhashOpenSize (f : KeyFunctions T) (size : Nat) : UHashtable T := init f (primeIndexOf size)

/-- `uhash_open(…, status)` -/
def uhashOpen (f : KeyFunctions T) : UHashtable T := init f defaultPrimeIndex

end Icu.UHash
