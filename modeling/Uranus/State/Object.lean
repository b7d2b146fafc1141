import Uranus.Utils.Types

/-!
# Accounts and state objects

An account of the state trie, {lit}`Account`, holds five big integers: the
balance and the four fields the DPoS transactions keep (locked and unlocked
balance, delegation and undelegation times).  A Go {lit}`*big.Int` may be the nil
pointer, so each is an {lean}`Option Int` here, and reading through a nil one is a
panic.  {lit}`newObject` wraps an account into the live {lit}`stateObject` the
state works on, replacing a nil balance, locked balance and delegation time by
zero, but not a nil unlocked balance or undelegation time.

The storage trie of an object is the map it stands for, read through the
database at the account's storage root; the database also gives contract code by
hash and carries the Keccak-256 sum, a parameter of the model.

Main results:

- Definition {lit}`newObject`: the defaults of a fresh state object.
- Definitions {lit}`StateObject.GetState` and {lit}`StateObject.Code`: the two reads
  that fill an object's caches.
- Theorems {lit}`getBig_setBig_self` and {lit}`getBig_setBig_of_ne`: the five
  big-integer fields are independent.
-/

namespace Uranus
namespace State

/-- What the state reads from {lit}`state.Database`: the Keccak-256 sum, contract code
by code hash ({lean}`none` when the database has none), and the storage map a
storage trie at a root stands for, zero where the trie has no entry. -/
structure Database where
  keccak : Bytes → Hash
  ContractCode : Hash → Option Bytes
  storageAt : Hash → Hash → Hash

namespace Database

variable (db : Database)

/-- {lit}`emptyCodeHash`, the Keccak-256 sum of no bytes. -/
def emptyCodeHash : Bytes := (db.keccak []).bytes

/-- {lit}`OpenStorageTrie`: the zero hash opens the empty trie. -/
def OpenStorageTrie (root : Hash) : Hash → Hash :=
  if root = Hash.zero then fun _ => Hash.zero else db.storageAt root

end Database

/-- {lit}`Account`, the consensus form of an account; {lean}`none` is a nil pointer or
slice. -/
structure Account where
  unLockedBalance : Option Int
  unDelegateTimestamp : Option Int
  lockedBalance : Option Int
  delegateTimestamp : Option Int
  nonce : UInt64
  balance : Option Int
  root : Hash
  codeHash : Option Bytes
deriving DecidableEq

/-- The Go literal {lit}`Account{}`: every pointer and slice nil. -/
def Account.zero : Account := ⟨none, none, none, none, 0, none, Hash.zero, none⟩

/-- The five big-integer fields of an account, which the state journals alike. -/
inductive BigField where
  | unLockedBalance
  | unDelegateTimestamp
  | lockedBalance
  | delegateTimestamp
  | balance
deriving DecidableEq

namespace Account

/-- Read a big-integer field. -/
def getBig (a : Account) : BigField → Option Int
  | .unLockedBalance => a.unLockedBalance
  | .unDelegateTimestamp => a.unDelegateTimestamp
  | .lockedBalance => a.lockedBalance
  | .delegateTimestamp => a.delegateTimestamp
  | .balance => a.balance

/-- Write a big-integer field. -/
def setBig (a : Account) : BigField → Option Int → Account
  | .unLockedBalance, x => { a with unLockedBalance := x }
  | .unDelegateTimestamp, x => { a with unDelegateTimestamp := x }
  | .lockedBalance, x => { a with lockedBalance := x }
  | .delegateTimestamp, x => { a with delegateTimestamp := x }
  | .balance, x => { a with balance := x }

/-- A field reads back what was written to it. -/
@[simp]
theorem getBig_setBig_self (a : Account) (f : BigField) (x : Option Int) :
    (a.setBig f x).getBig f = x := by
  cases f <;> rfl

/-- Writing one field leaves the others. -/
@[simp]
theorem getBig_setBig_of_ne (a : Account) {f g : BigField} (h : g ≠ f) (x : Option Int) :
    (a.setBig f x).getBig g = a.getBig g := by
  cases f <;> cases g <;> first | rfl | exact absurd rfl h

/-- Writing a big-integer field keeps the nonce. -/
@[simp]
theorem nonce_setBig (a : Account) (f : BigField) (x : Option Int) :
    (a.setBig f x).nonce = a.nonce := by
  cases f <;> rfl

/-- Writing a big-integer field keeps the code hash. -/
@[simp]
theorem codeHash_setBig (a : Account) (f : BigField) (x : Option Int) :
    (a.setBig f x).codeHash = a.codeHash := by
  cases f <;> rfl

/-- Writing a big-integer field keeps the storage root. -/
@[simp]
theorem root_setBig (a : Account) (f : BigField) (x : Option Int) :
    (a.setBig f x).root = a.root := by
  cases f <;> rfl

end Account

/-- {lit}`stateObject`, a live account.  {lit}`storage` is the map of its storage
trie; the address hash, the storage trie handle and the memoised database error
are left out. -/
structure StateObject where
  address : Address
  data : Account
  storage : Hash → Hash
  code : Option Bytes
  cachedStorage : Hash → Option Hash
  dirtyStorage : Hash → Option Hash
  dirtyCode : Bool
  suicided : Bool
  deleted : Bool

/-- {lit}`new(big.Int)` in place of a nil pointer. -/
def orNew : Option Int → Option Int
  | none => some 0
  | some x => some x

/-- {lit}`newObject`: a nil balance, locked balance, delegation time and code hash get
their zero values; the unlocked balance and the undelegation time are kept as
they are. -/
def newObject (db : Database) (address : Address) (data : Account) : StateObject where
  address := address
  data := { data with
    lockedBalance := orNew data.lockedBalance
    delegateTimestamp := orNew data.delegateTimestamp
    balance := orNew data.balance
    codeHash := some (data.codeHash.getD db.emptyCodeHash) }
  storage := db.OpenStorageTrie data.root
  code := none
  cachedStorage := fun _ => none
  dirtyStorage := fun _ => none
  dirtyCode := false
  suicided := false
  deleted := false

namespace StateObject

variable (db : Database)

/-! ## Writes without a journal entry -/

/-- The unjournaled setter of a big-integer field, {lit}`setBalance` and its four
siblings. -/
def setBig (s : StateObject) (f : BigField) (x : Option Int) : StateObject :=
  { s with data := s.data.setBig f x }

def setBalance (s : StateObject) (amount : Option Int) : StateObject := s.setBig .balance amount

def setLockedBalance (s : StateObject) (amount : Option Int) : StateObject :=
  s.setBig .lockedBalance amount

def setUnLockedBalance (s : StateObject) (amount : Option Int) : StateObject :=
  s.setBig .unLockedBalance amount

def setDelegateTimestamp (s : StateObject) (timestamp : Option Int) : StateObject :=
  s.setBig .delegateTimestamp timestamp

def setUnDelegateTimestamp (s : StateObject) (timestamp : Option Int) : StateObject :=
  s.setBig .unDelegateTimestamp timestamp

def setNonce (s : StateObject) (nonce : UInt64) : StateObject :=
  { s with data := { s.data with nonce := nonce } }

def setCode (s : StateObject) (codeHash : Hash) (code : Option Bytes) : StateObject :=
  { s with code := code, data := { s.data with codeHash := some codeHash.bytes }, dirtyCode := true }

def setState (s : StateObject) (key value : Hash) : StateObject :=
  { s with cachedStorage := Function.update s.cachedStorage key (some value)
           dirtyStorage := Function.update s.dirtyStorage key (some value) }

def markSuicided (s : StateObject) : StateObject := { s with suicided := true }

/-! ## Reads -/

/-- {lit}`empty`: no nonce, no balance and no code; reading a nil balance panics. -/
def empty (s : StateObject) : Option Bool := do
  let b ← s.data.balance
  pure (s.data.nonce == 0 && b == 0 && s.data.codeHash.getD [] == db.emptyCodeHash)

/-- {lit}`GetState`: the cached value, or the storage trie's, which is then cached. -/
def GetState (s : StateObject) (key : Hash) : Hash × StateObject :=
  match s.cachedStorage key with
  | some value => (value, s)
  | none =>
    let value := s.storage key
    (value, { s with cachedStorage := Function.update s.cachedStorage key (some value) })

/-- {lit}`Code`: the loaded code, nothing for the empty code hash, or the database's
code for the hash, which is then kept. -/
def Code (s : StateObject) : Option Bytes × StateObject :=
  match s.code with
  | some c => (some c, s)
  | none =>
    if s.data.codeHash.getD [] = db.emptyCodeHash then (none, s)
    else
      let code := db.ContractCode (BytesToHash (s.data.codeHash.getD []))
      (code, { s with code := code })

/-! ## Field lemmas -/

/-- An object's field write is a write of its account. -/
@[simp]
theorem data_setBig (s : StateObject) (f : BigField) (x : Option Int) :
    (s.setBig f x).data = s.data.setBig f x := rfl

/-- A field write keeps the object's address. -/
@[simp]
theorem address_setBig (s : StateObject) (f : BigField) (x : Option Int) :
    (s.setBig f x).address = s.address := rfl

/-- A field write keeps the deleted flag. -/
@[simp]
theorem deleted_setBig (s : StateObject) (f : BigField) (x : Option Int) :
    (s.setBig f x).deleted = s.deleted := rfl

/-- {lit}`setNonce` keeps the object's address. -/
@[simp]
theorem address_setNonce (s : StateObject) (n : UInt64) : (s.setNonce n).address = s.address :=
  rfl

/-- {lit}`GetState` keeps the object's address. -/
@[simp]
theorem address_GetState (s : StateObject) (key : Hash) :
    (s.GetState key).2.address = s.address := by
  unfold GetState
  split <;> rfl

/-- {lit}`Code` keeps the object's address. -/
@[simp]
theorem address_Code (s : StateObject) : (s.Code db).2.address = s.address := by
  unfold Code
  split
  · rfl
  · split <;> rfl

end StateObject

/-- {lit}`newObject` makes an object at the address given. -/
@[simp]
theorem address_newObject (db : Database) (address : Address) (data : Account) :
    (newObject db address data).address = address := rfl

/-- {lit}`newObject` makes a live object. -/
@[simp]
theorem deleted_newObject (db : Database) (address : Address) (data : Account) :
    (newObject db address data).deleted = false := rfl

end State
end Uranus
