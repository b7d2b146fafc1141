import Uranus.State.Object
import Uranus.Types.Log

/-!
# The state database and its journal

{lit}`StateDB` caches live state objects over the account trie and records every
change in a journal, so that {lit}`RevertToSnapshot` can undo the changes made since
a snapshot by running the journal backwards.  The account trie is the map it
stands for, from addresses to decoded accounts; reading it through
{lit}`getStateObject` loads an object into the live set without a journal entry.

Every function is the Go method with the state passed explicitly.  A Go panic
(a nil pointer read, a revision that cannot be reverted, a journal entry whose
account is gone) is {lean}`none`.

Main results:

- Definitions {lit}`StateDB.getStateObject`, {lit}`StateDB.createObject` and
  {lit}`StateDB.GetOrNewStateObject`: how an address gets its live object.
- Definitions of the setters, with {lit}`StateDB.setBigJournaled` for the five
  journaled big-integer setters and {lit}`StateDB.SetUnDelegateTimestamp`, which
  calls the unjournaled object setter.
- Definitions {lit}`StateDB.Snapshot` and {lit}`StateDB.RevertToSnapshot`.
- Theorem {lit}`StateDB.getStateObject_fst`: what {lit}`getStateObject` returns is
  {lit}`lookupObject`, a function of the state.
-/

namespace Uranus
namespace State

open Types

/-- {lit}`revision`: a snapshot id and the journal length it was taken at. -/
structure Revision where
  id : Nat
  journalIndex : Nat
deriving DecidableEq

/-- The change entries of {lit}`journal.go`.  The five entries of the big-integer
fields ({lit}`balanceChange`, {lit}`lockedBalanceChange`,
{lit}`unlockedBalanceChange`, {lit}`delegateTimestampChange`,
{lit}`undelegateTimestampChange`) are {lit}`bigChange` at their field. -/
inductive JournalEntry where
  | createObjectChange (account : Address)
  | resetObjectChange (prev : StateObject)
  | suicideChange (account : Address) (prev : Bool) (prevbalance : Int)
  | bigChange (field : BigField) (account : Address) (prev : Int)
  | nonceChange (account : Address) (prev : UInt64)
  | storageChange (account : Address) (key prevalue : Hash)
  | codeChange (account : Address) (prevcode prevhash : Option Bytes)
  | refundChange (prev : UInt64)
  | addLogChange (txhash : Hash)
  | addPreimageChange (hash : Hash)
  | touchChange (account : Address)

namespace JournalEntry

def balanceChange (account : Address) (prev : Int) : JournalEntry :=
  .bigChange .balance account prev

def lockedBalanceChange (account : Address) (prev : Int) : JournalEntry :=
  .bigChange .lockedBalance account prev

def unlockedBalanceChange (account : Address) (prev : Int) : JournalEntry :=
  .bigChange .unLockedBalance account prev

def delegateTimestampChange (account : Address) (prev : Int) : JournalEntry :=
  .bigChange .delegateTimestamp account prev

def undelegateTimestampChange (account : Address) (prev : Int) : JournalEntry :=
  .bigChange .unDelegateTimestamp account prev

/-- {lit}`dirtied`: the account an entry modifies. -/
def dirtied : JournalEntry → Option Address
  | .createObjectChange a => some a
  | .resetObjectChange _ => none
  | .suicideChange a _ _ => some a
  | .bigChange _ a _ => some a
  | .nonceChange a _ => some a
  | .storageChange a _ _ => some a
  | .codeChange a _ _ => some a
  | .refundChange _ => none
  | .addLogChange _ => none
  | .addPreimageChange _ => none
  | .touchChange a => some a

end JournalEntry

/-- {lit}`journal`: the entries since the last commit and, per address, how many of
them dirtied it; an address is in the Go map exactly when its count is not zero. -/
structure Journal where
  entries : List JournalEntry
  dirties : Address → Int

namespace Journal

/-- {lit}`newJournal`. -/
def newJournal : Journal := ⟨[], fun _ => 0⟩

/-- One more change of an address. -/
def addDirty (dirties : Address → Int) (a : Address) : Address → Int :=
  Function.update dirties a (dirties a + 1)

/-- {lit}`append`. -/
def append (j : Journal) (entry : JournalEntry) : Journal where
  entries := j.entries ++ [entry]
  dirties := match entry.dirtied with
    | some a => addDirty j.dirties a
    | none => j.dirties

/-- {lit}`dirty`: mark an address dirty without an entry. -/
def dirty (j : Journal) (a : Address) : Journal := { j with dirties := addDirty j.dirties a }

/-- {lit}`length`. -/
def length (j : Journal) : Nat := j.entries.length

/-- A journal entry lengthens the journal by one. -/
@[simp]
theorem length_append (j : Journal) (e : JournalEntry) : (j.append e).length = j.length + 1 := by
  simp [append, length]

end Journal

/-- The RIPEMD precompile's address, {lit}`0x...03`, which {lit}`touch` marks dirty
by hand. -/
def ripemd : Address := ⟨List.replicate 19 0 ++ [3], by simp⟩

/-- {lit}`StateDB`, without the database error memo and the lock. -/
structure StateDB where
  db : Database
  trie : Address → Option Account
  stateObjects : Address → Option StateObject
  stateObjectsDirty : Address → Bool
  refund : UInt64
  thash : Hash
  bhash : Hash
  txIndex : Nat
  logs : Hash → List Log
  logSize : Nat
  preimages : Hash → Option Bytes
  journal : Journal
  validRevisions : List Revision
  nextRevisionID : Nat

namespace StateDB

/-- {lit}`New`: a state opened at a root whose account trie stands for {lit}`trie`. -/
def New (db : Database) (trie : Address → Option Account) : StateDB where
  db := db
  trie := trie
  stateObjects := fun _ => none
  stateObjectsDirty := fun _ => false
  refund := 0
  thash := Hash.zero
  bhash := Hash.zero
  txIndex := 0
  logs := fun _ => []
  logSize := 0
  preimages := fun _ => none
  journal := Journal.newJournal
  validRevisions := []
  nextRevisionID := 0

variable (s : StateDB)

/-- Append a journal entry. -/
def appendJournal (e : JournalEntry) : StateDB := { s with journal := s.journal.append e }

/-! ## Live objects -/

/-- {lit}`setStateObject`. -/
def setStateObject (obj : StateObject) : StateDB :=
  { s with stateObjects := Function.update s.stateObjects obj.address (some obj) }

/-- The object {lit}`getStateObject` returns: the live one unless it was deleted, or
a fresh object over the trie's account. -/
def lookupObject (addr : Address) : Option StateObject :=
  match s.stateObjects addr with
  | some obj => if obj.deleted then none else some obj
  | none => (s.trie addr).map (newObject s.db addr)

/-- {lit}`getStateObject`: a live object, or one loaded from the trie into the live
set. -/
def getStateObject (addr : Address) : Option StateObject × StateDB :=
  match s.stateObjects addr with
  | some obj => (if obj.deleted then none else some obj, s)
  | none =>
    match s.trie addr with
    | none => (none, s)
    | some data =>
      let obj := newObject s.db addr data
      (some obj, s.setStateObject obj)

/-- {lit}`createObject`: a fresh object over {lit}`Account{}` with nonce zero, journaled
as a creation or as the reset of the object it replaces. -/
def createObject (addr : Address) : StateObject × Option StateObject × StateDB :=
  let (prev, s) := s.getStateObject addr
  let newobj := (newObject s.db addr Account.zero).setNonce 0
  let s := s.appendJournal (match prev with
    | none => .createObjectChange addr
    | some p => .resetObjectChange p)
  (newobj, prev, s.setStateObject newobj)

/-- {lit}`GetOrNewStateObject`. -/
def GetOrNewStateObject (addr : Address) : StateObject × StateDB :=
  let (obj, s) := s.getStateObject addr
  let create := fun (s : StateDB) => let (o, _, s) := s.createObject addr; (o, s)
  match obj with
  | some o => if o.deleted then create s else (o, s)
  | none => create s

/-- {lit}`CreateAccount`: a fresh object that keeps the balance of the one it
replaces. -/
def CreateAccount (addr : Address) : StateDB :=
  let (new, prev, s) := s.createObject addr
  match prev with
  | some p => s.setStateObject (new.setBalance p.data.balance)
  | none => s

/-! ## Journaled object changes -/

/-- A journaled big-integer setter of an object: the entry copies the old value,
which panics on a nil field.  This is {lit}`SetBalance` and its siblings on
{lit}`stateObject`. -/
def setBigJournaled (f : BigField) (obj : StateObject) (x : Option Int) :
    Option (StateObject × StateDB) := do
  let prev ← obj.data.getBig f
  pure (obj.setBig f x, s.appendJournal (.bigChange f obj.address prev))

/-- {lit}`touch`: an entry without change; the RIPEMD address is also marked dirty. -/
def touch (obj : StateObject) : StateDB :=
  let s := s.appendJournal (.touchChange obj.address)
  if obj.address = ripemd then { s with journal := s.journal.dirty obj.address } else s

/-- Modify the object of an address, created if there is none, and keep it live. -/
def withObject (addr : Address) (f : StateObject → StateDB → Option (StateObject × StateDB)) :
    Option StateDB := do
  let (obj, s) := s.GetOrNewStateObject addr
  let (obj, s) ← f obj s
  pure (s.setStateObject obj)

/-- {lit}`stateObject.AddBalance`: adding zero only touches an empty object. -/
def objectAddBalance (amount : Int) (obj : StateObject) (s : StateDB) :
    Option (StateObject × StateDB) := do
  if amount = 0 then
    let e ← obj.empty s.db
    pure (obj, if e then s.touch obj else s)
  else
    let b ← obj.data.balance
    s.setBigJournaled .balance obj (some (b + amount))

/-- {lit}`stateObject.SubBalance`. -/
def objectSubBalance (amount : Int) (obj : StateObject) (s : StateDB) :
    Option (StateObject × StateDB) := do
  if amount = 0 then pure (obj, s)
  else
    let b ← obj.data.balance
    s.setBigJournaled .balance obj (some (b - amount))

/-! ## Setters -/

/-- {lit}`AddBalance`; a nil amount panics. -/
def AddBalance (addr : Address) (amount : Option Int) : Option StateDB := do
  let a ← amount
  s.withObject addr (objectAddBalance a)

/-- {lit}`SubBalance`; a nil amount panics. -/
def SubBalance (addr : Address) (amount : Option Int) : Option StateDB := do
  let a ← amount
  s.withObject addr (objectSubBalance a)

/-- The five journaled big-integer setters of {lit}`StateDB`. -/
def SetBig (f : BigField) (addr : Address) (x : Option Int) : Option StateDB :=
  s.withObject addr fun obj s => s.setBigJournaled f obj x

def SetBalance (addr : Address) (amount : Option Int) : Option StateDB :=
  s.SetBig .balance addr amount

def SetLockedBalance (addr : Address) (amount : Option Int) : Option StateDB :=
  s.SetBig .lockedBalance addr amount

def SetUnLockedBalance (addr : Address) (amount : Option Int) : Option StateDB :=
  s.SetBig .unLockedBalance addr amount

def SetDelegateTimestamp (addr : Address) (timestamp : Option Int) : Option StateDB :=
  s.SetBig .delegateTimestamp addr timestamp

/-- {lit}`SetUnDelegateTimestamp`, unlike its siblings, calls the object's
unjournaled {lit}`setUnDelegateTimestamp`: no entry is written. -/
def SetUnDelegateTimestamp (addr : Address) (timestamp : Option Int) : StateDB :=
  let (obj, s) := s.GetOrNewStateObject addr
  s.setStateObject (obj.setUnDelegateTimestamp timestamp)

/-- {lit}`SetNonce`. -/
def SetNonce (addr : Address) (nonce : UInt64) : StateDB :=
  let (obj, s) := s.GetOrNewStateObject addr
  let s := s.appendJournal (.nonceChange addr obj.data.nonce)
  s.setStateObject (obj.setNonce nonce)

/-- {lit}`SetCode`: the entry keeps the code, loaded if need be, and its hash. -/
def SetCode (addr : Address) (code : Bytes) : StateDB :=
  let (obj, s) := s.GetOrNewStateObject addr
  let (prevcode, obj) := obj.Code s.db
  let s := s.appendJournal (.codeChange addr prevcode obj.data.codeHash)
  s.setStateObject (obj.setCode (s.db.keccak code) (some code))

/-- {lit}`SetState`: the entry keeps the value read before. -/
def SetState (addr : Address) (key value : Hash) : StateDB :=
  let (obj, s) := s.GetOrNewStateObject addr
  let (prevalue, obj) := obj.GetState key
  let s := s.appendJournal (.storageChange addr key prevalue)
  s.setStateObject (obj.setState key value)

/-- {lit}`Suicide`: a live account is marked and its balance cleared. -/
def Suicide (addr : Address) : Option (Bool × StateDB) := do
  let (obj, s) := s.getStateObject addr
  match obj with
  | none => pure (false, s)
  | some obj =>
    let b ← obj.data.balance
    let s := s.appendJournal (.suicideChange addr obj.suicided b)
    pure (true, s.setStateObject ({ obj.markSuicided with data := { obj.data with balance := some 0 } }))

/-- {lit}`AddRefund`. -/
def AddRefund (gas : UInt64) : StateDB :=
  let s := s.appendJournal (.refundChange s.refund)
  { s with refund := s.refund + gas }

/-- {lit}`AddLog`: the log gets the current transaction, block and indices. -/
def AddLog (log : Log) : StateDB :=
  let s := s.appendJournal (.addLogChange s.thash)
  let log := { log with transactionHash := s.thash, blockHash := s.bhash,
                        transactionIndex := s.txIndex, logIndex := s.logSize }
  { s with logs := Function.update s.logs s.thash (s.logs s.thash ++ [log]),
           logSize := s.logSize + 1 }

/-- {lit}`AddPreimage`: a preimage is recorded once. -/
def AddPreimage (hash : Hash) (preimage : Bytes) : StateDB :=
  match s.preimages hash with
  | some _ => s
  | none =>
    let s := s.appendJournal (.addPreimageChange hash)
    { s with preimages := Function.update s.preimages hash (some preimage) }

/-- {lit}`Prepare`. -/
def Prepare (thash bhash : Hash) (ti : Nat) : StateDB :=
  { s with thash := thash, bhash := bhash, txIndex := ti }

/-! ## Getters

Each getter goes through {lit}`getStateObject`, which may load the object; the
model returns the value with the state. -/

def Exist (addr : Address) : Bool × StateDB :=
  let (obj, s) := s.getStateObject addr
  (obj.isSome, s)

def Empty (addr : Address) : Option Bool × StateDB :=
  let (obj, s) := s.getStateObject addr
  match obj with
  | none => (some true, s)
  | some o => (o.empty s.db, s)

/-- A big-integer getter: the field of the object, or {lit}`utils.Big0` without one. -/
def GetBig (f : BigField) (addr : Address) : Option Int × StateDB :=
  let (obj, s) := s.getStateObject addr
  match obj with
  | some o => (o.data.getBig f, s)
  | none => (some 0, s)

def GetBalance (addr : Address) : Option Int × StateDB := s.GetBig .balance addr

def GetLockedBalance (addr : Address) : Option Int × StateDB := s.GetBig .lockedBalance addr

def GetUnLockedBalance (addr : Address) : Option Int × StateDB := s.GetBig .unLockedBalance addr

def GetDelegateTimestamp (addr : Address) : Option Int × StateDB :=
  s.GetBig .delegateTimestamp addr

def GetUnDelegateTimestamp (addr : Address) : Option Int × StateDB :=
  s.GetBig .unDelegateTimestamp addr

def GetNonce (addr : Address) : UInt64 × StateDB :=
  let (obj, s) := s.getStateObject addr
  match obj with
  | some o => (o.data.nonce, s)
  | none => (0, s)

def GetCode (addr : Address) : Option Bytes × StateDB :=
  let (obj, s) := s.getStateObject addr
  match obj with
  | some o =>
    let (code, o) := o.Code s.db
    (code, s.setStateObject o)
  | none => (none, s)

def GetCodeHash (addr : Address) : Hash × StateDB :=
  let (obj, s) := s.getStateObject addr
  match obj with
  | some o => (BytesToHash (o.data.codeHash.getD []), s)
  | none => (Hash.zero, s)

def GetState (addr : Address) (key : Hash) : Hash × StateDB :=
  let (obj, s) := s.getStateObject addr
  match obj with
  | some o =>
    let (value, o) := o.GetState key
    (value, s.setStateObject o)
  | none => (Hash.zero, s)

def HasSuicided (addr : Address) : Bool × StateDB :=
  let (obj, s) := s.getStateObject addr
  match obj with
  | some o => (o.suicided, s)
  | none => (false, s)

def GetRefund : UInt64 := s.refund

def GetLogs (hash : Hash) : List Log := s.logs hash

/-! ## Reverting the journal -/

/-- The object-level setter a journal entry restores through: on the live object of
the account, which must exist. -/
def restore (addr : Address) (f : StateObject → StateObject) : Option StateDB := do
  let (obj, s) := s.getStateObject addr
  let obj ← obj
  pure (s.setStateObject (f obj))

/-- {lit}`revert` of each journal entry. -/
def revertEntry : JournalEntry → Option StateDB
  | .createObjectChange a =>
    some { s with stateObjects := Function.update s.stateObjects a none,
                  stateObjectsDirty := Function.update s.stateObjectsDirty a false }
  | .resetObjectChange prev => some (s.setStateObject prev)
  | .suicideChange a prev prevbalance =>
    let (obj, s) := s.getStateObject a
    match obj with
    | none => some s
    | some obj => some (s.setStateObject ({ obj with suicided := prev }.setBalance (some prevbalance)))
  | .bigChange f a prev => s.restore a fun obj => obj.setBig f (some prev)
  | .nonceChange a prev => s.restore a fun obj => obj.setNonce prev
  | .storageChange a key prevalue => s.restore a fun obj => obj.setState key prevalue
  | .codeChange a prevcode prevhash =>
    s.restore a fun obj => obj.setCode (BytesToHash (prevhash.getD [])) prevcode
  | .refundChange prev => some { s with refund := prev }
  | .addLogChange txhash =>
    -- an entry is only written with its log, so the Go decrement of the unsigned
    -- log count never wraps
    match s.logs txhash with
    | [] => none
    | [_] => some { s with logs := Function.update s.logs txhash [], logSize := s.logSize - 1 }
    | logs => some { s with logs := Function.update s.logs txhash logs.dropLast,
                            logSize := s.logSize - 1 }
  | .addPreimageChange hash => some { s with preimages := Function.update s.preimages hash none }
  | .touchChange _ => some s

/-- One less change of an address. -/
def dropDirty (dirties : Address → Int) : Option Address → Address → Int
  | some a => Function.update dirties a (dirties a - 1)
  | none => dirties

/-- Undo the entries from the end down to the given one, dropping their dirty
counts; the loop of {lit}`journal.revert`. -/
def revertEntries : List JournalEntry → StateDB → Option StateDB
  | [], s => some s
  | e :: es, s => do
    let s ← s.revertEntry e
    revertEntries es { s with journal := { s.journal with dirties := dropDirty s.journal.dirties e.dirtied } }

/-- {lit}`journal.revert`: undo the entries after the first {lit}`snapshot` ones, last
first, and cut the journal there. -/
def revertJournal (snapshot : Nat) : Option StateDB := do
  let s' ← revertEntries (s.journal.entries.drop snapshot).reverse s
  pure { s' with journal := { s'.journal with entries := s.journal.entries.take snapshot } }

/-- {lit}`Snapshot`: a new revision at the current journal length. -/
def Snapshot : Nat × StateDB :=
  (s.nextRevisionID, { s with nextRevisionID := s.nextRevisionID + 1,
                              validRevisions := s.validRevisions ++ [⟨s.nextRevisionID, s.journal.length⟩] })

/-- {lit}`RevertToSnapshot`.  Go finds the revision by binary search over the
increasing ids, which is the first revision whose id is not below the one asked
for; an id that is not a valid revision panics. -/
def RevertToSnapshot (revid : Nat) : Option StateDB := do
  let idx := s.validRevisions.findIdx fun r => decide (revid ≤ r.id)
  let r ← s.validRevisions[idx]?
  if r.id ≠ revid then none
  else
    let s' ← s.revertJournal r.journalIndex
    pure { s' with validRevisions := s.validRevisions.take idx }

/-! ## Spec lemmas -/

/-- {lit}`setStateObject` puts the object at its address. -/
@[simp]
theorem stateObjects_setStateObject (obj : StateObject) :
    (s.setStateObject obj).stateObjects = Function.update s.stateObjects obj.address (some obj) :=
  rfl

/-- {lit}`setStateObject` keeps the trie. -/
@[simp]
theorem trie_setStateObject (obj : StateObject) : (s.setStateObject obj).trie = s.trie := rfl

/-- {lit}`setStateObject` keeps the database. -/
@[simp]
theorem db_setStateObject (obj : StateObject) : (s.setStateObject obj).db = s.db := rfl

/-- A journal entry keeps the live objects. -/
@[simp]
theorem stateObjects_appendJournal (e : JournalEntry) :
    (s.appendJournal e).stateObjects = s.stateObjects := rfl

/-- A journal entry keeps the trie. -/
@[simp]
theorem trie_appendJournal (e : JournalEntry) : (s.appendJournal e).trie = s.trie := rfl

/-- A journal entry keeps the database. -/
@[simp]
theorem db_appendJournal (e : JournalEntry) : (s.appendJournal e).db = s.db := rfl

/-- {lit}`appendJournal` appends the entry to the journal. -/
@[simp]
theorem journal_appendJournal (e : JournalEntry) :
    (s.appendJournal e).journal = s.journal.append e := rfl

/-- {lit}`setStateObject` keeps the journal. -/
@[simp]
theorem journal_setStateObject (obj : StateObject) :
    (s.setStateObject obj).journal = s.journal := rfl

/-- {lit}`setStateObject` keeps the revisions. -/
@[simp]
theorem validRevisions_setStateObject (obj : StateObject) :
    (s.setStateObject obj).validRevisions = s.validRevisions := rfl

/-- A journal entry keeps the revisions. -/
@[simp]
theorem validRevisions_appendJournal (e : JournalEntry) :
    (s.appendJournal e).validRevisions = s.validRevisions := rfl

/-- What {lit}`getStateObject` returns does not depend on the loading. -/
theorem getStateObject_fst (addr : Address) : (s.getStateObject addr).1 = s.lookupObject addr := by
  unfold getStateObject lookupObject
  cases s.stateObjects addr with
  | some obj => rfl
  | none => cases s.trie addr <;> rfl

/-- Loading an object changes only the live set, and only to hold what
{lit}`lookupObject` returns. -/
theorem getStateObject_snd (addr : Address) :
    (s.getStateObject addr).2 = s ∨
      ∃ obj, s.stateObjects addr = none ∧ s.lookupObject addr = some obj ∧
        (s.getStateObject addr).2 = s.setStateObject obj := by
  unfold getStateObject lookupObject
  cases h : s.stateObjects addr with
  | some obj => exact .inl rfl
  | none =>
    cases s.trie addr with
    | none => exact .inl rfl
    | some data => exact .inr ⟨_, rfl, rfl, rfl⟩

/-- Loading an object keeps the journal. -/
@[simp]
theorem journal_getStateObject (addr : Address) : (s.getStateObject addr).2.journal = s.journal := by
  rcases s.getStateObject_snd addr with h | ⟨obj, -, -, h⟩ <;> rw [h]
  rfl

/-- {lit}`getStateObject` keeps the revisions. -/
@[simp]
theorem validRevisions_getStateObject (addr : Address) :
    (s.getStateObject addr).2.validRevisions = s.validRevisions := by
  rcases s.getStateObject_snd addr with h | ⟨obj, -, -, h⟩ <;> rw [h]
  rfl

/-- {lit}`getStateObject` keeps the database. -/
@[simp]
theorem db_getStateObject (addr : Address) : (s.getStateObject addr).2.db = s.db := by
  rcases s.getStateObject_snd addr with h | ⟨obj, -, -, h⟩ <;> rw [h]
  rfl

/-- Writing a live object changes what its address looks up. -/
theorem lookupObject_setStateObject (obj : StateObject) (addr : Address) :
    (s.setStateObject obj).lookupObject addr =
      if addr = obj.address then (if obj.deleted then none else some obj)
      else s.lookupObject addr := by
  by_cases h : addr = obj.address
  · subst h
    simp [lookupObject]
  · simp [lookupObject, h]

/-- Loading an object changes no lookup. -/
@[simp]
theorem lookupObject_getStateObject (a addr : Address) :
    (s.getStateObject a).2.lookupObject addr = s.lookupObject addr := by
  rcases s.getStateObject_snd a with h | ⟨obj, hnone, hobj, h⟩
  · rw [h]
  · rw [h, lookupObject_setStateObject]
    by_cases hab : addr = obj.address
    · -- the loaded object is the fresh one over the trie's account, at its own address
      have hobj' := hobj
      simp only [lookupObject, hnone, Option.map_eq_some_iff] at hobj'
      obtain ⟨data, -, rfl⟩ := hobj'
      subst hab
      simp [hobj]
    · rw [if_neg hab]

/-- An object that {lit}`lookupObject` returns is not deleted. -/
theorem deleted_of_lookupObject {addr : Address} {o : StateObject}
    (h : s.lookupObject addr = some o) : o.deleted = false := by
  unfold lookupObject at h
  split at h
  · next obj _ =>
    by_cases hd : obj.deleted
    · simp [hd] at h
    · simp only [hd, if_false, Option.some.injEq, Bool.false_eq_true] at h
      subst h
      simpa using hd
  · obtain ⟨data, -, rfl⟩ := Option.map_eq_some_iff.mp h
    rfl

/-- {lit}`GetOrNewStateObject` at an address with an object returns it and writes no
journal entry. -/
theorem GetOrNewStateObject_of_lookup {addr : Address} {o : StateObject}
    (h : s.lookupObject addr = some o) :
    (s.GetOrNewStateObject addr).1 = o ∧
      (s.GetOrNewStateObject addr).2 = (s.getStateObject addr).2 := by
  have hfst := s.getStateObject_fst addr
  rw [h] at hfst
  have hdel := s.deleted_of_lookupObject h
  unfold GetOrNewStateObject
  generalize s.getStateObject addr = r at hfst ⊢
  obtain ⟨obj, s'⟩ := r
  cases hfst
  simp [hdel]

/-- {lit}`GetOrNewStateObject` at an address without an object creates one over
{lit}`Account{}` and journals its creation. -/
theorem GetOrNewStateObject_of_lookup_none {addr : Address} (h : s.lookupObject addr = none) :
    (s.GetOrNewStateObject addr).1 = (newObject s.db addr Account.zero).setNonce 0 ∧
      (s.GetOrNewStateObject addr).2 =
        (((s.getStateObject addr).2.getStateObject addr).2.appendJournal
          (.createObjectChange addr)).setStateObject ((newObject s.db addr Account.zero).setNonce 0) := by
  have hfst := s.getStateObject_fst addr
  rw [h] at hfst
  have hdb := s.db_getStateObject addr
  have hfst' := (s.getStateObject addr).2.getStateObject_fst addr
  rw [lookupObject_getStateObject, h] at hfst'
  unfold GetOrNewStateObject createObject
  generalize s.getStateObject addr = r at hfst hfst' hdb ⊢
  obtain ⟨obj, s'⟩ := r
  cases hfst
  dsimp only at hfst' hdb ⊢
  have hdb' := s'.db_getStateObject addr
  generalize s'.getStateObject addr = r' at hfst' hdb' ⊢
  obtain ⟨prev, s''⟩ := r'
  cases hfst'
  dsimp only at hdb' ⊢
  rw [hdb', hdb]
  exact ⟨rfl, rfl⟩

/-- {lit}`withObject` changes the object {lit}`GetOrNewStateObject` gives and keeps it live. -/
theorem withObject_eq (addr : Address) (f : StateObject → StateDB → Option (StateObject × StateDB)) :
    s.withObject addr f =
      (f (s.GetOrNewStateObject addr).1 (s.GetOrNewStateObject addr).2).map
        fun p => p.2.setStateObject p.1 := by
  unfold withObject
  generalize s.GetOrNewStateObject addr = r
  obtain ⟨obj, s'⟩ := r
  dsimp only
  cases f obj s' <;> rfl

/-- What a big-integer getter returns. -/
theorem GetBig_fst (f : BigField) (addr : Address) :
    (s.GetBig f addr).1 = ((s.lookupObject addr).map fun o => o.data.getBig f).getD (some 0) := by
  unfold GetBig
  rw [← s.getStateObject_fst addr]
  generalize s.getStateObject addr = r
  obtain ⟨obj, s'⟩ := r
  cases obj <;> rfl

end StateDB

end State
end Uranus
