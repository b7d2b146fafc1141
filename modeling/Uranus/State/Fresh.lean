import Uranus.State.Revert

/-!
# Fresh accounts

{lit}`createObject` builds an object over {lit}`Account{}`, and {lit}`newObject` gives
zero values only to the balance, the locked balance, the delegation time and the
code hash.  An account first created in the current state therefore has a nil
unlocked balance and a nil undelegation time: the getters return nil pointers,
and the journaled {lit}`SetUnLockedBalance` panics when it copies the old value.
Only an account read back from the trie, whose fields RLP decoding fills, has
all five defined.

Main results:

- Theorem {lit}`AddBalance_fresh`: {lit}`AddBalance` at an address without an object
  leaves a live object with the two fields nil.
- Theorem {lit}`AddBalance_fresh_nil_fields`: after it the two getters return nil
  and {lit}`SetUnLockedBalance` panics.
-/

namespace Uranus
namespace State

namespace StateDB

variable (s : StateDB)

/-- Adding an amount adds it to the object at the address. -/
theorem AddBalance_some (addr : Address) (amount : Int) :
    s.AddBalance addr (some amount) = s.withObject addr (objectAddBalance amount) := rfl

/-- The object {lit}`createObject` builds is empty: nonce zero, balance zero, and the
empty code hash. -/
theorem empty_fresh (db : Database) (addr : Address) :
    ((newObject db addr Account.zero).setNonce 0).empty db = some true := by
  simp [StateObject.empty, StateObject.setNonce, newObject, Account.zero, orNew]

/-- {lit}`AddBalance` at an address without an object leaves a live object there
whose unlocked balance and undelegation time are nil. -/
theorem AddBalance_fresh {addr : Address} (ha : s.lookupObject addr = none) (amount : Int) :
    ∃ obj s', s.AddBalance addr (some amount) = some s' ∧ s'.lookupObject addr = some obj ∧
      obj.data.unLockedBalance = none ∧ obj.data.unDelegateTimestamp = none := by
  obtain ⟨hobj, hst⟩ := s.GetOrNewStateObject_of_lookup_none ha
  have hdb : (s.GetOrNewStateObject addr).2.db = s.db := by
    rw [hst]
    simp
  rw [AddBalance_some, withObject_eq, hobj]
  unfold objectAddBalance
  by_cases h0 : amount = 0
  · -- adding zero to the empty fresh object only touches it
    rw [if_pos h0, hdb, empty_fresh]
    refine ⟨(newObject s.db addr Account.zero).setNonce 0, _, rfl, ?_, rfl, rfl⟩
    rw [lookupObject_setStateObject]
    simp [StateObject.setNonce]
  · -- otherwise its zero balance is set through the journal
    rw [if_neg h0]
    refine ⟨((newObject s.db addr Account.zero).setNonce 0).setBig .balance (some (0 + amount)), _,
      rfl, ?_, rfl, rfl⟩
    rw [lookupObject_setStateObject]
    simp [StateObject.setNonce]

/-- An address without an object that receives any amount: the unlocked balance and
the undelegation time read as nil pointers, and setting the unlocked balance
panics. -/
theorem AddBalance_fresh_nil_fields {addr : Address} (ha : s.lookupObject addr = none)
    (amount : Int) :
    ∃ s', s.AddBalance addr (some amount) = some s' ∧
      (s'.GetUnLockedBalance addr).1 = none ∧ (s'.GetUnDelegateTimestamp addr).1 = none ∧
      ∀ x, s'.SetUnLockedBalance addr x = none := by
  obtain ⟨obj, s', hadd, hlook, hunl, hund⟩ := s.AddBalance_fresh ha amount
  refine ⟨s', hadd, ?_, ?_, fun x => ?_⟩
  · rw [GetUnLockedBalance, GetBig_fst, hlook]
    exact hunl
  · rw [GetUnDelegateTimestamp, GetBig_fst, hlook]
    exact hund
  · -- the journal entry copies the nil unlocked balance
    obtain ⟨hobj, -⟩ := s'.GetOrNewStateObject_of_lookup hlook
    rw [SetUnLockedBalance, SetBig, withObject_eq, hobj]
    simp [setBigJournaled, Account.getBig, hunl]

/-- The theorem on the empty state receiving one unit at the zero address. -/
theorem AddBalance_fresh_nil_fields_new :
    let db : Database := ⟨fun _ => Hash.zero, fun _ => none, fun _ _ => Hash.zero⟩
    ∃ s', (New db fun _ => none).AddBalance Address.zero (some 1) = some s' ∧
      (s'.GetUnLockedBalance Address.zero).1 = none ∧
      (s'.GetUnDelegateTimestamp Address.zero).1 = none ∧
      ∀ x, s'.SetUnLockedBalance Address.zero x = none := by
  intro db
  exact AddBalance_fresh_nil_fields (New db fun _ => none) rfl 1

end StateDB

end State
end Uranus
