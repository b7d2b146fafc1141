import Uranus.State.StateDB

/-!
# Reverting to a snapshot

{lit}`RevertToSnapshot` undoes exactly what the journal recorded since the
snapshot.  Every setter of {lit}`StateDB` writes its entry before the change, except
{lit}`SetUnDelegateTimestamp`, which calls the object's unjournaled setter: its
change survives any revert.

Main results:

- Theorem {lit}`RevertToSnapshot_last`: reverting to the latest snapshot runs the
  journal back to its length at the snapshot and drops that revision.
- Theorem {lit}`SetUnDelegateTimestamp_survives_revert`: a snapshot, an
  undelegation time set on an existing account and a revert to the snapshot leave
  the new time, while the state before the snapshot reads the old one.
-/

namespace Uranus
namespace State

namespace StateDB

variable (s : StateDB)

/-- What every state the Go code reaches satisfies: each live object sits under its
own address, and the revisions were all taken before the next id, so they
increase and {lit}`RevertToSnapshot`'s binary search finds an id at its first
place. -/
structure WellFormed : Prop where
  objectsAtHome : ∀ a obj, s.stateObjects a = some obj → obj.address = a
  revisionsBelow : ∀ r ∈ s.validRevisions, r.id < s.nextRevisionID

/-- A new state is well formed. -/
theorem wellFormed_New (db : Database) (trie : Address → Option Account) :
    (New db trie).WellFormed :=
  ⟨fun _ _ h => (by cases h), nofun⟩

variable {s} in
/-- An object {lit}`lookupObject` returns sits at the address looked up. -/
theorem WellFormed.address_of_lookupObject (hwf : s.WellFormed) {addr : Address} {o : StateObject}
    (h : s.lookupObject addr = some o) : o.address = addr := by
  unfold lookupObject at h
  split at h
  · next obj hobj =>
    split at h
    · cases h
    · cases h
      exact hwf.objectsAtHome addr _ hobj
  · obtain ⟨data, -, rfl⟩ := Option.map_eq_some_iff.mp h
    rfl

/-! ## Snapshots and the journal -/

/-- {lit}`Snapshot` changes no live object. -/
@[simp]
theorem lookupObject_Snapshot (addr : Address) : s.Snapshot.2.lookupObject addr = s.lookupObject addr :=
  rfl

/-- {lit}`Snapshot` leaves the journal as it is. -/
@[simp]
theorem journal_Snapshot : s.Snapshot.2.journal = s.journal := rfl

/-- The list of revisions plays no part in finding a live object. -/
@[simp]
theorem lookupObject_validRevisions (l : List Revision) (addr : Address) :
    ({ s with validRevisions := l } : StateDB).lookupObject addr = s.lookupObject addr := rfl

/-- Running the journal back to its own length changes nothing. -/
theorem revertJournal_length : s.revertJournal s.journal.length = some s := by
  simp [revertJournal, Journal.length, revertEntries]

/-- Reverting to the latest revision, taken after all others, runs the journal back
to its length then and drops the revision. -/
theorem RevertToSnapshot_last {l : List Revision} {n k : Nat} (hl : ∀ r ∈ l, r.id < n)
    (hv : s.validRevisions = l ++ [⟨n, k⟩]) :
    s.RevertToSnapshot n = (s.revertJournal k).map fun s' => { s' with validRevisions := l } := by
  have hidx : (s.validRevisions.findIdx fun r => decide (n ≤ r.id)) = l.length := by
    have hnone : (l.findIdx fun r => decide (n ≤ r.id)) = l.length :=
      List.findIdx_eq_length.mpr fun r hr => by simpa using hl r hr
    rw [hv, List.findIdx_append, hnone]
    simp
  have hget : s.validRevisions[l.length]? = some ⟨n, k⟩ := by
    rw [hv, List.getElem?_append_right (Nat.le_refl _)]
    simp
  unfold RevertToSnapshot
  simp only [hidx, hget, Option.bind_eq_bind, Option.bind_some, ne_eq, not_true_eq_false,
    if_false]
  rw [hv, List.take_append_of_le_length (Nat.le_refl _), List.take_length]
  cases s.revertJournal k <;> rfl

/-! ## The unjournaled setter -/

/-- {lit}`SetUnDelegateTimestamp` on an account with an object sets its time and
writes no journal entry. -/
theorem SetUnDelegateTimestamp_of_lookup (hwf : s.WellFormed) {addr : Address} {o : StateObject}
    (h : s.lookupObject addr = some o) (t : Option Int) :
    (s.SetUnDelegateTimestamp addr t).lookupObject addr = some (o.setUnDelegateTimestamp t) ∧
      (s.SetUnDelegateTimestamp addr t).journal = s.journal ∧
      (s.SetUnDelegateTimestamp addr t).validRevisions = s.validRevisions := by
  obtain ⟨hobj, hst⟩ := s.GetOrNewStateObject_of_lookup h
  have haddr := hwf.address_of_lookupObject h
  have hdel := s.deleted_of_lookupObject h
  unfold SetUnDelegateTimestamp
  generalize hr : s.GetOrNewStateObject addr = r at hobj hst
  obtain ⟨obj, s'⟩ := r
  dsimp only at hobj hst ⊢
  subst hobj hst
  refine ⟨?_, by simp, by simp⟩
  rw [lookupObject_setStateObject]
  simp [StateObject.setUnDelegateTimestamp, haddr, hdel]

/-! ## A change the revert misses -/

variable {s} in
/-- {lit}`Snapshot` keeps a state well formed. -/
theorem WellFormed.Snapshot (hwf : s.WellFormed) : s.Snapshot.2.WellFormed where
  objectsAtHome := hwf.objectsAtHome
  revisionsBelow r hr := by
    rcases List.mem_append.mp hr with hr | hr
    · exact Nat.lt_succ_of_lt (hwf.revisionsBelow r hr)
    · rw [List.mem_singleton.mp hr]
      exact Nat.lt_succ_self _

/-- A snapshot, an undelegation time set through {lit}`SetUnDelegateTimestamp` on an
account that exists, and a revert to that snapshot: the revert succeeds and keeps
the new time, while the state before the snapshot, on which only the operations
before it were applied, reads the account's old time. -/
theorem SetUnDelegateTimestamp_survives_revert (hwf : s.WellFormed) {a : Address}
    {o : StateObject} (ho : s.lookupObject a = some o) (t : Option Int) :
    ∃ s', (s.Snapshot.2.SetUnDelegateTimestamp a t).RevertToSnapshot s.Snapshot.1 = some s' ∧
      (s'.GetUnDelegateTimestamp a).1 = t ∧
      (s.GetUnDelegateTimestamp a).1 = o.data.unDelegateTimestamp := by
  obtain ⟨hlook, hj, hv⟩ := s.Snapshot.2.SetUnDelegateTimestamp_of_lookup hwf.Snapshot ho t
  -- the snapshot is the latest revision, and the journal has not grown since
  have hrev := (s.Snapshot.2.SetUnDelegateTimestamp a t).RevertToSnapshot_last
    hwf.revisionsBelow hv
  have hlen : s.journal.length = (s.Snapshot.2.SetUnDelegateTimestamp a t).journal.length := by
    rw [hj]
    rfl
  rw [hlen, revertJournal_length] at hrev
  refine ⟨_, hrev, ?_, ?_⟩
  · rw [GetUnDelegateTimestamp, GetBig_fst]
    simp only [lookupObject_validRevisions, hlook]
    simp [StateObject.setUnDelegateTimestamp]
  · rw [GetUnDelegateTimestamp, GetBig_fst, ho]
    rfl

/-- The theorem on a state opened over a trie that holds an account with
undelegation time zero: after the revert the time reads seven. -/
theorem SetUnDelegateTimestamp_survives_revert_loaded :
    let db : Database := ⟨fun _ => Hash.zero, fun _ => none, fun _ _ => Hash.zero⟩
    let acct : Account := ⟨some 0, some 0, some 0, some 0, 0, some 0, Hash.zero, some []⟩
    let s : StateDB := New db fun _ => some acct
    ∃ s', (s.Snapshot.2.SetUnDelegateTimestamp Address.zero (some 7)).RevertToSnapshot
        s.Snapshot.1 = some s' ∧
      (s'.GetUnDelegateTimestamp Address.zero).1 = some 7 ∧
      (s.GetUnDelegateTimestamp Address.zero).1 = some 0 := by
  intro db acct s
  exact SetUnDelegateTimestamp_survives_revert s (wellFormed_New db _)
    (o := newObject db Address.zero acct) rfl (some 7)

end StateDB

end State
end Uranus
