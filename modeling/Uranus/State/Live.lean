import Uranus.State.Revert

/-!
# Setters on live accounts

The executor reads and writes the accounts of a block's senders through the
setters of {lit}`StateDB`.  On an account that has a live object whose fields the
setter reads are defined, each setter changes that object alone, and in the way
its name says; the getters change no object.  These lemmas say so once, so that
the executor's proofs never unfold a setter.

Two relations carry them: {lit}`Keeps` (the state is well formed and every address
looks up what it did) and {lit}`Updates` (one address now looks up a given object,
and every other one what it did).

Main results:

- Theorem {lit}`withObject_of_lookup`: on a live object, {lit}`withObject` keeps what the
  change makes of it.
- Theorems {lit}`SetBig_of_lookup`, {lit}`AddBalance_of_lookup`,
  {lit}`SubBalance_of_lookup`, {lit}`SetNonce_of_lookup` and
  {lit}`SetUnDelegateTimestamp_updates`: the setters on a live object.
-/

namespace Uranus
namespace State

/-- Writing an account's field with its own value changes nothing. -/
@[simp]
theorem Account.setBig_getBig (a : Account) (f : BigField) : a.setBig f (a.getBig f) = a := by
  cases a
  cases f <;> rfl

/-- Writing an object's field with its own value changes nothing. -/
@[simp]
theorem StateObject.setBig_getBig (o : StateObject) (f : BigField) :
    o.setBig f (o.data.getBig f) = o := by
  simp [StateObject.setBig]

namespace StateDB

variable {s s' s'' : StateDB}

/-! ## Three relations between states -/

/-- Two states with the same live objects, trie, database and revisions; only the
journal and the fields of the logs, refunds and preimages may differ. -/
structure SameObjects (s s' : StateDB) : Prop where
  stateObjects : s'.stateObjects = s.stateObjects
  trie : s'.trie = s.trie
  db : s'.db = s.db
  validRevisions : s'.validRevisions = s.validRevisions
  nextRevisionID : s'.nextRevisionID = s.nextRevisionID

/-- The state is well formed and every address looks up what it did before. -/
structure Keeps (s s' : StateDB) : Prop where
  wellFormed : s'.WellFormed
  lookupObject : ∀ b, s'.lookupObject b = s.lookupObject b

/-- The state is well formed, the address looks up the object, and every other
address what it did before. -/
structure Updates (s s' : StateDB) (a : Address) (o : StateObject) : Prop where
  wellFormed : s'.WellFormed
  lookup_self : s'.lookupObject a = some o
  lookup_other : ∀ b, b ≠ a → s'.lookupObject b = s.lookupObject b

/-- States with the same objects look up the same object at every address. -/
theorem SameObjects.lookupObject (h : SameObjects s s') (b : Address) :
    s'.lookupObject b = s.lookupObject b := by
  unfold StateDB.lookupObject
  rw [h.stateObjects, h.trie, h.db]

/-- A state with the same objects as a well-formed one is well formed. -/
theorem SameObjects.wellFormed (h : SameObjects s s') (hwf : s.WellFormed) : s'.WellFormed where
  objectsAtHome := by
    rw [h.stateObjects]
    exact hwf.objectsAtHome
  revisionsBelow := by
    rw [h.validRevisions, h.nextRevisionID]
    exact hwf.revisionsBelow

/-- A state with the same objects keeps every lookup. -/
theorem SameObjects.keeps (h : SameObjects s s') (hwf : s.WellFormed) : Keeps s s' :=
  ⟨h.wellFormed hwf, h.lookupObject⟩

/-- A journal entry changes no object. -/
theorem sameObjects_appendJournal (e : JournalEntry) : SameObjects s (s.appendJournal e) :=
  ⟨rfl, rfl, rfl, rfl, rfl⟩

/-- {lit}`touch` changes no object; it only journals. -/
theorem sameObjects_touch (o : StateObject) : SameObjects s (s.touch o) := by
  unfold touch
  split
  · exact ⟨rfl, rfl, rfl, rfl, rfl⟩
  · exact ⟨rfl, rfl, rfl, rfl, rfl⟩

/-- A well-formed state keeps itself. -/
theorem Keeps.refl (hwf : s.WellFormed) : Keeps s s := ⟨hwf, fun _ => rfl⟩

/-- {lit}`Keeps` composes. -/
theorem Keeps.trans (h₁ : Keeps s s') (h₂ : Keeps s' s'') : Keeps s s'' :=
  ⟨h₂.wellFormed, fun b => (h₂.lookupObject b).trans (h₁.lookupObject b)⟩

/-- A step that keeps every lookup, then an update, is that update. -/
theorem Keeps.updates {a : Address} {o : StateObject} (h₁ : Keeps s s') (h₂ : Updates s' s'' a o) :
    Updates s s'' a o :=
  ⟨h₂.wellFormed, h₂.lookup_self, fun b hb => (h₂.lookup_other b hb).trans (h₁.lookupObject b)⟩

/-- An update, then a step that keeps every lookup, is that update. -/
theorem Updates.keeps {a : Address} {o : StateObject} (h₁ : Updates s s' a o) (h₂ : Keeps s' s'') :
    Updates s s'' a o :=
  ⟨h₂.wellFormed, (h₂.lookupObject a).trans h₁.lookup_self,
    fun b hb => (h₂.lookupObject b).trans (h₁.lookup_other b hb)⟩

/-- Two updates of one address are the second. -/
theorem Updates.trans {a : Address} {o o' : StateObject} (h₁ : Updates s s' a o)
    (h₂ : Updates s' s'' a o') : Updates s s'' a o' :=
  ⟨h₂.wellFormed, h₂.lookup_self, fun b hb => (h₂.lookup_other b hb).trans (h₁.lookup_other b hb)⟩

/-- What an address looks up after an update. -/
theorem Updates.lookupObject {a : Address} {o : StateObject} (h : Updates s s' a o) (b : Address) :
    s'.lookupObject b = if b = a then some o else s.lookupObject b := by
  by_cases hb : b = a
  · rw [if_pos hb, hb, h.lookup_self]
  · rw [if_neg hb, h.lookup_other b hb]

/-! ## Loading and writing objects -/

/-- {lit}`setStateObject` keeps a state well formed. -/
theorem WellFormed.setStateObject (hwf : s.WellFormed) (obj : StateObject) :
    (s.setStateObject obj).WellFormed where
  objectsAtHome a o h := by
    by_cases ha : a = obj.address
    · subst ha
      simp only [stateObjects_setStateObject, Function.update_self, Option.some.injEq] at h
      rw [← h]
    · rw [stateObjects_setStateObject, Function.update_of_ne ha] at h
      exact hwf.objectsAtHome a o h
  revisionsBelow := hwf.revisionsBelow

/-- {lit}`setStateObject` of a live object updates its address to it. -/
theorem updates_setStateObject (hwf : s.WellFormed) (obj : StateObject) (hdel : obj.deleted = false) :
    Updates s (s.setStateObject obj) obj.address obj where
  wellFormed := hwf.setStateObject obj
  lookup_self := by simp [lookupObject_setStateObject, hdel]
  lookup_other b hb := by rw [lookupObject_setStateObject, if_neg hb]

/-- {lit}`getStateObject` keeps every lookup, even when it loads from the trie. -/
theorem keeps_getStateObject (hwf : s.WellFormed) (a : Address) : Keeps s (s.getStateObject a).2 := by
  refine ⟨?_, fun b => lookupObject_getStateObject s a b⟩
  rcases s.getStateObject_snd a with h | ⟨obj, -, -, h⟩
  · rw [h]
    exact hwf
  · rw [h]
    exact hwf.setStateObject obj

/-- {lit}`Snapshot` keeps every lookup. -/
theorem keeps_Snapshot (hwf : s.WellFormed) : Keeps s s.Snapshot.2 :=
  ⟨hwf.Snapshot, fun _ => rfl⟩

/-- {lit}`Prepare` keeps every lookup. -/
theorem keeps_Prepare (hwf : s.WellFormed) (thash bhash : Hash) (ti : Nat) :
    Keeps s (s.Prepare thash bhash ti) :=
  (SameObjects.keeps ⟨rfl, rfl, rfl, rfl, rfl⟩ hwf)

/-! ## The getters -/

/-- A getter leaves the state as {lit}`getStateObject` does. -/
theorem GetBig_snd (f : BigField) (a : Address) : (s.GetBig f a).2 = (s.getStateObject a).2 := by
  unfold GetBig
  generalize s.getStateObject a = r
  obtain ⟨obj, s'⟩ := r
  cases obj <;> rfl

/-- A getter on a live object returns its field and changes no lookup. -/
theorem GetBig_of_lookup (hwf : s.WellFormed) {a : Address} {o : StateObject}
    (h : s.lookupObject a = some o) (f : BigField) :
    (s.GetBig f a).1 = o.data.getBig f ∧ Keeps s (s.GetBig f a).2 := by
  refine ⟨?_, ?_⟩
  · rw [GetBig_fst, h]
    rfl
  · rw [GetBig_snd]
    exact keeps_getStateObject hwf a

/-! ## The setters -/

/-- On a live object, {lit}`withObject` keeps what a change that only journals makes
of it, at its address. -/
theorem withObject_of_lookup (hwf : s.WellFormed) {a : Address} {o : StateObject}
    (h : s.lookupObject a = some o) {f : StateObject → StateDB → Option (StateObject × StateDB)}
    {o' : StateObject} {s₁ : StateDB} (hf : f o (s.getStateObject a).2 = some (o', s₁))
    (hsame : SameObjects (s.getStateObject a).2 s₁) (haddr : o'.address = a)
    (hdel : o'.deleted = false) :
    ∃ s', s.withObject a f = some s' ∧ Updates s s' a o' := by
  obtain ⟨hobj, hst⟩ := s.GetOrNewStateObject_of_lookup h
  refine ⟨s₁.setStateObject o', ?_, ?_⟩
  · rw [withObject_eq, hobj, hst, hf]
    rfl
  · -- loading keeps every lookup, the change only journals, and the write puts the object
    have hload := keeps_getStateObject hwf a
    have hwf₁ := hsame.wellFormed hload.wellFormed
    have hup := updates_setStateObject hwf₁ o' hdel
    rw [haddr] at hup
    exact (hload.trans (hsame.keeps hload.wellFormed)).updates hup

/-- A journaled big-integer setter on a live object whose field is defined. -/
theorem SetBig_of_lookup (hwf : s.WellFormed) {a : Address} {o : StateObject}
    (h : s.lookupObject a = some o) {f : BigField} {p : Int} (hp : o.data.getBig f = some p)
    (x : Option Int) : ∃ s', s.SetBig f a x = some s' ∧ Updates s s' a (o.setBig f x) := by
  have hf : (s.getStateObject a).2.setBigJournaled f o x =
      some (o.setBig f x, (s.getStateObject a).2.appendJournal (.bigChange f o.address p)) := by
    simp [setBigJournaled, hp]
  exact withObject_of_lookup hwf h hf (sameObjects_appendJournal _)
    (by simp [hwf.address_of_lookupObject h]) (by simp [s.deleted_of_lookupObject h])

/-- {lit}`AddBalance` on a live object with a balance: adding zero only touches it. -/
theorem AddBalance_of_lookup (hwf : s.WellFormed) {a : Address} {o : StateObject}
    (h : s.lookupObject a = some o) {b : Int} (hb : o.data.balance = some b) (x : Int) :
    ∃ s', s.AddBalance a (some x) = some s' ∧ Updates s s' a (o.setBig .balance (some (b + x))) := by
  have haddr := hwf.address_of_lookupObject h
  have hdel := s.deleted_of_lookupObject h
  by_cases hx : x = 0
  · -- the object is empty or not; either way only the journal changes
    subst hx
    have hself : o.setBig .balance (some (b + 0)) = o := by
      rw [Int.add_zero, ← hb]
      exact StateObject.setBig_getBig o .balance
    obtain ⟨e, he⟩ : ∃ e, o.empty s.db = some e := by
      simp [StateObject.empty, hb]
    rw [hself]
    have hf : objectAddBalance 0 o (s.getStateObject a).2 =
        some (o, if e then (s.getStateObject a).2.touch o else (s.getStateObject a).2) := by
      simp [objectAddBalance, he]
    have hsame : SameObjects (s.getStateObject a).2
        (if e then (s.getStateObject a).2.touch o else (s.getStateObject a).2) := by
      split
      · exact sameObjects_touch o
      · exact ⟨rfl, rfl, rfl, rfl, rfl⟩
    exact withObject_of_lookup hwf h hf hsame haddr hdel
  · have hf : objectAddBalance x o (s.getStateObject a).2 =
        some (o.setBig .balance (some (b + x)),
          (s.getStateObject a).2.appendJournal (.bigChange .balance o.address b)) := by
      simp [objectAddBalance, hx, hb, setBigJournaled, Account.getBig]
    exact withObject_of_lookup hwf h hf (sameObjects_appendJournal _) (by simp [haddr])
      (by simp [hdel])

/-- {lit}`SubBalance` on a live object with a balance. -/
theorem SubBalance_of_lookup (hwf : s.WellFormed) {a : Address} {o : StateObject}
    (h : s.lookupObject a = some o) {b : Int} (hb : o.data.balance = some b) (x : Int) :
    ∃ s', s.SubBalance a (some x) = some s' ∧ Updates s s' a (o.setBig .balance (some (b - x))) := by
  have haddr := hwf.address_of_lookupObject h
  have hdel := s.deleted_of_lookupObject h
  by_cases hx : x = 0
  · subst hx
    have hself : o.setBig .balance (some (b - 0)) = o := by
      rw [Int.sub_zero, ← hb]
      exact StateObject.setBig_getBig o .balance
    rw [hself]
    have hf : objectSubBalance 0 o (s.getStateObject a).2 = some (o, (s.getStateObject a).2) := by
      simp [objectSubBalance]
    exact withObject_of_lookup hwf h hf ⟨rfl, rfl, rfl, rfl, rfl⟩ haddr hdel
  · have hf : objectSubBalance x o (s.getStateObject a).2 =
        some (o.setBig .balance (some (b - x)),
          (s.getStateObject a).2.appendJournal (.bigChange .balance o.address b)) := by
      simp [objectSubBalance, hx, hb, setBigJournaled, Account.getBig]
    exact withObject_of_lookup hwf h hf (sameObjects_appendJournal _) (by simp [haddr])
      (by simp [hdel])

/-- {lit}`SetNonce` on a live object. -/
theorem SetNonce_of_lookup (hwf : s.WellFormed) {a : Address} {o : StateObject}
    (h : s.lookupObject a = some o) (n : UInt64) : Updates s (s.SetNonce a n) a (o.setNonce n) := by
  obtain ⟨hobj, hst⟩ := s.GetOrNewStateObject_of_lookup h
  have hload := keeps_getStateObject hwf a
  have hsame : SameObjects (s.getStateObject a).2
      ((s.getStateObject a).2.appendJournal (.nonceChange a o.data.nonce)) :=
    sameObjects_appendJournal _
  have hdel : (o.setNonce n).deleted = false := by
    have := s.deleted_of_lookupObject h
    exact this
  have hup := updates_setStateObject (hsame.wellFormed hload.wellFormed) (o.setNonce n) hdel
  rw [StateObject.address_setNonce, hwf.address_of_lookupObject h] at hup
  have hset : s.SetNonce a n =
      ((s.getStateObject a).2.appendJournal (.nonceChange a o.data.nonce)).setStateObject
        (o.setNonce n) := by
    unfold SetNonce
    rw [← hobj, ← hst]
  rw [hset]
  exact (hload.trans (hsame.keeps hload.wellFormed)).updates hup

/-- The unjournaled {lit}`SetUnDelegateTimestamp` on a live object. -/
theorem SetUnDelegateTimestamp_updates (hwf : s.WellFormed) {a : Address} {o : StateObject}
    (h : s.lookupObject a = some o) (t : Option Int) :
    Updates s (s.SetUnDelegateTimestamp a t) a (o.setUnDelegateTimestamp t) := by
  obtain ⟨hobj, hst⟩ := s.GetOrNewStateObject_of_lookup h
  have hload := keeps_getStateObject hwf a
  have hdel : (o.setUnDelegateTimestamp t).deleted = false := by
    have := s.deleted_of_lookupObject h
    exact this
  have hup := updates_setStateObject hload.wellFormed (o.setUnDelegateTimestamp t) hdel
  rw [StateObject.setUnDelegateTimestamp, StateObject.address_setBig,
    hwf.address_of_lookupObject h] at hup
  have hset : s.SetUnDelegateTimestamp a t =
      (s.getStateObject a).2.setStateObject (o.setUnDelegateTimestamp t) := by
    unfold SetUnDelegateTimestamp
    rw [← hobj, ← hst]
  rw [hset]
  exact hload.updates hup

end StateDB

end State
end Uranus
