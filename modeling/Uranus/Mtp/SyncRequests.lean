import Uranus.Mtp.SyncOrder

/-!
# The trie sync asks for each hash once

{lit}`schedule` puts a hash on the queue only when no request for it is pending, and
{lit}`children` asks only for hashes that are neither in the memory batch nor in the
database.  A hash once asked for stays pending until it is committed, and is known from
then on: the memory batch is written out to the database, which only grows.  So over a
whole run of a trie sync {lit}`Missing` never hands out a hash twice, and never one that
the database held when the sync started, but the root, which is asked for when its blob
does not decode.

The invariant {lit}`Asks` is about the hashes asked for: those on the queue and those
{lit}`Missing` has returned.  They are distinct, each is pending or known, and each is
the root or was not in the starting database.

Main results:

- Theorem {lit}`Sync.missingLoop_perm`: {lit}`Missing` moves hashes from the queue to
  its result.
- Theorem {lit}`Sync.run_NewSync_asks_once`: no hash is handed out twice.
-/

namespace Uranus
namespace Mtp
namespace Sync

open Lib

/-- The hashes {lit}`Missing` returns come off the queue: together with what is left on
the queue they are what was there. -/
theorem missingLoop_perm (max : Int) (acc : List Hash) (q : List (Hash × Nat)) :
    ((missingLoop max acc q).2.map Prod.fst ++ (missingLoop max acc q).1).Perm (q.map Prod.fst ++ acc) := by
  induction acc, q using missingLoop.induct max with
  | case1 acc q hc item q' hp ih =>
    rw [missingLoop, if_pos hc]
    split
    · next item' q'' hp' =>
      rw [hp, Option.some.injEq, Prod.mk.injEq] at hp'
      obtain ⟨rfl, rfl⟩ := hp'
      refine ih.trans ?_
      -- the item popped is the one that left the queue
      have hperm := (Heap.Pop_perm prio hp).map Prod.fst
      rw [← List.append_assoc]
      exact (List.perm_append_singleton _ _).trans (hperm.append_right acc)
    · next hp' => exact absurd (hp'.symm.trans hp) (by simp)
  | case2 acc q hc hp =>
    rw [missingLoop, if_pos hc]
    split
    · next _ _ hp' => exact absurd (hp'.symm.trans hp) (by simp)
    · exact List.Perm.refl _
  | case3 acc q hc =>
    rw [missingLoop, if_neg hc]

/-- What a trie sync has asked for, with {lit}`missed` the hashes {lit}`Missing` has
returned: the hashes queued or returned are distinct, each is pending or known, and
each is the root or was not in the database the sync started from, which it only adds
to. -/
structure Asks (database : KeyValueStore) (root : Hash) (s : Sync) (missed : List Hash) : Prop where
  nodup : (s.queue.map Prod.fst ++ missed).Nodup
  tracked : ∀ h ∈ s.queue.map Prod.fst ++ missed,
    (s.requests.lookup h).isSome ∨ (s.inBatch h || s.Has h) = true
  fresh : ∀ h ∈ s.queue.map Prod.fst ++ missed, h = root ∨ database h.bytes = none
  grows : ∀ k, (database k).isSome → (s.database k).isSome

section Asking

variable {database : KeyValueStore} {root : Hash}

/-- A state with the same queue and asked hashes, as many pending or known, and as much
in the database keeps what was asked for. -/
theorem Asks.mono {s s' : Sync} {missed missed' : List Hash} (hA : Asks database root s missed)
    (hperm : (s'.queue.map Prod.fst ++ missed').Perm (s.queue.map Prod.fst ++ missed))
    (hkeep : ∀ h, (s.requests.lookup h).isSome ∨ (s.inBatch h || s.Has h) = true →
      (s'.requests.lookup h).isSome ∨ (s'.inBatch h || s'.Has h) = true)
    (hdb : ∀ k, (s.database k).isSome → (s'.database k).isSome) : Asks database root s' missed' where
  nodup := hperm.nodup_iff.mpr hA.nodup
  tracked h hh := hkeep h (hA.tracked h (hperm.mem_iff.mp hh))
  fresh h hh := hA.fresh h (hperm.mem_iff.mp hh)
  grows k hk := hdb k (hA.grows k hk)

/-- Scheduling a hash that is neither in the memory batch nor in the database. -/
theorem Asks.schedule {s : Sync} {missed : List Hash} (hA : Asks database root s missed) {req : request}
    (hk : (s.inBatch req.hash || s.Has req.hash) = false) : Asks database root (s.schedule req) missed := by
  have hkeep : ∀ h, (s.requests.lookup h).isSome ∨ (s.inBatch h || s.Has h) = true →
      ((s.schedule req).requests.lookup h).isSome ∨ ((s.schedule req).inBatch h || (s.schedule req).Has h) = true := by
    intro h hh
    rw [inBatch_schedule, Has_schedule]
    exact hh.imp_left fun hp => isSome_lookup_schedule hp req
  cases hold : s.requests.lookup req.hash with
  | some old =>
    -- a pending hash only gains parents: the queue stays
    refine hA.mono ?_ hkeep fun k hk => by rw [schedule_database]; exact hk
    rw [queue_schedule_of_some hold]
  | none =>
    -- a new hash goes on the queue; it was asked for before only if pending or known
    have hnot : req.hash ∉ s.queue.map Prod.fst ++ missed := by
      intro hmem
      rcases hA.tracked _ hmem with hp | hp
      · rw [hold] at hp
        cases hp
      · rw [hk] at hp
        cases hp
    have hperm : ((s.schedule req).queue.map Prod.fst ++ missed).Perm
        (req.hash :: (s.queue.map Prod.fst ++ missed)) := by
      rw [queue_schedule_of_none hold]
      refine (((Heap.Push_perm prio _ _).map Prod.fst).append_right missed).trans ?_
      rw [List.map_append, List.map_singleton, List.append_assoc, List.singleton_append]
      exact List.perm_middle
    refine ⟨hperm.nodup_iff.mpr (List.nodup_cons.mpr ⟨hnot, hA.nodup⟩), fun h hh => ?_, fun h hh => ?_,
      fun k hk => by rw [schedule_database]; exact hA.grows k hk⟩
    · rcases List.mem_cons.mp (hperm.mem_iff.mp hh) with rfl | hh
      · exact .inl (isSome_lookup_schedule_self s _)
      · exact hkeep h (hA.tracked h hh)
    · rcases List.mem_cons.mp (hperm.mem_iff.mp hh) with rfl | hh
      · -- not in the database now, so not at the start
        refine .inr (Option.not_isSome_iff_eq_none.mp fun hd => ?_)
        have := hA.grows _ hd
        rw [Bool.or_eq_false_iff] at hk
        rw [Has, this] at hk
        cases hk.2
      · exact hA.fresh h hh

/-- Changing a pending request keeps what the sync asks. -/
theorem Asks.update {s : Sync} {missed : List Hash} (hA : Asks database root s missed) (p : Hash)
    (f : request → request) : Asks database root (s.update p f) missed := by
  refine hA.mono (by rw [update_queue]) (fun h hh => ?_) fun k hk => by rw [update_database]; exact hk
  rw [isSome_lookup_update, inBatch_update, Has_update]
  exact hh

/-- A commit moves a pending hash into the memory batch. -/
theorem Asks.commitWrite {s : Sync} {missed : List Hash} (hA : Asks database root s missed) (req : request) :
    Asks database root (s.commitWrite req) missed :=
  hA.mono (by rw [commitWrite_queue]) (fun _ hh => tracked_commitWrite s req hh) fun _ hk => hk

/-- Committing a ripe request keeps the sync sound and what it asks. -/
theorem Asks.commit {s : Sync} {missed : List Hash} (hA : Asks database root s missed) {req : request}
    {ow : List Hash} (hS : s.Sound ow) (hR : Ripe s req ow) :
    (s.commit req).Sound ow ∧ Asks database root (s.commit req) missed :=
  hS.commit_with (fun t => Asks database root t missed) (fun _ req _ _ _ hA => hA.commitWrite req)
    (fun _ p _ par _ hp hA => by
      rw [decParent_eq_update hp]
      exact hA.update p _) hR hA

/-- A {lit}`Commit` writes the memory batch to the database: whatever is known stays
known, written out or kept in the memory batch. -/
theorem Asks.Commit {s : Sync} {missed : List Hash} {ow : List Hash} (hA : Asks database root s missed)
    (hS : s.Sound ow) (failAt : Option Nat) : Asks database root (s.Commit failAt).2 missed := by
  refine hA.mono (by rw [Commit_queue]) (fun h hh => ?_) fun _ hk => isSome_database_Commit s failAt hk
  rw [Commit_requests]
  exact hh.imp_right (hS.toStored.known_Commit failAt)

variable {sha : Bytes → Hash}

/-- Processing a batch of results keeps what the sync asks, by induction on the results. -/
theorem Asks.processLoop {missed : List Hash} :
    ∀ (results : List SyncResult) {s : Sync} {i : Nat} {c : Bool}
      {out : Sync × Bool × Nat × Option SyncError},
      s.Sound [] → Asks database root s missed →
      Sync.processLoop sha none s results i c = some out → Asks database root out.1 missed
  | [], s, i, c, out, _, hA, h => by
    simp only [Sync.processLoop, Option.some.injEq] at h
    subst h
    exact hA
  | item :: results, s, i, c, out, hS, hA, h => by
    have hA1 : Asks database root (s.withData item) missed := hA.update item.Hash _
    rcases hS.processLoop_cons h with hout | ⟨_, rs, _, hrs, ⟨hS1, hR, h⟩ | ⟨hS4, h⟩⟩
    · rw [hout]
      exact hA
    · obtain ⟨hS2, hA2⟩ := hA1.commit hS1 hR
      exact Asks.processLoop results hS2 hA2 h
    · -- the children asked for are neither in the memory batch nor in the database
      have hA3 : Asks database root ((s.withData item).addDeps item.Hash rs.length) missed :=
        hA1.update item.Hash _
      have hA4 : Asks database root (rs.foldl Sync.schedule ((s.withData item).addDeps item.Hash rs.length))
          missed := by
        refine (List.foldlRecOn (motive := fun t => Asks database root t missed ∧
            t.inBatch = s.inBatch ∧ t.Has = s.Has) rs Sync.schedule
          ⟨hA3, by rw [inBatch_addDeps, inBatch_withData], by rw [Has_addDeps, Has_withData]⟩
          fun t ht r hr => ?_).1
        obtain ⟨htA, hti, hth⟩ := ht
        refine ⟨htA.schedule ?_, by rw [inBatch_schedule, hti], by rw [Has_schedule, hth]⟩
        rw [hti, hth]
        exact (hrs r hr).2.2.2
      exact Asks.processLoop results hS4 hA4 h

/-- Every call of a trie sync keeps what was asked for, the hashes {lit}`Missing` returns
added. -/
theorem Asks.step {s s' : Sync} {missed out : List Hash} (hS : s.Sound []) (hA : Asks database root s missed)
    (op : Op) (h : Sync.step sha none s op = some (s', out)) : Asks database root s' (missed ++ out) := by
  cases op with
  | Process results =>
    obtain ⟨r, hr, he⟩ := Option.map_eq_some_iff.mp h
    rw [Prod.mk.injEq] at he
    obtain ⟨rfl, rfl⟩ := he
    rw [List.append_nil]
    exact hA.processLoop results hS hr
  | Commit failAt =>
    simp only [Sync.step, Option.some.injEq, Prod.mk.injEq] at h
    obtain ⟨rfl, rfl⟩ := h
    rw [List.append_nil]
    exact hA.Commit hS failAt
  | Missing max =>
    simp only [Sync.step, Option.some.injEq, Prod.mk.injEq] at h
    obtain ⟨rfl, rfl⟩ := h
    -- the hashes handed out leave the queue
    have hperm := missingLoop_perm max [] s.queue
    rw [List.append_nil] at hperm
    refine hA.mono ?_ (fun _ hh => hh) fun _ hk => hk
    change ((missingLoop max [] s.queue).2.map Prod.fst ++ (missed ++ (missingLoop max [] s.queue).1)).Perm _
    rw [← List.append_assoc]
    refine (List.perm_append_comm.append_right _).trans ?_
    rw [List.append_assoc]
    refine (hperm.append_left missed).trans ?_
    exact List.perm_append_comm

/-- A whole run keeps what the sync asks, together with the hashes it returned. -/
theorem Asks.run (ops : List Op) {s s' : Sync} {missed out : List Hash} (hS : s.Sound [])
    (hA : Asks database root s missed) (h : Sync.run sha none ops s = some (s', out)) :
    Asks database root s' (missed ++ out) :=
  (run_induction (fun _ => True) (fun t M => t.Sound [] ∧ Asks database root t M)
    (fun _ hI h => ⟨hI.1.step _ h, hI.2.step hI.1 _ h⟩) ops (fun _ _ => trivial) ⟨hS, hA⟩ h).2

end Asking

/-- A new trie sync has queued nothing, or its root, which is pending. -/
theorem queue_NewSync (root : Hash) (database : KeyValueStore) :
    (NewSync none root database).queue = [] ∨
      (NewSync none root database).queue = [(root, 0)] ∧
        ((NewSync none root database).requests.lookup root).isSome := by
  unfold NewSync
  dsimp only
  unfold Sync.AddSubTrie
  split_ifs
  · exact .inl rfl
  · exact .inl rfl
  · split
    · exact .inl rfl
    · simp only [Sync.linkAndSchedule, ne_eq, not_true_eq_false, if_false, Option.getD_some]
      refine .inr ⟨by rw [queue_schedule_of_none (by rfl)]; exact Heap.up_zero prio _, ?_⟩
      exact isSome_lookup_schedule_self _ ⟨root, none, false, [], 0, 0, (none : Option SyncCallback).isSome⟩

/-- A new trie sync has asked for its root at most. -/
theorem asks_NewSync (root : Hash) (database : KeyValueStore) :
    Asks database root (NewSync none root database) [] := by
  have hgrows : ∀ k, (database k).isSome → ((NewSync none root database).database k).isSome := by
    intro k hk
    rw [NewSync_database]
    exact hk
  rcases queue_NewSync root database with hq | ⟨hq, hp⟩
  · refine ⟨by rw [hq]; exact List.nodup_nil, fun h hh => ?_, fun h hh => ?_, hgrows⟩ <;>
    · rw [hq] at hh
      cases hh
  · refine ⟨by rw [hq]; exact List.nodup_singleton root, fun h hh => ?_, fun h hh => ?_, hgrows⟩
    · rw [hq, List.map_singleton, List.append_nil, List.mem_singleton] at hh
      subst hh
      exact .inl hp
    · rw [hq, List.map_singleton, List.append_nil, List.mem_singleton] at hh
      exact .inl hh

/-- Over any run of a trie sync, whatever is delivered and committed in between,
{lit}`Missing` never hands out a hash twice, and never one the database held at the
start, but the root. -/
theorem run_NewSync_asks_once (sha : Bytes → Hash) (root : Hash) (database : KeyValueStore) (ops : List Op)
    {s : Sync} {missed : List Hash}
    (hrun : Sync.run sha none ops (NewSync none root database) = some (s, missed)) :
    missed.Nodup ∧ ∀ h ∈ missed, h ≠ root → database h.bytes = none := by
  have hA := Asks.run ops (sound_NewSync root database) (asks_NewSync root database) hrun
  rw [List.nil_append] at hA
  refine ⟨(List.nodup_append.mp hA.nodup).2.1, fun h hh hne => ?_⟩
  exact (hA.fresh h (List.mem_append_right _ hh)).resolve_left hne

/-- The run that fetches an extension node and its leaf asks for each of the two
once. -/
theorem run_NewSync_asks_once_ext :
    ∃ s, Sync.run (fun _ => Hash.zero) none extRun (NewSync none hashA fun _ => none) =
        some (s, [hashA, hashB]) ∧
      [hashA, hashB].Nodup ∧
        ∀ h ∈ [hashA, hashB], h ≠ hashA → (fun _ => none : KeyValueStore) h.bytes = none := by
  obtain ⟨⟨s, missed⟩, hrun, hmissed⟩ := Option.map_eq_some_iff.mp
    (show (Sync.run (fun _ => Hash.zero) none extRun (NewSync none hashA fun _ => none)).map
      Prod.snd = some [hashA, hashB] by decide +kernel)
  cases hmissed
  exact ⟨s, hrun, run_NewSync_asks_once (fun _ => Hash.zero) hashA (fun _ => none) extRun hrun⟩

end Sync
end Mtp
end Uranus
