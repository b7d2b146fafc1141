import Uranus.Mtp.SyncSpec

/-!
# The trie sync writes children before parents

The memory batch of {lit}`sync.go` keeps the order in which items completed, "to
prevent out-of-order data loss": {lit}`commit` moves a node to the memory batch only
once every child it waits for is there, and {lit}`Commit` writes the batch out in that
order.  So a writer that refuses a {lit}`Put` midway has still written each node after
its children, and the database never holds a node whose stored child is missing.

This is the trie sync without a leaf callback, {lit}`NewSync` with a nil callback:
every request is then a trie node.  A raw entry is written as it comes, and its bytes
may happen to decode as a node.

The invariant {lit}`Sound` adds to the bookkeeping of {lit}`SyncSpec` that no pending
request is raw or in the memory batch, that the memory batch holds the hashes of its
order, that each stored child of a delivered request is known or pending with the
request among its parents, and that the memory batch is ordered.

Main results:

- Theorem {lit}`Sync.closed_writeBatch`: writing nodes in an order where children come
  first keeps a database closed.
- Theorem {lit}`Sync.Sound.commit`: a commit keeps the invariant.
- Theorem {lit}`Sync.Sound.Commit`: so does a {lit}`Commit`, whole or cut off after any
  entry, through {lit}`Sync.Commit_eq`, which says what a {lit}`Commit` can do.
- Theorem {lit}`Sync.Sound.closed_run`: every run of a sound trie sync keeps its database
  closed.
- Theorem {lit}`Sync.run_NewSync_closed`: every run of a trie sync keeps the database
  closed and the memory batch ordered.
-/

namespace Uranus
namespace Mtp
namespace Sync

open Lib

/-! ## Stored children and closed databases -/

/-- The hash a child references, if it is a hash node. -/
def refHash : Node → Option Hash
  | .hash h => some h
  | _ => none

/-- The hashes of the stored children of a node: those {lit}`children` resolves or
schedules. -/
def childHashes : Node → List Hash
  | .short _ val _ => (refHash val).toList
  | .full cs _ => (nonNilIndices cs).filterMap fun i => refHash (cs i)
  | _ => []

/-- The hashes of a node's stored children are the hash references among what {lit}`children` visits. -/
theorem childHashes_of_childrenOf {req : request} {n : Node} {cs : List (Node × Nat)}
    (h : childrenOf req n = some cs) : childHashes n = cs.filterMap fun c => refHash c.1 := by
  cases n with
  | short key val flags =>
    simp only [childrenOf, Option.some.injEq] at h
    subst h
    cases val <;> rfl
  | full children flags =>
    simp only [childrenOf, Option.some.injEq] at h
    subst h
    simp [childHashes, List.filterMap_map]
  | nil => cases h
  | hash _ => cases h
  | value _ => cases h

/-- A database is closed when every node stored in it has its stored children there. -/
def Closed (db : KeyValueStore) : Prop :=
  ∀ h d n, db h.bytes = some d → decodeNode (some h) d 0 = .ok n →
    ∀ c ∈ childHashes n, (db c.bytes).isSome

/-- The empty database is closed. -/
theorem closed_empty : Closed fun _ => none := by
  intro h d n hd
  cases hd

/-- Writing a key keeps every key that was present. -/
theorem isSome_update {db : KeyValueStore} {k x : Bytes} (d : Bytes) (hx : (db x).isSome) :
    (Function.update db k (some d) x).isSome := by
  by_cases hk : x = k
  · subst hk
    simp
  · rw [Function.update_of_ne hk]
    exact hx

/-- Writing a node whose stored children are there keeps a database closed. -/
theorem Closed.update {db : KeyValueStore} (hdb : Closed db) {k : Hash} {d : Bytes}
    (hk : ∀ n, decodeNode (some k) d 0 = .ok n → ∀ c ∈ childHashes n, (db c.bytes).isSome) :
    Closed (Function.update db k.bytes (some d)) := by
  intro h d' n hh hdec c hc
  apply isSome_update
  by_cases hhk : h = k
  · subst hhk
    rw [Function.update_self, Option.some.injEq] at hh
    subst hh
    exact hk n hdec c hc
  · have hne : h.bytes ≠ k.bytes := fun he => hhk (Hash.ext he)
    rw [Function.update_of_ne hne] at hh
    exact hdb h d' n hh hdec c hc

/-- Writing a batch keeps every key that was present. -/
theorem writeBatch_isSome (batch : Hash → Option Bytes) :
    ∀ (keys : List Hash) (db : KeyValueStore) {x : Bytes}, (db x).isSome →
      (writeBatch batch keys db x).isSome
  | [], _, _, hx => hx
  | _ :: keys, _, _, hx => writeBatch_isSome batch keys _ (isSome_update _ hx)

/-- Every hash of a written batch is present afterwards. -/
theorem writeBatch_isSome_of_mem (batch : Hash → Option Bytes) :
    ∀ (keys : List Hash) (db : KeyValueStore) {c : Hash}, c ∈ keys →
      (writeBatch batch keys db c.bytes).isSome
  | k :: keys, db, c, hc => by
    rw [writeBatch]
    rcases List.mem_cons.mp hc with rfl | hc
    · exact writeBatch_isSome batch keys _ (by simp)
    · exact writeBatch_isSome_of_mem batch keys _ hc

/-- Writing nodes in an order where each node's stored children are in the database or
earlier in the list keeps a database closed, after any prefix of the list. -/
theorem closed_writeBatch (batch : Hash → Option Bytes) :
    ∀ (keys : List Hash) (db : KeyValueStore), Closed db →
      (∀ j (hj : j < keys.length) n,
        decodeNode (some keys[j]) ((batch keys[j]).getD []) 0 = .ok n →
          ∀ c ∈ childHashes n, c ∈ keys.take j ∨ (db c.bytes).isSome) →
      Closed (writeBatch batch keys db)
  | [], _, hdb, _ => hdb
  | k :: keys, db, hdb, hord => by
    rw [writeBatch]
    apply closed_writeBatch batch keys
    · -- the first node needs its children in the database already
      apply hdb.update
      intro n hn c hc
      rcases hord 0 (Nat.zero_lt_succ _) n hn c hc with h | h
      · simp at h
      · exact h
    · intro j hj n hn c hc
      rcases hord (j + 1) (Nat.succ_lt_succ hj) n hn c hc with h | h
      · rw [List.take_succ_cons, List.mem_cons] at h
        rcases h with rfl | h
        · exact .inr (by simp)
        · exact .inl h
      · exact .inr (isSome_update _ h)

/-! ## The invariant -/

/-- The memory batch is ordered when each node in it has its stored children in the
database or before it in the order. -/
def Ordered (s : Sync) : Prop :=
  ∀ j (hj : j < s.membatch.order.length) n,
    decodeNode (some s.membatch.order[j]) ((s.membatch.batch s.membatch.order[j]).getD []) 0 =
        .ok n →
      ∀ c ∈ childHashes n, c ∈ s.membatch.order.take j ∨ s.Has c

/-- A pending request at {lit}`c` points to {lit}`p`. -/
def Linked (s : Sync) (c p : Hash) : Prop :=
  ∃ rc, s.requests.lookup c = some rc ∧ p ∈ rc.parents

/-- A child of {lit}`h` is covered when it is known, in the memory batch or in the
database, or pending and pointing to {lit}`h`. -/
def Covered (s : Sync) (h c : Hash) : Prop :=
  (s.inBatch c || s.Has c) = true ∨ s.Linked c h

/-- Every stored child of the request at {lit}`h`, once delivered, is covered. -/
def Waits (s : Sync) (h : Hash) : Prop :=
  ∀ r d, s.requests.lookup h = some r → r.data = some d →
    ∀ n, decodeNode (some h) d 0 = .ok n → ∀ c ∈ childHashes n, s.Covered h c

/-- What the trie sync keeps of its memory batch: no pending request is raw or in the
memory batch, the memory batch holds exactly the hashes of its order, and the order puts
children first. -/
structure Stored (s : Sync) : Prop where
  raw : ∀ h r, s.requests.lookup h = some r → r.raw = false
  fresh : ∀ h r, s.requests.lookup h = some r → s.inBatch h = false
  batch : ∀ h, s.inBatch h = true ↔ h ∈ s.membatch.order
  ordered : s.Ordered

/-- The invariant of the trie sync, with the references in {lit}`ow` still owed. -/
structure Sound (s : Sync) (ow : List Hash) : Prop extends s.Stored where
  books : s.Books ow
  waits : ∀ h, s.Waits h

/-! ## Reads of the memory batch and the database -/

@[simp] theorem inBatch_schedule (s : Sync) (req : request) : (s.schedule req).inBatch = s.inBatch := by
  funext h
  simp [inBatch]

@[simp] theorem Has_schedule (s : Sync) (req : request) : (s.schedule req).Has = s.Has := by
  funext h
  simp [Has]

@[simp] theorem inBatch_update (s : Sync) (p : Hash) (f : request → request) :
    (s.update p f).inBatch = s.inBatch := by
  funext h
  simp [inBatch]

@[simp] theorem Has_update (s : Sync) (p : Hash) (f : request → request) :
    (s.update p f).Has = s.Has := by
  funext h
  simp [Has]

@[simp] theorem Has_commitWrite (s : Sync) (req : request) : (s.commitWrite req).Has = s.Has := rfl

/-- A commit puts its request into the memory batch. -/
theorem inBatch_commitWrite_self (s : Sync) (req : request) :
    (s.commitWrite req).inBatch req.hash = true := by
  simp [inBatch]

/-- A commit changes the memory batch only at its request. -/
theorem inBatch_commitWrite_of_ne (s : Sync) (req : request) {h : Hash} (hh : h ≠ req.hash) :
    (s.commitWrite req).inBatch h = s.inBatch h := by
  simp [inBatch, Function.update_of_ne hh]

/-- A commit keeps what was in the memory batch. -/
theorem inBatch_commitWrite (s : Sync) (req : request) {h : Hash} (hh : s.inBatch h = true) :
    (s.commitWrite req).inBatch h = true := by
  by_cases hr : h = req.hash
  · subst hr
    exact inBatch_commitWrite_self s req
  · rw [inBatch_commitWrite_of_ne s req hr]
    exact hh

/-- A commit writes its request into the memory batch and keeps what was known. -/
theorem known_commitWrite (s : Sync) (req : request) {h : Hash}
    (hh : (s.inBatch h || s.Has h) = true ∨ h = req.hash) :
    ((s.commitWrite req).inBatch h || (s.commitWrite req).Has h) = true := by
  rw [Has_commitWrite]
  rcases hh with hk | rfl
  · rcases Bool.or_eq_true _ _ ▸ hk with hk | hk
    · rw [inBatch_commitWrite s req hk, Bool.true_or]
    · rw [hk, Bool.or_true]
  · rw [inBatch_commitWrite_self, Bool.true_or]

/-- What is pending or known stays so through a commit. -/
theorem tracked_commitWrite (s : Sync) (req : request) {h : Hash}
    (hh : (s.requests.lookup h).isSome ∨ (s.inBatch h || s.Has h) = true) :
    ((s.commitWrite req).requests.lookup h).isSome ∨
      ((s.commitWrite req).inBatch h || (s.commitWrite req).Has h) = true := by
  by_cases hr : h = req.hash
  · exact .inr (known_commitWrite s req (.inr hr))
  · rw [commitWrite_requests, AList.lookup_erase_ne hr]
    exact hh.imp_right fun hk => known_commitWrite s req (.inl hk)

/-- The order reads only the memory batch and what the database has. -/
theorem Ordered.mono {s s' : Sync} (hs : s.Ordered) (hm : s'.membatch = s.membatch)
    (hhas : ∀ c, s.Has c = true → s'.Has c = true) : s'.Ordered := by
  obtain ⟨db', mb', rq', q'⟩ := s'
  dsimp only at hm
  subst hm
  intro j hj n hn c hc
  exact (hs j hj n hn c hc).imp id (hhas c)

/-! ## What each operation does to a cover -/

/-- Scheduling keeps every pointer from a pending request to a parent. -/
theorem Linked.schedule {s : Sync} {c p : Hash} (hl : s.Linked c p) (req : request) :
    (s.schedule req).Linked c p := by
  obtain ⟨rc, hrc, hp⟩ := hl
  by_cases hc : c = req.hash
  · subst hc
    exact ⟨_, lookup_schedule_of_some hrc, List.mem_append_left _ hp⟩
  · exact ⟨rc, by rw [lookup_schedule_ne s req hc]; exact hrc, hp⟩

/-- A scheduled request points to each of its parents. -/
theorem linked_schedule (s : Sync) {req : request} {p : Hash} (hp : p ∈ req.parents) :
    (s.schedule req).Linked req.hash p := by
  cases hold : s.requests.lookup req.hash with
  | none => exact ⟨req, lookup_schedule_of_none hold, hp⟩
  | some old => exact ⟨_, lookup_schedule_of_some hold, List.mem_append_right _ hp⟩

/-- A write through a pointer that keeps the parents keeps every pointer. -/
theorem Linked.update {s : Sync} {c q : Hash} (hl : s.Linked c q) (p : Hash) {f : request → request}
    (hpar : ∀ r, (f r).parents = r.parents) : (s.update p f).Linked c q := by
  obtain ⟨rc, hrc, hq⟩ := hl
  by_cases hc : c = p
  · subst hc
    refine ⟨f rc, ?_, by rw [hpar]; exact hq⟩
    rw [lookup_update, if_pos rfl, hrc]
    rfl
  · exact ⟨rc, by rw [lookup_update, if_neg hc]; exact hrc, hq⟩

/-- Scheduling keeps every pending request pending. -/
theorem isSome_lookup_schedule {s : Sync} {k : Hash} (hk : (s.requests.lookup k).isSome)
    (req : request) : ((s.schedule req).requests.lookup k).isSome := by
  by_cases hkr : k = req.hash
  · subst hkr
    obtain ⟨old, hold⟩ := Option.isSome_iff_exists.mp hk
    rw [lookup_schedule_of_some hold]
    rfl
  · rw [lookup_schedule_ne s req hkr]
    exact hk

/-- A scheduled request is pending. -/
theorem isSome_lookup_schedule_self (s : Sync) (req : request) :
    ((s.schedule req).requests.lookup req.hash).isSome := by
  cases hold : s.requests.lookup req.hash with
  | none =>
    rw [lookup_schedule_of_none hold]
    rfl
  | some old =>
    rw [lookup_schedule_of_some hold]
    rfl

/-- A write through a pointer changes no request from pending to absent or back. -/
theorem isSome_lookup_update (s : Sync) (p : Hash) (f : request → request) (k : Hash) :
    ((s.update p f).requests.lookup k).isSome = (s.requests.lookup k).isSome := by
  rw [lookup_update]
  split_ifs with hk
  · subst hk
    cases s.requests.lookup k <;> rfl
  · rfl

/-- Scheduling keeps every cover. -/
theorem Covered.schedule {s : Sync} {h c : Hash} (hc : s.Covered h c) (req : request) :
    (s.schedule req).Covered h c := by
  rcases hc with hk | hl
  · left
    rw [inBatch_schedule, Has_schedule]
    exact hk
  · exact .inr (hl.schedule req)

/-- A write through a pointer that keeps the parents keeps every cover. -/
theorem Covered.update {s : Sync} {h c : Hash} (hc : s.Covered h c) (p : Hash) {f : request → request}
    (hpar : ∀ r, (f r).parents = r.parents) : (s.update p f).Covered h c := by
  rcases hc with hk | hl
  · left
    rw [inBatch_update, Has_update]
    exact hk
  · exact .inr (hl.update p hpar)

/-- A commit keeps every cover but those through the request written, which is then in
the memory batch. -/
theorem Covered.commitWrite {s : Sync} {h c : Hash} (hc : s.Covered h c) (req : request) :
    (s.commitWrite req).Covered h c := by
  rcases hc with hk | ⟨rc, hrc, hh⟩
  · exact .inl (known_commitWrite s req (.inl hk))
  · by_cases hcr : c = req.hash
    · exact .inl (known_commitWrite s req (.inr hcr))
    · exact .inr ⟨rc, by rw [commitWrite_requests, AList.lookup_erase_ne hcr]; exact hrc, hh⟩

/-- Scheduling a request that has no data yet keeps the stored children of every
delivered request covered. -/
theorem Waits.schedule {s : Sync} {h : Hash} (hw : s.Waits h) {req : request} (hnone : req.data = none) :
    (s.schedule req).Waits h := by
  intro r d hr hd n hn c hc
  apply Covered.schedule
  by_cases hh : h = req.hash
  · subst hh
    cases hold : s.requests.lookup req.hash with
    | none =>
      rw [lookup_schedule_of_none hold, Option.some.injEq] at hr
      subst hr
      rw [hnone] at hd
      cases hd
    | some old =>
      rw [lookup_schedule_of_some hold, Option.some.injEq] at hr
      subst hr
      exact hw old d hold hd n hn c hc
  · rw [lookup_schedule_ne s req hh] at hr
    exact hw r d hr hd n hn c hc

/-- A write through a pointer that keeps the parents keeps every cover, and keeps what
the written request waits for if it keeps its data. -/
theorem Waits.update {s : Sync} {h : Hash} (hw : s.Waits h) (p : Hash) {f : request → request}
    (hpar : ∀ r, (f r).parents = r.parents) (hdata : h = p → ∀ r, (f r).data = r.data) :
    (s.update p f).Waits h := by
  intro r d hr hd n hn c hc
  apply Covered.update _ p hpar
  rw [lookup_update] at hr
  split_ifs at hr with hh
  · obtain ⟨r0, hr0, rfl⟩ := Option.map_eq_some_iff.mp hr
    rw [hdata hh] at hd
    subst hh
    exact hw r0 d hr0 hd n hn c hc
  · exact hw r d hr hd n hn c hc

/-- Scheduling a node request whose hash is not in the memory batch keeps what the sync keeps of its batch. -/
theorem Stored.schedule {s : Sync} (hs : s.Stored) {req : request} (hraw : req.raw = false)
    (hfresh : s.inBatch req.hash = false) : (s.schedule req).Stored where
  raw h r hr := by
    by_cases hh : h = req.hash
    · subst hh
      cases hold : s.requests.lookup req.hash with
      | none =>
        rw [lookup_schedule_of_none hold, Option.some.injEq] at hr
        subst hr
        exact hraw
      | some old =>
        rw [lookup_schedule_of_some hold, Option.some.injEq] at hr
        subst hr
        exact hs.raw _ old hold
    · rw [lookup_schedule_ne s req hh] at hr
      exact hs.raw h r hr
  fresh h r hr := by
    rw [inBatch_schedule]
    by_cases hh : h = req.hash
    · subst hh
      exact hfresh
    · rw [lookup_schedule_ne s req hh] at hr
      exact hs.fresh h r hr
  batch h := by
    rw [inBatch_schedule, schedule_membatch]
    exact hs.batch h
  ordered := hs.ordered.mono (schedule_membatch s req) fun c hc => by rw [Has_schedule]; exact hc

/-- A write through a pointer that keeps the raw flags keeps what the sync keeps of its batch. -/
theorem Stored.update {s : Sync} (hs : s.Stored) (p : Hash) {f : request → request}
    (hraw : ∀ r, (f r).raw = r.raw) : (s.update p f).Stored where
  raw h r hr := by
    rw [lookup_update] at hr
    split_ifs at hr with hh
    · obtain ⟨r0, hr0, rfl⟩ := Option.map_eq_some_iff.mp hr
      rw [hraw]
      exact hs.raw _ r0 hr0
    · exact hs.raw h r hr
  fresh h r hr := by
    rw [inBatch_update]
    rw [lookup_update] at hr
    split_ifs at hr with hh
    · obtain ⟨r0, hr0, rfl⟩ := Option.map_eq_some_iff.mp hr
      subst hh
      exact hs.fresh _ r0 hr0
    · exact hs.fresh h r hr
  batch h := by
    rw [inBatch_update, update_membatch]
    exact hs.batch h
  ordered := hs.ordered.mono (update_membatch s p f) fun c hc => by rw [Has_update]; exact hc

/-! ## Commits -/

/-- A request may be committed when it may be for the bookkeeping and carries the data
delivered for the pending request. -/
def Ripe (s : Sync) (req : request) (ow : List Hash) : Prop :=
  CommitReady s req ow ∧ ∃ r d, s.requests.lookup req.hash = some r ∧ r.data = some d ∧ req.data = some d

/-- Appending a node to the memory batch keeps it ordered when the node is new and its
stored children are in the memory batch or the database. -/
theorem Ordered.append {s s' : Sync} (hs : s.Ordered) {k : Hash} {v : Bytes}
    (hm : s'.membatch = ⟨Function.update s.membatch.batch k (some v), s.membatch.order ++ [k]⟩)
    (hdb : s'.database = s.database) (hk : k ∉ s.membatch.order)
    (hv : ∀ n, decodeNode (some k) v 0 = .ok n → ∀ c ∈ childHashes n, c ∈ s.membatch.order ∨ s.Has c) :
    s'.Ordered := by
  obtain ⟨db', mb', rq', q'⟩ := s'
  dsimp only at hm hdb
  subst hm hdb
  intro j hj n hn c hc
  dsimp only at hj hn ⊢
  rcases Nat.lt_or_ge j s.membatch.order.length with hj' | hj'
  · -- an entry that was there keeps its place and its data
    have hne : s.membatch.order[j] ≠ k := fun he => hk (he ▸ List.getElem_mem hj')
    simp only [List.getElem_append_left hj', Function.update_of_ne hne] at hn
    rw [List.take_append_of_le_length hj'.le]
    exact hs j hj' n hn c hc
  · -- the new entry is the last one
    have hjeq : j = s.membatch.order.length := by
      rw [List.length_append, List.length_singleton] at hj
      omega
    subst hjeq
    simp only [List.getElem_append_right (le_refl _), Nat.sub_self, List.getElem_cons_zero,
      Function.update_self, Option.getD_some] at hn
    rw [List.take_left' rfl]
    exact hv n hn c hc

/-- Committing a ripe request keeps the invariant, with the request's parents now owed a reference. -/
theorem Sound.commitWrite {s : Sync} {req : request} {ow : List Hash} (hS : s.Sound ow)
    (hR : Ripe s req ow) : (s.commitWrite req).Sound (req.parents ++ ow) := by
  have hB := hS.books.commitWrite hR.1
  obtain ⟨⟨r', hr', -, hfree⟩, r, d, hr, hrd, hreqd⟩ := hR
  have hnot : req.hash ∉ s.membatch.order := fun hm => by
    have hin := (hS.batch req.hash).mpr hm
    rw [hS.fresh _ r hr] at hin
    cases hin
  -- nothing points to the request written, so its children are all known
  have hknown : ∀ n, decodeNode (some req.hash) (req.data.getD []) 0 = .ok n →
      ∀ c ∈ childHashes n, c ∈ s.membatch.order ∨ s.Has c := by
    intro n hn c hc
    rw [hreqd, Option.getD_some] at hn
    rcases hS.waits req.hash r d hr hrd n hn c hc with hk | ⟨rc, hrc, hmem⟩
    · rcases Bool.or_eq_true _ _ ▸ hk with hk | hk
      · exact .inl ((hS.batch c).mp hk)
      · exact .inr hk
    · have := links_pos_of_mem hrc hmem
      omega
  have hpend : ∀ h r0, (s.commitWrite req).requests.lookup h = some r0 →
      h ≠ req.hash ∧ s.requests.lookup h = some r0 := by
    intro h r0 hr0
    rw [commitWrite_requests] at hr0
    by_cases hh : h = req.hash
    · subst hh
      simp at hr0
    · rw [AList.lookup_erase_ne hh] at hr0
      exact ⟨hh, hr0⟩
  refine ⟨⟨fun h r0 hr0 => ?_, fun h r0 hr0 => ?_, fun h => ?_, ?_⟩, hB, fun h => ?_⟩
  · exact hS.raw h r0 (hpend h r0 hr0).2
  · obtain ⟨hh, hr0⟩ := hpend h r0 hr0
    rw [inBatch_commitWrite_of_ne s req hh]
    exact hS.fresh h r0 hr0
  · rw [commitWrite_order, List.mem_append, List.mem_singleton]
    by_cases hh : h = req.hash
    · subst hh
      simp [inBatch_commitWrite_self]
    · rw [inBatch_commitWrite_of_ne s req hh, hS.batch h]
      simp [hh]
  · exact hS.ordered.append rfl rfl hnot hknown
  · intro r0 d0 hr0 hd0 n hn c hc
    obtain ⟨-, hr0⟩ := hpend h r0 hr0
    exact (hS.waits h r0 d0 hr0 hd0 n hn c hc).commitWrite req

/-- {lit}`decParent` is a write through the pointer to the parent that lowers its count. -/
theorem decParent_eq_update {s : Sync} {p : Hash} {par : request} (hp : s.requests.lookup p = some par) :
    Sync.decParent s p par = s.update p fun r => { r with deps := r.deps - 1 } := by
  simp [Sync.decParent, Sync.update, hp]

/-- Paying one owed reference to a parent keeps the invariant, and the parent is ripe once its count reaches zero. -/
theorem Sound.decParent {s : Sync} {p : Hash} {ow : List Hash} {par : request}
    (hS : s.Sound (p :: ow)) (hp : s.requests.lookup p = some par) :
    (Sync.decParent s p par).Sound ow ∧
      (par.deps - 1 = 0 → Ripe (Sync.decParent s p par) { par with deps := par.deps - 1 } ow) := by
  obtain ⟨hB, hC⟩ := hS.books.decParent hp
  have hpar : par.hash = p := hS.books.hash p par hp
  rw [decParent_eq_update hp] at hB hC ⊢
  refine ⟨⟨hS.toStored.update p fun _ => rfl, hB, fun h => (hS.waits h).update p (fun _ => rfl)
    fun _ _ => rfl⟩, fun hz => ⟨hC hz, ?_⟩⟩
  -- a parent owed a reference has its data
  obtain ⟨r, hr, hd⟩ := hS.books.owed p List.mem_cons_self
  rw [hp, Option.some.injEq] at hr
  subst hr
  obtain ⟨d, hd⟩ := Option.isSome_iff_exists.mp hd
  refine ⟨{ par with deps := par.deps - 1 }, d, ?_, hd, hd⟩
  rw [lookup_update, if_pos hpar, hp]
  rfl

/-- A commit keeps the invariant of the trie sync, and any property of the state that the
write of a committable request and the decrement of a parent keep. -/
theorem Sound.commit_with (P : Sync → Prop)
    (write : ∀ s req ow, s.Sound ow → Ripe s req ow → P s → P (s.commitWrite req))
    (dec : ∀ s p ow par, s.Sound (p :: ow) → s.requests.lookup p = some par → P s →
      P (Sync.decParent s p par))
    {s : Sync} {req : request} {ow : List Hash} (hS : s.Sound ow) (hR : Ripe s req ow) (hP : P s) :
    (s.commit req).Sound ow ∧ P (s.commit req) := by
  refine commitFuel_induction (fun s ow => s.Sound ow ∧ P s) Ripe
    (fun s req ow hI hR => ⟨hI.1.commitWrite hR, write s req ow hI.1 hR hI.2⟩)
    (fun _ _ _ ⟨⟨r, hr, _⟩, _⟩ => by rw [hr]; rfl) (fun _ p _ hI hp => ?_)
    (fun s p ow par hI hp => ⟨⟨(hI.1.decParent hp).1, dec s p ow par hI.1 hp hI.2⟩,
      (hI.1.decParent hp).2⟩)
    _ s req ow (Nat.lt_succ_self _) ⟨hS, hP⟩ hR
  -- an owed parent is pending
  obtain ⟨r, hr, -⟩ := hI.1.books.owed p List.mem_cons_self
  rw [hr] at hp
  cases hp

/-- A commit keeps the invariant of the trie sync. -/
theorem Sound.commit {s : Sync} {req : request} {ow : List Hash} (hS : s.Sound ow)
    (hR : Ripe s req ow) : (s.commit req).Sound ow :=
  (hS.commit_with (fun _ => True) (fun _ _ _ _ _ _ => trivial) (fun _ _ _ _ _ _ _ => trivial) hR
    trivial).1

/-! ## Writes to the database -/

/-- The invariant reads the pending requests, the memory batch and the database only. -/
theorem Sound.of_eq {s s' : Sync} {ow : List Hash} (hS : s.Sound ow) (hr : s'.requests = s.requests)
    (hm : s'.membatch = s.membatch) (hd : s'.database = s.database) : s'.Sound ow := by
  obtain ⟨db, mb, rq, q⟩ := s
  obtain ⟨db', mb', rq', q'⟩ := s'
  dsimp only at hr hm hd
  subst hr hm hd
  exact ⟨⟨hS.raw, hS.fresh, hS.batch, hS.ordered⟩, hS.books.of_requests_eq rfl, hS.waits⟩

/-- The first {lit}`i` entries of an ordered memory batch have their children in the
database or before them. -/
theorem Ordered.take {s : Sync} (hs : s.Ordered) (i : Nat) :
    ∀ j (hj : j < (s.membatch.order.take i).length) n,
      decodeNode (some (s.membatch.order.take i)[j])
          ((s.membatch.batch (s.membatch.order.take i)[j]).getD []) 0 = .ok n →
        ∀ c ∈ childHashes n, c ∈ (s.membatch.order.take i).take j ∨ (s.database c.bytes).isSome := by
  intro j hj n hn c hc
  have hji : j < i := by
    rw [List.length_take] at hj
    omega
  have hj' : j < s.membatch.order.length := by
    rw [List.length_take] at hj
    omega
  rw [List.getElem_take] at hn
  rw [List.take_take, Nat.min_eq_left hji.le]
  exact hs j hj' n hn c hc

/-- What a {lit}`Commit` can do: write the first {lit}`i` entries of the memory batch,
when a refused {lit}`Put` cuts it off, or write all of it and drop it. -/
theorem Commit_eq (s : Sync) (failAt : Option Nat) :
    (∃ i, (s.Commit failAt).2 =
      { s with database := writeBatch s.membatch.batch (s.membatch.order.take i) s.database }) ∨
    (s.Commit failAt).2 =
      { s with
        database := writeBatch s.membatch.batch s.membatch.order s.database
        membatch := newSyncMemBatch } := by
  unfold Sync.Commit
  dsimp only
  split
  · next i =>
    split
    · exact .inl ⟨i, rfl⟩
    · exact .inr rfl
  · exact .inr rfl

/-- A {lit}`Commit` drops nothing from the database. -/
theorem isSome_database_Commit (s : Sync) (failAt : Option Nat) {k : Bytes} (hk : (s.database k).isSome) :
    ((s.Commit failAt).2.database k).isSome := by
  rcases Commit_eq s failAt with ⟨i, he⟩ | he <;> rw [he] <;> exact writeBatch_isSome _ _ _ hk

/-- Whatever is in the memory batch or the database stays in one of them through a
{lit}`Commit`: written out, or kept in the memory batch when the write is cut off. -/
theorem Stored.known_Commit {s : Sync} (hs : s.Stored) (failAt : Option Nat) {h : Hash}
    (hk : (s.inBatch h || s.Has h) = true) :
    ((s.Commit failAt).2.inBatch h || (s.Commit failAt).2.Has h) = true := by
  rcases Commit_eq s failAt with ⟨i, he⟩ | he <;> rw [he] <;> rcases Bool.or_eq_true _ _ ▸ hk with hk | hk
  · exact Bool.or_eq_true _ _ ▸ .inl hk
  · exact Bool.or_eq_true _ _ ▸ .inr (writeBatch_isSome _ _ _ hk)
  · exact Bool.or_eq_true _ _ ▸ .inr (writeBatch_isSome_of_mem _ _ _ ((hs.batch h).mp hk))
  · exact Bool.or_eq_true _ _ ▸ .inr (writeBatch_isSome _ _ _ hk)

/-- A {lit}`Commit` keeps what the sync keeps of its memory batch. -/
theorem Stored.Commit {s : Sync} (hs : s.Stored) (failAt : Option Nat) : (s.Commit failAt).2.Stored := by
  rcases Commit_eq s failAt with ⟨i, he⟩ | he <;> rw [he]
  · -- a cut-off write keeps the memory batch and only adds to the database
    exact ⟨hs.raw, hs.fresh, hs.batch, hs.ordered.mono rfl fun c hc => writeBatch_isSome _ _ _ hc⟩
  · -- a whole write leaves the memory batch empty
    exact ⟨hs.raw, fun _ _ _ => rfl, fun h => by simp [inBatch, newSyncMemBatch],
      fun j hj => by simp [newSyncMemBatch] at hj⟩

/-- A {lit}`Commit` keeps every cover: what leaves the memory batch is in the database. -/
theorem Covered.Commit {s : Sync} {h c : Hash} (hs : s.Stored) (hc : s.Covered h c) (failAt : Option Nat) :
    (s.Commit failAt).2.Covered h c := by
  rcases hc with hk | hl
  · exact .inl (hs.known_Commit failAt hk)
  · right
    unfold Linked
    rw [Commit_requests]
    exact hl

/-- A {lit}`Commit` keeps the invariant of the trie sync. -/
theorem Sound.Commit {s : Sync} {ow : List Hash} (hS : s.Sound ow) (failAt : Option Nat) :
    (s.Commit failAt).2.Sound ow := by
  refine ⟨hS.toStored.Commit failAt, hS.books.of_requests_eq (Commit_requests s failAt), ?_⟩
  intro h r d hr hd n hn c hc
  rw [Commit_requests] at hr
  exact (hS.waits h r d hr hd n hn c hc).Commit hS.toStored failAt

/-- A {lit}`Commit`, whole or cut off by a refused {lit}`Put`, keeps the database closed:
the memory batch is written in its order. -/
theorem Closed.Commit {s : Sync} (hdb : Closed s.database) (hs : s.Ordered) (failAt : Option Nat) :
    Closed (s.Commit failAt).2.database := by
  rcases Commit_eq s failAt with ⟨i, h⟩ | h <;> rw [h]
  · exact closed_writeBatch _ _ _ hdb (hs.take i)
  · exact closed_writeBatch _ _ _ hdb hs

/-! ## Delivering nodes -/

section Trie

variable {sha : Bytes → Hash}

/-- Without a callback, {lit}`leafCallback` leaves the sync as it is. -/
theorem leafCallback_none (s : Sync) (req : request) (child : Node) :
    leafCallback sha none s req child = some (s, none) := by
  unfold Sync.leafCallback
  cases req.callback <;> rfl

/-- What {lit}`children` asks for, without a callback: a request under the delivered
node, not raw, with no data, for a hash neither the memory batch nor the database holds. -/
def Asked (s : Sync) (R : Hash) (r : request) : Prop :=
  ChildRequest R r ∧ r.raw = false ∧ r.data = none ∧ (s.inBatch r.hash || s.Has r.hash) = false

/-- Without a callback {lit}`childrenLoop` leaves the sync as it is and asks for each hash
child that is neither in the memory batch nor in the database. -/
theorem childrenLoop_none (s : Sync) (req : request) (cs : List (Node × Nat)) (acc : List request) :
    ∃ rs, Sync.childrenLoop sha none s req cs acc = some (s, .ok (acc ++ rs)) ∧
      (∀ r ∈ rs, s.Asked req.hash r) ∧
      ∀ c ∈ cs.filterMap (fun x => refHash x.1), (s.inBatch c || s.Has c) = true ∨ ∃ r ∈ rs, r.hash = c := by
  induction cs generalizing acc with
  | nil => exact ⟨[], by simp [Sync.childrenLoop], by simp, by simp⟩
  | cons x cs ih =>
    obtain ⟨child, depth⟩ := x
    rw [Sync.childrenLoop, leafCallback_none]
    dsimp only
    cases child
    case hash h =>
      dsimp only
      by_cases hk : (s.inBatch h || s.Has h) = true
      · rw [if_pos hk]
        obtain ⟨rs, hrun, hrs, hcov⟩ := ih acc
        refine ⟨rs, hrun, hrs, fun c hc => ?_⟩
        simp only [List.filterMap_cons, refHash, List.mem_cons] at hc
        rcases hc with rfl | hc
        · exact .inl hk
        · exact hcov c hc
      · rw [if_neg hk]
        obtain ⟨rs, hrun, hrs, hcov⟩ := ih (acc ++ [⟨h, none, false, [req.hash], depth, 0, req.callback⟩])
        refine ⟨⟨h, none, false, [req.hash], depth, 0, req.callback⟩ :: rs, by simpa using hrun,
          fun r hr => ?_, fun c hc => ?_⟩
        · rcases List.mem_cons.mp hr with rfl | hr
          · exact ⟨⟨rfl, rfl⟩, rfl, rfl, Bool.eq_false_iff.mpr hk⟩
          · exact hrs r hr
        · simp only [List.filterMap_cons, refHash, List.mem_cons] at hc
          rcases hc with rfl | hc
          · exact .inr ⟨_, List.mem_cons_self, rfl⟩
          · exact (hcov c hc).imp id (Exists.imp fun _ hr => ⟨List.mem_cons_of_mem _ hr.1, hr.2⟩)
    all_goals
      obtain ⟨rs, hrun, hrs, hcov⟩ := ih acc
      exact ⟨rs, hrun, hrs, fun c hc => hcov c (by simpa [refHash] using hc)⟩

/-- Without a callback, {lit}`children` asks for requests under the node and covers every stored child of it. -/
theorem children_none {s : Sync} {req : request} {object : Node} {cs : List (Node × Nat)}
    (h : childrenOf req object = some cs) : ∃ rs,
      Sync.children sha none s req object = some (s, .ok rs) ∧ (∀ r ∈ rs, s.Asked req.hash r) ∧
        ∀ c ∈ childHashes object, (s.inBatch c || s.Has c) = true ∨ ∃ r ∈ rs, r.hash = c := by
  obtain ⟨rs, hrun, hrs, hcov⟩ := @childrenLoop_none sha s req cs []
  refine ⟨rs, ?_, hrs, ?_⟩
  · rw [Sync.children, h]
    simpa using hrun
  · rw [childHashes_of_childrenOf h]
    exact hcov

/-- Scheduling the requests of {lit}`children` in turn. -/
theorem Stored.foldl_schedule {s : Sync} {R : Hash} (hs : s.Stored) (rs : List request)
    (hrs : ∀ r ∈ rs, s.Asked R r) : (rs.foldl Sync.schedule s).Stored := by
  refine (List.foldlRecOn (motive := fun t => t.Stored ∧ t.inBatch = s.inBatch) rs Sync.schedule
    ⟨hs, rfl⟩ fun t ht r hr => ?_).1
  obtain ⟨-, hraw, -, hfresh⟩ := hrs r hr
  refine ⟨ht.1.schedule hraw (by rw [ht.2]; exact (Bool.or_eq_false_iff.mp hfresh).1), ?_⟩
  rw [inBatch_schedule]
  exact ht.2

/-- Scheduling the requests {lit}`children` asks for keeps the stored children of every
delivered request covered. -/
theorem Waits.foldl_schedule {s : Sync} {h R : Hash} (hw : s.Waits h) (rs : List request)
    (hrs : ∀ r ∈ rs, s.Asked R r) : (rs.foldl Sync.schedule s).Waits h :=
  List.foldlRecOn (motive := fun t => t.Waits h) rs Sync.schedule hw fun _ ht r hr =>
    ht.schedule (hrs r hr).2.2.1

/-- Scheduling requests in turn keeps every cover. -/
theorem Covered.foldl_schedule {s : Sync} {h c : Hash} (hc : s.Covered h c) (rs : List request) :
    (rs.foldl Sync.schedule s).Covered h c :=
  List.foldlRecOn (motive := fun t => t.Covered h c) rs Sync.schedule hc fun _ ht r _ => ht.schedule r

/-- After the requests are scheduled, each points to its parents. -/
theorem linked_foldl_schedule (s : Sync) {rs : List request} {r : request} (hr : r ∈ rs) {p : Hash}
    (hp : p ∈ r.parents) : (rs.foldl Sync.schedule s).Linked r.hash p := by
  induction rs generalizing s with
  | nil => cases hr
  | cons r' rs ih =>
    rw [List.foldl_cons]
    by_cases hin : r ∈ rs
    · exact ih _ hin
    · have hr' : r = r' := (List.mem_cons.mp hr).resolve_right hin
      subst hr'
      exact List.foldlRecOn (motive := fun t => t.Linked r.hash p) rs Sync.schedule
        (linked_schedule s hp) fun _ ht q _ => ht.schedule q

/-- A request that is pending keeps its data while others are scheduled. -/
theorem data_foldl_schedule {s : Sync} {k : Hash} {r : request} (hr : s.requests.lookup k = some r)
    (rs : List request) : ∃ r', (rs.foldl Sync.schedule s).requests.lookup k = some r' ∧ r'.data = r.data := by
  refine List.foldlRecOn (motive := fun t => ∃ r', t.requests.lookup k = some r' ∧ r'.data = r.data) rs
    Sync.schedule ⟨r, hr, rfl⟩ fun t ⟨r', hr', hd⟩ q _ => ?_
  by_cases hk : k = q.hash
  · subst hk
    exact ⟨_, lookup_schedule_of_some hr', hd⟩
  · exact ⟨r', by rw [lookup_schedule_ne t q hk]; exact hr', hd⟩

/-! ## One delivered result -/

/-- The state after {lit}`Process` stores the data delivered for a pending request. -/
def withData (s : Sync) (item : SyncResult) : Sync :=
  s.update item.Hash fun r => { r with data := some item.Data }

/-- The state after the request at {lit}`h` is made to wait for {lit}`n` more. -/
def addDeps (s : Sync) (h : Hash) (n : Nat) : Sync :=
  s.update h fun r => { r with deps := r.deps + n }

@[simp] theorem inBatch_withData (s : Sync) (item : SyncResult) : (s.withData item).inBatch = s.inBatch :=
  inBatch_update _ _ _

@[simp] theorem Has_withData (s : Sync) (item : SyncResult) : (s.withData item).Has = s.Has :=
  Has_update _ _ _

@[simp] theorem withData_database (s : Sync) (item : SyncResult) :
    (s.withData item).database = s.database :=
  update_database _ _ _

@[simp] theorem addDeps_database (s : Sync) (h : Hash) (n : Nat) : (s.addDeps h n).database = s.database :=
  update_database _ _ _

@[simp] theorem inBatch_addDeps (s : Sync) (h : Hash) (n : Nat) : (s.addDeps h n).inBatch = s.inBatch :=
  inBatch_update _ _ _

@[simp] theorem Has_addDeps (s : Sync) (h : Hash) (n : Nat) : (s.addDeps h n).Has = s.Has :=
  Has_update _ _ _

/-- The pending request a result answers holds the result's data afterwards. -/
theorem lookup_withData {s : Sync} {item : SyncResult} {request : request}
    (hreq : s.requests.lookup item.Hash = some request) :
    (s.withData item).requests.lookup item.Hash = some { request with data := some item.Data } := by
  rw [withData, lookup_update, if_pos rfl, hreq]
  rfl

/-- One result given to a trie sync: it is refused and nothing changes, or the pending
request it answers takes the node, and is committed at once if no child is missing and
it waits for nothing, or else waits for its missing children, which are scheduled. -/
theorem processLoop_cons_inv {s : Sync} {item : SyncResult} {results : List SyncResult} {i : Nat}
    {c : Bool} {out : Sync × Bool × Nat × Option SyncError}
    (hraw : ∀ h r, s.requests.lookup h = some r → r.raw = false)
    (h : Sync.processLoop sha none s (item :: results) i c = some out) :
    out.1 = s ∨ ∃ request node rs, s.requests.lookup item.Hash = some request ∧ request.data = none ∧
      decodeNode (some item.Hash) item.Data 0 = .ok node ∧ (∀ r ∈ rs, s.Asked request.hash r) ∧
      (∀ c ∈ childHashes node, (s.inBatch c || s.Has c) = true ∨ ∃ r ∈ rs, r.hash = c) ∧
      (rs = [] ∧ request.deps = 0 ∧
          Sync.processLoop sha none ((s.withData item).commit { request with data := some item.Data })
            results (i + 1) true = some out ∨
        Sync.processLoop sha none (rs.foldl Sync.schedule ((s.withData item).addDeps item.Hash rs.length))
          results (i + 1) c = some out) := by
  rw [Sync.processLoop] at h
  cases hreq : s.requests.lookup item.Hash with
  | none =>
    rw [hreq, Option.some.injEq] at h
    exact .inl (by rw [← h])
  | some request =>
    rw [hreq] at h
    dsimp only at h
    split_ifs at h with hdata hraw'
    · rw [Option.some.injEq] at h
      exact .inl (by rw [← h])
    · -- a trie sync asks for no raw entry
      rw [hraw _ request hreq] at hraw'
      cases hraw'
    · split at h
      · rw [Option.some.injEq] at h
        exact .inl (by rw [← h])
      · next node hdec =>
        cases hco : childrenOf { request with data := some item.Data } node with
        | none =>
          rw [Sync.children, hco] at h
          cases h
        | some cs =>
          obtain ⟨rs, hch, hrs, hcov⟩ := @children_none sha (s.withData item) _ _ _ hco
          -- the children are asked for on the state with the data, which reads as the old one
          refine .inr ⟨request, node, rs, rfl, Option.not_isSome_iff_eq_none.mp hdata, hdec,
            fun r hr => ?_, fun c hc => ?_, ?_⟩
          · obtain ⟨h1, h2, h3, h4⟩ := hrs r hr
            exact ⟨h1, h2, h3, by rwa [inBatch_withData, Has_withData] at h4⟩
          · simpa only [inBatch_withData, Has_withData] using hcov c hc
          · rw [withData] at hch
            rw [hch] at h
            dsimp only at h
            rw [lookup_update, if_pos rfl, hreq, Option.map_some, Option.getD_some] at h
            split_ifs at h with hz
            · exact .inl ⟨List.length_eq_zero_iff.mp hz.1, hz.2, h⟩
            · exact .inr h

/-- One result given to a sound trie sync leaves it as it was, or leads to a sound state
from which {lit}`Process` goes on: the state with the node, and the request ready to
commit, or the state after the missing children are asked for. -/
theorem Sound.processLoop_cons {s : Sync} {item : SyncResult} {results : List SyncResult} {i : Nat}
    {c : Bool} {out : Sync × Bool × Nat × Option SyncError} (hS : s.Sound [])
    (h : Sync.processLoop sha none s (item :: results) i c = some out) :
    out.1 = s ∨ ∃ (request : Mtp.request) (rs : List Mtp.request), s.requests.lookup item.Hash = some request ∧
      (∀ r ∈ rs, s.Asked item.Hash r) ∧
      ((s.withData item).Sound [] ∧ Ripe (s.withData item) { request with data := some item.Data } [] ∧
          Sync.processLoop sha none ((s.withData item).commit { request with data := some item.Data })
            results (i + 1) true = some out ∨
        (rs.foldl Sync.schedule ((s.withData item).addDeps item.Hash rs.length)).Sound [] ∧
          Sync.processLoop sha none (rs.foldl Sync.schedule ((s.withData item).addDeps item.Hash rs.length))
            results (i + 1) c = some out) := by
  rcases processLoop_cons_inv hS.raw h with hout | ⟨request, node, rs, hreq, -, hdec, hrs, hcov, hnext⟩
  · exact .inl hout
  have hhash : request.hash = item.Hash := hS.books.hash _ request hreq
  have hrs' : ∀ r ∈ rs, s.Asked item.Hash r := by
    rw [← hhash]
    exact hrs
  refine .inr ⟨request, rs, hreq, hrs', ?_⟩
  -- the node is delivered: everything is kept but what it waits for
  have hB1 : (s.withData item).Books [] := by
    have := hS.books.update (p := item.Hash) (f := fun r => { r with data := some item.Data }) 0
      (fun _ => ⟨rfl, rfl, fun _ => rfl⟩) (fun _ => by simp) (fun h0 => absurd rfl h0)
    rwa [List.replicate_zero, List.nil_append] at this
  have hSt1 : (s.withData item).Stored := hS.toStored.update item.Hash fun _ => rfl
  have hW1 : ∀ h, h ≠ item.Hash → (s.withData item).Waits h :=
    fun h hh => (hS.waits h).update item.Hash (fun _ => rfl) fun he => absurd he hh
  have hlook1 := lookup_withData hreq
  have hlook1' : (s.withData item).requests.lookup request.hash =
      some { request with data := some item.Data } := by
    rw [withData, lookup_update, if_pos hhash, hreq]
    rfl
  -- the data the request waits with is the node delivered
  have hnode : ∀ d n, some item.Data = some d → decodeNode (some item.Hash) d 0 = .ok n →
      d = item.Data ∧ n = node := by
    intro d n hd hn
    rw [Option.some.injEq] at hd
    subst hd
    rw [hdec, Except.ok.injEq] at hn
    exact ⟨rfl, hn.symm⟩
  rcases hnext with ⟨rfl, hz, h⟩ | h
  · -- no child missing and nothing else to wait for: committed at once
    have hS1 : (s.withData item).Sound [] := by
      refine ⟨hSt1, hB1, fun h => ?_⟩
      by_cases hh : h = item.Hash
      · subst hh
        intro r d hr hd n hn c hc
        rw [hlook1, Option.some.injEq] at hr
        subst hr
        obtain ⟨rfl, rfl⟩ := hnode d n hd hn
        rcases hcov c hc with hk | ⟨_, hr, _⟩
        · exact .inl (by rwa [inBatch_withData, Has_withData])
        · cases hr
      · exact hW1 h hh
    have hdeps1 := hB1.deps _ _ hlook1
    rw [List.count_nil, Nat.cast_zero, add_zero] at hdeps1
    have hR : Ripe (s.withData item) { request with data := some item.Data } [] := by
      refine ⟨⟨{ request with data := some item.Data }, ?_, rfl, ?_⟩,
        { request with data := some item.Data }, item.Data, ?_, rfl, rfl⟩
      · exact hlook1'
      · rw [hhash, List.count_nil, add_zero]
        change request.deps = _ at hdeps1
        omega
      · exact hlook1'
    exact .inl ⟨hS1, hR, h⟩
  · -- the node waits for one reference from each child request
    have hd1 : (s.withData item).Delivered item.Hash := ⟨_, hlook1, rfl⟩
    have hB3 : ((s.withData item).addDeps item.Hash rs.length).Books (List.replicate rs.length item.Hash) := by
      have := hB1.update (p := item.Hash) (f := fun r => { r with deps := r.deps + rs.length }) rs.length
        (fun _ => ⟨rfl, rfl, id⟩) (fun _ => rfl) (fun _ => hd1)
      rwa [List.append_nil] at this
    have hasked : ∀ r ∈ rs, ((s.withData item).addDeps item.Hash rs.length).Asked item.Hash r := by
      intro r hr
      obtain ⟨hcr, hraw, hnone, hfresh⟩ := hrs' r hr
      exact ⟨hcr, hraw, hnone, by rwa [inBatch_addDeps, inBatch_withData, Has_addDeps, Has_withData]⟩
    have hlook3 := data_foldl_schedule (s := (s.withData item).addDeps item.Hash rs.length)
      (k := item.Hash) (r := { { request with data := some item.Data } with deps := request.deps + rs.length })
      (by rw [addDeps, lookup_update, if_pos rfl, hlook1]; rfl) rs
    refine .inr ⟨⟨(hSt1.update item.Hash (f := fun r => { r with deps := r.deps + rs.length })
        fun _ => rfl).foldl_schedule rs hasked,
      Books.foldl_schedule rs hB3 (hd1.update fun _ => id) fun r hr => (hasked r hr).1, fun h => ?_⟩, h⟩
    by_cases hh : h = item.Hash
    · -- each child is known, or asked for under this node
      subst hh
      intro r d hr hd n hn c hc
      obtain ⟨r', hr', hd'⟩ := hlook3
      rw [hr, Option.some.injEq] at hr'
      subst hr'
      obtain ⟨rfl, rfl⟩ := hnode d n (hd'.symm.trans hd) hn
      rcases hcov c hc with hk | ⟨rc, hrc, rfl⟩
      · refine Covered.foldl_schedule (.inl ?_) rs
        rwa [inBatch_addDeps, inBatch_withData, Has_addDeps, Has_withData]
      · refine .inr (linked_foldl_schedule _ hrc ?_)
        rw [(hrs rc hrc).1.1, hhash]
        exact List.mem_singleton_self _
    · exact ((hW1 h hh).update item.Hash (f := fun r => { r with deps := r.deps + rs.length })
        (fun _ => rfl) fun he => absurd he hh).foldl_schedule rs hasked

/-- {lit}`Process` keeps the invariant of the trie sync, whatever it is given. -/
theorem Sound.processLoop :
    ∀ (results : List SyncResult) {s : Sync} {i : Nat} {c : Bool}
      {out : Sync × Bool × Nat × Option SyncError},
      s.Sound [] → Sync.processLoop sha none s results i c = some out → out.1.Sound []
  | [], s, i, c, out, hS, h => by
    simp only [Sync.processLoop, Option.some.injEq] at h
    subst h
    exact hS
  | item :: results, s, i, c, out, hS, h => by
    rcases hS.processLoop_cons h with hout | ⟨_, _, _, _, ⟨hS1, hR, h⟩ | ⟨hS4, h⟩⟩
    · rw [hout]
      exact hS
    · exact Sound.processLoop results (hS1.commit hR) h
    · exact Sound.processLoop results hS4 h

/-- {lit}`Process` reads the database and never writes it. -/
theorem Sound.database_processLoop :
    ∀ (results : List SyncResult) {s : Sync} {i : Nat} {c : Bool}
      {out : Sync × Bool × Nat × Option SyncError},
      s.Sound [] → Sync.processLoop sha none s results i c = some out → out.1.database = s.database
  | [], s, i, c, out, _, h => by
    simp only [Sync.processLoop, Option.some.injEq] at h
    subst h
    rfl
  | item :: results, s, i, c, out, hS, h => by
    rcases hS.processLoop_cons h with hout | ⟨_, rs, _, _, ⟨hS1, hR, h⟩ | ⟨hS4, h⟩⟩
    · rw [hout]
    · -- a commit writes the memory batch only
      rw [Sound.database_processLoop results (hS1.commit hR) h]
      exact (hS1.commit_with (fun t => t.database = s.database) (fun _ _ _ _ _ h => h)
        (fun _ _ _ _ _ _ h => h) hR (withData_database s item)).2
    · rw [Sound.database_processLoop results hS4 h]
      have hbase : ((s.withData item).addDeps item.Hash rs.length).database = s.database := by
        rw [addDeps_database, withData_database]
      exact List.foldlRecOn (motive := fun t => t.database = s.database) rs Sync.schedule hbase
        fun t ht r _ => by rw [schedule_database]; exact ht

/-- Every call to a sound trie sync without a callback keeps it sound. -/
theorem Sound.step {s s' : Sync} {missed : List Hash} (hS : s.Sound []) (op : Op)
    (h : Sync.step sha none s op = some (s', missed)) : s'.Sound [] := by
  cases op with
  | Process results =>
    obtain ⟨out, hout, he⟩ := Option.map_eq_some_iff.mp h
    cases he
    exact hS.processLoop results hout
  | Commit failAt =>
    simp only [Sync.step, Option.some.injEq, Prod.mk.injEq] at h
    rw [← h.1]
    exact hS.Commit failAt
  | Missing max =>
    simp only [Sync.step, Option.some.injEq, Prod.mk.injEq] at h
    rw [← h.1]
    exact hS.of_eq rfl rfl rfl

/-- A run of calls from a sound trie sync without a callback ends sound. -/
theorem Sound.run (ops : List Op) {s s' : Sync} {missed : List Hash} (hS : s.Sound [])
    (h : Sync.run sha none ops s = some (s', missed)) : s'.Sound [] :=
  run_induction (fun _ => True) (fun t _ => t.Sound []) (fun _ hS h => hS.step _ h) ops
    (fun _ _ => trivial) (M := []) hS h

/-- Only a {lit}`Commit` writes the database, in the order of the memory batch, so every
step of a sound trie sync keeps the database closed. -/
theorem Closed.step {s s' : Sync} {missed : List Hash} (hS : s.Sound []) (hdb : Closed s.database)
    (op : Op) (h : Sync.step sha none s op = some (s', missed)) : Closed s'.database := by
  cases op with
  | Process results =>
    obtain ⟨out, hout, he⟩ := Option.map_eq_some_iff.mp h
    cases he
    rw [hS.database_processLoop results hout]
    exact hdb
  | Commit failAt =>
    simp only [Sync.step, Option.some.injEq, Prod.mk.injEq] at h
    rw [← h.1]
    exact hdb.Commit hS.ordered failAt
  | Missing max =>
    simp only [Sync.step, Option.some.injEq, Prod.mk.injEq] at h
    rw [← h.1]
    exact hdb

/-- A run of calls from a sound trie sync over a closed database ends with a closed database. -/
theorem Sound.closed_run (ops : List Op) {s s' : Sync} {missed : List Hash} (hS : s.Sound [])
    (hdb : Closed s.database) (h : Sync.run sha none ops s = some (s', missed)) :
    Closed s'.database :=
  (run_induction (fun _ => True) (fun t _ => t.Sound [] ∧ Closed t.database)
    (fun _ hI h => ⟨hI.1.step _ h, hI.2.step hI.1 _ h⟩) ops (fun _ _ => trivial) (M := [])
    ⟨hS, hdb⟩ h).2

end Trie

/-- {lit}`NewSync` keeps the database it is given. -/
theorem NewSync_database (callback : Option SyncCallback) (root : Hash) (database : KeyValueStore) :
    (NewSync callback root database).database = database := by
  unfold NewSync
  dsimp only
  cases h : (⟨database, newSyncMemBatch, ∅, []⟩ : Sync).AddSubTrie root 0 Hash.zero callback.isSome with
  | none => rfl
  | some s' =>
    rw [Option.getD_some]
    unfold Sync.AddSubTrie at h
    split_ifs at h
    · cases h; rfl
    · cases h; rfl
    · split at h
      · cases h; rfl
      · simp only [Sync.linkAndSchedule, ne_eq, not_true_eq_false, if_false, Option.some.injEq] at h
        rw [← h, schedule_database]

/-- A new trie sync starts sound. -/
theorem sound_NewSync (root : Hash) (database : KeyValueStore) :
    (NewSync none root database).Sound [] := by
  have h0 : (⟨database, newSyncMemBatch, ∅, []⟩ : Sync).Sound [] :=
    ⟨⟨by simp, by simp, by simp [inBatch, newSyncMemBatch], fun j hj => by simp [newSyncMemBatch] at hj⟩,
      ⟨by simp, by simp [DepsOwed], by simp, by simp⟩, fun h r d hr => by simp at hr⟩
  unfold NewSync
  dsimp only
  cases h : (⟨database, newSyncMemBatch, ∅, []⟩ : Sync).AddSubTrie root 0 Hash.zero (none : Option SyncCallback).isSome with
  | none => exact h0
  | some s' =>
    rw [Option.getD_some]
    unfold Sync.AddSubTrie at h
    split_ifs at h
    · cases h; exact h0
    · cases h; exact h0
    · split at h
      · cases h; exact h0
      · -- the root is scheduled with no parent
        simp only [Sync.linkAndSchedule, ne_eq, not_true_eq_false, if_false, Option.some.injEq] at h
        subst h
        exact ⟨h0.toStored.schedule rfl (by simp [inBatch, newSyncMemBatch]),
          h0.books.schedule_of_deps_zero rfl, fun h => (h0.waits h).schedule rfl⟩

/-- A trie sync, one without a leaf callback, started over a database in which every
stored node has its stored children keeps it so through every run: whatever is
delivered, and even when the writer refuses a {lit}`Put` midway through a
{lit}`Commit`, every node written has each of its stored children in the database.
The memory batch stays ordered, each of its nodes after its stored children. -/
theorem run_NewSync_closed (sha : Bytes → Hash) (root : Hash) (database : KeyValueStore)
    (hdb : Closed database) (ops : List Op) {s : Sync} {missed : List Hash}
    (hrun : Sync.run sha none ops (NewSync none root database) = some (s, missed)) :
    Closed s.database ∧ s.Ordered := by
  have hS := Sound.run ops (sound_NewSync root database) hrun
  have hdb' : Closed (NewSync none root database).database := by
    rw [NewSync_database]
    exact hdb
  exact ⟨Sound.closed_run ops (sound_NewSync root database) hdb' hrun, hS.ordered⟩

/-- The run that fetches an extension node and its leaf ends with both written, in a
database that is closed, the leaf before the node. -/
theorem run_NewSync_closed_ext :
    Closed (fun _ => none) ∧
      ∃ s, Sync.run (fun _ => Hash.zero) none extRun (NewSync none hashA fun _ => none) =
          some (s, [hashA, hashB]) ∧ Closed s.database ∧ s.Ordered := by
  obtain ⟨⟨s, missed⟩, hrun, hmissed⟩ := Option.map_eq_some_iff.mp
    (show (Sync.run (fun _ => Hash.zero) none extRun (NewSync none hashA fun _ => none)).map
      Prod.snd = some [hashA, hashB] by decide +kernel)
  cases hmissed
  exact ⟨closed_empty, s, hrun,
    run_NewSync_closed (fun _ => Hash.zero) hashA (fun _ => none) closed_empty extRun hrun⟩

end Sync
end Mtp
end Uranus
