import Uranus.Mtp.SyncOrder

/-!
# A finished trie sync holds the whole trie

A trie sync is fed from a source: every result it is given is the source's entry for its
hash.  When it has nothing pending and has written its memory batch out, the database
holds every node the source reaches from the root, as the source has it.  The database
it starts from is closed and holds only what the source holds.

Two facts carry this besides the closed database of {lit}`SyncOrder`: everything the
sync holds, in the database, the memory batch or a pending request, is the source's, and
the root, unless the trie is empty, is pending or known from the start on.  Once
nothing is pending and the memory batch is empty, the root is in the database, and the
closed database then holds each node the root reaches.

Main results:

- Theorem {lit}`Sync.Follows.run`: every run keeps both facts.
- Theorem {lit}`Sync.run_NewSync_complete`: a finished sync holds the whole trie.
-/

namespace Uranus
namespace Mtp
namespace Sync

open Lib

/-- The hashes a store reaches from a root through stored children. -/
inductive Reach (src : KeyValueStore) (root : Hash) : Hash → Prop
  | root : Reach src root root
  | child {h c : Hash} {d : Bytes} {n : Node} : Reach src root h → src h.bytes = some d →
      decodeNode (some h) d 0 = .ok n → c ∈ childHashes n → Reach src root c

/-- Every result a call delivers is the source's entry for its hash. -/
def Op.From (src : KeyValueStore) : Op → Prop
  | .Process results => ∀ item ∈ results, src item.Hash.bytes = some item.Data
  | _ => True

/-- Everything a trie sync holds is the source's, and the root is pending or known unless
the trie is empty. -/
structure Follows (src : KeyValueStore) (root : Hash) (s : Sync) : Prop where
  database : ∀ k d, s.database k = some d → src k = some d
  batch : ∀ h d, s.membatch.batch h = some d → src h.bytes = some d
  pending : ∀ h r d, s.requests.lookup h = some r → r.data = some d → src h.bytes = some d
  root : root = emptyRoot ∨ (s.requests.lookup root).isSome ∨ (s.inBatch root || s.Has root) = true

/-- Writing entries of the memory batch that are the source's keeps the database the
source's. -/
theorem writeBatch_within {src : KeyValueStore} (batch : Hash → Option Bytes) :
    ∀ (keys : List Hash) (db : KeyValueStore), (∀ k ∈ keys, src k.bytes = some ((batch k).getD [])) →
      (∀ k d, db k = some d → src k = some d) →
      ∀ k d, writeBatch batch keys db k = some d → src k = some d
  | [], _, _, hdb => hdb
  | key :: keys, db, hkeys, hdb => by
    rw [writeBatch]
    refine writeBatch_within batch keys _ (fun k hk => hkeys k (List.mem_cons_of_mem _ hk)) ?_
    intro k d hk
    by_cases hkk : k = key.bytes
    · subst hkk
      rw [Function.update_self, Option.some.injEq] at hk
      rw [← hk]
      exact hkeys key List.mem_cons_self
    · rw [Function.update_of_ne hkk] at hk
      exact hdb k d hk

section Source

variable {src : KeyValueStore} {root : Hash}

/-- Scheduling a request without data keeps the sync within the source. -/
theorem Follows.schedule {s : Sync} (hF : s.Follows src root) {req : request} (hnone : req.data = none) :
    (s.schedule req).Follows src root where
  database := by
    rw [schedule_database]
    exact hF.database
  batch := by
    rw [schedule_membatch]
    exact hF.batch
  pending h r d hr hd := by
    by_cases hh : h = req.hash
    · subst hh
      cases hold : s.requests.lookup req.hash with
      | none =>
        rw [lookup_schedule_of_none hold, Option.some.injEq] at hr
        subst hr
        rw [hnone] at hd
        cases hd
      | some old =>
        rw [lookup_schedule_of_some hold, Option.some.injEq] at hr
        subst hr
        exact hF.pending _ old d hold hd
    · rw [lookup_schedule_ne s req hh] at hr
      exact hF.pending h r d hr hd
  root := by
    rw [inBatch_schedule, Has_schedule]
    exact hF.root.imp_right (Or.imp_left fun hk => isSome_lookup_schedule hk req)

/-- A write through a pointer keeps what the sync holds the source's when each datum it
leaves is the old one or the source's. -/
theorem Follows.update {s : Sync} (hF : s.Follows src root) (p : Hash) {f : request → request}
    (hdata : ∀ r d, (f r).data = some d → r.data = some d ∨ src p.bytes = some d) :
    (s.update p f).Follows src root where
  database := by
    rw [update_database]
    exact hF.database
  batch := by
    rw [update_membatch]
    exact hF.batch
  pending h r d hr hd := by
    rw [lookup_update] at hr
    split_ifs at hr with hh
    · subst hh
      obtain ⟨r0, hr0, rfl⟩ := Option.map_eq_some_iff.mp hr
      rcases hdata r0 d hd with hd | hd
      · exact hF.pending _ r0 d hr0 hd
      · exact hd
    · exact hF.pending h r d hr hd
  root := by
    rw [inBatch_update, Has_update, isSome_lookup_update]
    exact hF.root

/-- Storing the source's data for a request keeps the sync within the source. -/
theorem Follows.withData {s : Sync} (hF : s.Follows src root) {item : SyncResult}
    (hsrc : src item.Hash.bytes = some item.Data) : (s.withData item).Follows src root :=
  hF.update item.Hash fun _ d hd => .inr (by rw [hsrc]; exact hd)

/-- Counting more dependencies keeps the sync within the source. -/
theorem Follows.addDeps {s : Sync} (hF : s.Follows src root) (h : Hash) (n : Nat) :
    (s.addDeps h n).Follows src root :=
  hF.update h fun _ _ hd => .inl hd

/-- Scheduling requests without data in turn keeps the sync within the source. -/
theorem Follows.foldl_schedule {s : Sync} (hF : s.Follows src root) {rs : List request}
    (hrs : ∀ r ∈ rs, r.data = none) : (rs.foldl Sync.schedule s).Follows src root :=
  List.foldlRecOn (motive := fun t => t.Follows src root) rs Sync.schedule hF fun _ ht r hr =>
    ht.schedule (hrs r hr)

/-- Committing a ripe request keeps the sync within the source. -/
theorem Follows.commitWrite {s : Sync} (hF : s.Follows src root) {req : request} {ow : List Hash}
    (hR : Ripe s req ow) : (s.commitWrite req).Follows src root where
  database := hF.database
  batch h d hd := by
    obtain ⟨-, r, d0, hr, hrd, hreqd⟩ := hR
    rw [commitWrite_batch] at hd
    by_cases hh : h = req.hash
    · -- the datum written is the one the pending request holds
      subst hh
      rw [Function.update_self, Option.some.injEq, hreqd, Option.getD_some] at hd
      subst hd
      exact hF.pending _ r d0 hr hrd
    · rw [Function.update_of_ne hh] at hd
      exact hF.batch h d hd
  pending h r d hr hd := by
    rw [commitWrite_requests] at hr
    by_cases hh : h = req.hash
    · subst hh
      simp at hr
    · rw [AList.lookup_erase_ne hh] at hr
      exact hF.pending h r d hr hd
  root := hF.root.imp_right (tracked_commitWrite s req)

/-- A commit of a sound sync keeps what it holds the source's. -/
theorem Follows.commit {s : Sync} (hF : s.Follows src root) {req : request} {ow : List Hash}
    (hS : s.Sound ow) (hR : Ripe s req ow) : (s.commit req).Sound ow ∧ (s.commit req).Follows src root :=
  hS.commit_with (Follows src root) (fun _ _ _ _ hR hF => hF.commitWrite hR)
    (fun _ p _ _ _ hp hF => by
      rw [decParent_eq_update hp]
      exact hF.update p fun _ _ hd => .inl hd) hR hF

/-- A {lit}`Commit` writes entries of the memory batch, which are the source's. -/
theorem Follows.Commit {s : Sync} (hF : s.Follows src root) {ow : List Hash} (hS : s.Sound ow)
    (failAt : Option Nat) : (s.Commit failAt).2.Follows src root where
  database := by
    have hkeys : ∀ k ∈ s.membatch.order, src k.bytes = some ((s.membatch.batch k).getD []) := by
      intro k hk
      obtain ⟨d, hd⟩ := Option.isSome_iff_exists.mp ((hS.batch k).mpr hk)
      rw [hd, Option.getD_some]
      exact hF.batch k d hd
    rcases Commit_eq s failAt with ⟨i, he⟩ | he <;> rw [he]
    · exact writeBatch_within _ _ _ (fun k hk => hkeys k (List.mem_of_mem_take hk)) hF.database
    · exact writeBatch_within _ _ _ hkeys hF.database
  batch := by
    rcases Commit_eq s failAt with ⟨i, he⟩ | he <;> rw [he]
    · exact hF.batch
    · exact fun _ _ hd => by cases hd
  pending := by
    rw [Commit_requests]
    exact hF.pending
  root := by
    -- the root, if in the memory batch, is now on disk or still in the batch
    rw [Commit_requests]
    exact hF.root.imp_right (Or.imp_right (hS.toStored.known_Commit failAt))

variable {sha : Bytes → Hash}

/-- The loop of {lit}`Process` over results of the source keeps the sync within the source. -/
theorem Follows.processLoop :
    ∀ (results : List SyncResult) {s : Sync} {i : Nat} {c : Bool}
      {out : Sync × Bool × Nat × Option SyncError},
      s.Sound [] → s.Follows src root → (∀ item ∈ results, src item.Hash.bytes = some item.Data) →
      Sync.processLoop sha none s results i c = some out → out.1.Follows src root
  | [], s, i, c, out, _, hF, _, h => by
    simp only [Sync.processLoop, Option.some.injEq] at h
    subst h
    exact hF
  | item :: results, s, i, c, out, hS, hF, hsrc, h => by
    have hF1 := hF.withData (hsrc item List.mem_cons_self)
    have hrest := fun item' (hi : item' ∈ results) => hsrc item' (List.mem_cons_of_mem _ hi)
    rcases hS.processLoop_cons h with hout | ⟨_, rs, _, hrs, ⟨hS1, hR, h⟩ | ⟨hS4, h⟩⟩
    · rw [hout]
      exact hF
    · obtain ⟨hS2, hF2⟩ := hF1.commit hS1 hR
      exact Follows.processLoop results hS2 hF2 hrest h
    · exact Follows.processLoop results hS4
        ((hF1.addDeps item.Hash rs.length).foldl_schedule fun r hr => (hrs r hr).2.2.1) hrest h

/-- Every call with results of the source keeps a sound sync within the source. -/
theorem Follows.step {s s' : Sync} {missed : List Hash} (hS : s.Sound []) (hF : s.Follows src root)
    {op : Op} (hop : op.From src) (h : Sync.step sha none s op = some (s', missed)) :
    s'.Follows src root := by
  cases op with
  | Process results =>
    obtain ⟨out, hout, he⟩ := Option.map_eq_some_iff.mp h
    cases he
    exact Follows.processLoop results hS hF hop hout
  | Commit failAt =>
    simp only [Sync.step, Option.some.injEq, Prod.mk.injEq] at h
    rw [← h.1]
    exact hF.Commit hS failAt
  | Missing max =>
    simp only [Sync.step, Option.some.injEq, Prod.mk.injEq] at h
    rw [← h.1]
    exact ⟨hF.database, hF.batch, hF.pending, hF.root⟩

/-- Every run fed from the source keeps the invariant of the trie sync and what it holds
the source's. -/
theorem Follows.run (ops : List Op) {s s' : Sync} {missed : List Hash} (hS : s.Sound [])
    (hF : s.Follows src root) (hops : ∀ op ∈ ops, op.From src)
    (h : Sync.run sha none ops s = some (s', missed)) : s'.Sound [] ∧ s'.Follows src root :=
  run_induction (Op.From src) (fun t _ => t.Sound [] ∧ t.Follows src root)
    (fun hop hI h => ⟨hI.1.step _ h, hI.2.step hI.1 hop h⟩) ops hops (M := []) ⟨hS, hF⟩ h

end Source

/-- The empty blob does not decode. -/
theorem decodeNode_nil (hash : Option Hash) (cachegen : UInt16) :
    decodeNode hash [] cachegen = .error (.fail .ErrUnexpectedEOF) := rfl

/-- A new trie sync follows any source that holds its database: the root is empty,
already stored, or scheduled. -/
theorem follows_NewSync {src : KeyValueStore} (root : Hash) {database : KeyValueStore}
    (hsrc : ∀ k d, database k = some d → src k = some d) :
    (NewSync none root database).Follows src root := by
  -- the empty sync holds nothing but the database; it follows the source for the empty root
  have h0 : (⟨database, newSyncMemBatch, ∅, []⟩ : Sync).Follows src emptyRoot :=
    ⟨hsrc, fun _ _ hd => (by cases hd), fun _ _ _ hr => (by simp at hr), .inl rfl⟩
  unfold NewSync
  dsimp only
  unfold Sync.AddSubTrie
  split_ifs with he hb
  · exact ⟨h0.database, h0.batch, h0.pending, .inl he⟩
  · exact ⟨h0.database, h0.batch, h0.pending, .inr (.inr (by rw [Option.getD_some, hb]; rfl))⟩
  · split
    · next n hdec =>
      -- a root that decodes from the database is there: an empty blob does not decode
      have hhas : (database root.bytes).isSome := by
        dsimp only at hdec
        cases hdb : database root.bytes with
        | none =>
          rw [hdb, Option.getD_none, decodeNode_nil] at hdec
          cases hdec
        | some _ => rfl
      exact ⟨h0.database, h0.batch, h0.pending, .inr (.inr (Bool.or_eq_true _ _ ▸ .inr hhas))⟩
    · simp only [Sync.linkAndSchedule, ne_eq, not_true_eq_false, if_false, Option.getD_some]
      have h1 : (Sync.schedule ⟨database, newSyncMemBatch, ∅, []⟩
          ⟨root, none, false, [], 0, 0, (none : Option SyncCallback).isSome⟩).Follows src emptyRoot :=
        h0.schedule rfl
      exact ⟨h1.database, h1.batch, h1.pending, .inr (.inl (isSome_lookup_schedule_self _
        ⟨root, none, false, [], 0, 0, (none : Option SyncCallback).isSome⟩))⟩

/-- A trie sync fed from a source, started over a closed database that holds only what
the source holds, that has nothing pending and has written its memory batch out, holds
the whole trie: every node the source reaches from the root is in the database, as the
source has it.  Whatever the order of the calls and however the results are batched,
and whatever {lit}`Put`s were refused along the way. -/
theorem run_NewSync_complete (sha : Bytes → Hash) (root : Hash) (database src : KeyValueStore)
    (hdb : Closed database) (hsrc : ∀ k d, database k = some d → src k = some d)
    (ops : List Op) (hops : ∀ op ∈ ops, op.From src) {s : Sync} {missed : List Hash}
    (hrun : Sync.run sha none ops (NewSync none root database) = some (s, missed))
    (hroot : root ≠ emptyRoot) (hdone : s.Pending = 0) (hflushed : s.membatch.order = []) :
    ∀ h, Reach src root h → s.database h.bytes = src h.bytes := by
  obtain ⟨hS, hF⟩ := Follows.run ops (sound_NewSync root database) (follows_NewSync root hsrc) hops hrun
  have hclosed := Sound.closed_run ops (sound_NewSync root database)
    (by rw [NewSync_database]; exact hdb) hrun
  -- nothing is pending and the memory batch is empty, so the root is in the database
  have hnone : s.requests.lookup root = none := by
    have hnil : s.requests.entries = [] := List.length_eq_zero_iff.mp hdone
    change List.dlookup root s.requests.entries = none
    rw [hnil]
    rfl
  have hbatch : s.inBatch root = false := by
    refine Bool.eq_false_iff.mpr fun hk => ?_
    have hmem := (hS.batch root).mp hk
    rw [hflushed] at hmem
    cases hmem
  have hrootdb : (s.database root.bytes).isSome := by
    rcases hF.root with hr | hr | hr
    · exact absurd hr hroot
    · rw [hnone] at hr
      cases hr
    · rw [hbatch, Bool.false_or] at hr
      exact hr
  intro h hreach
  -- every node reached is in the database, which is closed and the source's
  have hpresent : (s.database h.bytes).isSome := by
    induction hreach with
    | root => exact hrootdb
    | child _ hd hn hc ih =>
      obtain ⟨d', hd'⟩ := Option.isSome_iff_exists.mp ih
      have hsame := hF.database _ _ hd'
      rw [hd, Option.some.injEq] at hsame
      subst hsame
      exact hclosed _ _ _ hd' hn _ hc
  obtain ⟨d, hd⟩ := Option.isSome_iff_exists.mp hpresent
  rw [hd, hF.database _ _ hd]

/-- A source holding the extension node under {lit}`hashA` and its leaf under
{lit}`hashB`. -/
def extSource : KeyValueStore := fun k =>
  if k = hashA.bytes then some extBlob else if k = hashB.bytes then some leafBlob else none

/-- The run that fetches the extension node and its leaf from the source ends with
nothing pending and the batch written out, and the database holds both nodes. -/
theorem run_NewSync_complete_ext :
    Closed (fun _ => none) ∧ hashA ≠ emptyRoot ∧ (∀ op ∈ extRun, op.From extSource) ∧
      ∃ s, Sync.run (fun _ => Hash.zero) none extRun (NewSync none hashA fun _ => none) =
          some (s, [hashA, hashB]) ∧ s.Pending = 0 ∧ s.membatch.order = [] ∧
        ∀ h, Reach extSource hashA h → s.database h.bytes = extSource h.bytes := by
  have hops : ∀ op ∈ extRun, op.From extSource := by
    simp [extRun, Op.From, extSource, hashA, hashB]
  obtain ⟨⟨s, missed⟩, hrun, hdone⟩ := Option.map_eq_some_iff.mp
    (show (Sync.run (fun _ => Hash.zero) none extRun (NewSync none hashA fun _ => none)).map
      (fun r => (r.2, r.1.Pending, r.1.membatch.order)) = some ([hashA, hashB], 0, []) by
        decide +kernel)
  simp only [Prod.mk.injEq] at hdone
  obtain ⟨rfl, hpending, horder⟩ := hdone
  refine ⟨closed_empty, by decide, hops, s, hrun, hpending, horder, ?_⟩
  exact run_NewSync_complete (fun _ => Hash.zero) hashA (fun _ => none) extSource closed_empty
    (fun _ _ hd => by cases hd) extRun hops hrun (by decide) hpending horder

end Sync
end Mtp
end Uranus
