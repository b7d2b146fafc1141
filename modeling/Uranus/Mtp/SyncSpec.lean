import Uranus.Lib.AListSum
import Uranus.Mtp.Sync

/-!
# What the trie sync keeps

The requests of a sync form a graph: a request points to the parents waiting for it,
once for each reference, and a parent counts in {lit}`deps` the requests it waits
for.  The bookkeeping is right when every count is the number of references to it
from pending requests ({lit}`links`), and every reference is to a pending request
that has its data.  Then a count reaches zero exactly when the last request the
parent waits for is committed, never earlier, and no reference outlives its target.

A commit runs down this graph: it writes a request, then takes one reference off
each parent and commits the parents that are left with none.  Inside it, some
references are already gone from the graph but not yet taken off their parents'
counts; the invariants carry a list of these.  {lit}`commitFuel_induction` turns
any invariant that the write and the decrement keep into one that a whole commit
keeps.

Main results:

- Theorem {lit}`Sync.commitFuel_induction`: the induction rule for commits.
- Theorem {lit}`Sync.Books.commit`: a commit keeps the bookkeeping.
- Theorem {lit}`Sync.run_NewSync_books`: every run of a new sync keeps it.
-/

namespace Uranus
namespace Mtp
namespace Sync

open Lib

/-! ## References between pending requests -/

/-- How many references of pending requests name a hash as their parent. -/
def links (rs : AList fun _ : Hash => request) (h : Hash) : Nat :=
  (rs.entries.map fun e => e.2.parents.count h).sum

/-- The references after an insertion: those of the inserted request and those of the others. -/
theorem links_insert (rs : AList fun _ : Hash => request) (a : Hash) (r : request) (k : Hash) :
    links (rs.insert a r) k = r.parents.count k + links (rs.erase a) k :=
  sum_entries_insert rs a r _

/-- The references split into those of one entry and those of the rest. -/
theorem links_erase (rs : AList fun _ : Hash => request) (a k : Hash) :
    links rs k = links (rs.erase a) k + (rs.lookup a).elim 0 fun r => r.parents.count k :=
  sum_entries_erase rs a _

/-- The references split into those of a pending request and those of the rest. -/
theorem links_erase_of_some {rs : AList fun _ : Hash => request} {a : Hash} {r : request}
    (hr : rs.lookup a = some r) (k : Hash) :
    links rs k = links (rs.erase a) k + r.parents.count k := by
  rw [links_erase rs a k, hr]
  rfl

/-- Replacing a pending request trades its references for the new one's. -/
theorem links_insert_of_some {rs : AList fun _ : Hash => request} {a : Hash} {r : request}
    (r' : request) (hr : rs.lookup a = some r) (k : Hash) :
    links (rs.insert a r') k + r.parents.count k = links rs k + r'.parents.count k := by
  rw [links_insert, links_erase_of_some hr k]
  omega

/-- Adding a new request adds its references. -/
theorem links_insert_of_none {rs : AList fun _ : Hash => request} {a : Hash} (r' : request)
    (hr : rs.lookup a = none) (k : Hash) :
    links (rs.insert a r') k = links rs k + r'.parents.count k := by
  rw [links_insert, links_erase rs a k, hr]
  simp only [Option.elim]
  omega

/-- A request that points to a hash counts among its links. -/
theorem links_pos_of_mem {rs : AList fun _ : Hash => request} {h p : Hash} {r : request}
    (hr : rs.lookup h = some r) (hp : p ∈ r.parents) : 0 < links rs p := by
  have := links_erase_of_some hr p
  have hc := List.count_pos_iff.mpr hp
  omega

/-- Scheduling a request adds its references to its parents. -/
theorem links_schedule (s : Sync) (req : request) (k : Hash) :
    links (s.schedule req).requests k = links s.requests k + req.parents.count k := by
  unfold schedule
  split
  · next old hold =>
    have := links_insert_of_some { old with parents := old.parents ++ req.parents } hold k
    simp only [List.count_append] at this
    dsimp only
    omega
  · next hnew =>
    exact links_insert_of_none req hnew k

/-! ## The bookkeeping -/

/-- Every pending request waits for as many requests as point to it, and for the
references in {lit}`ow`, which are gone but not yet taken off. -/
def DepsOwed (s : Sync) (ow : List Hash) : Prop :=
  ∀ h r, s.requests.lookup h = some r → r.deps = links s.requests h + ow.count h

/-- A hash names a pending request whose data has come. -/
def Delivered (s : Sync) (p : Hash) : Prop :=
  ∃ r, s.requests.lookup p = some r ∧ r.data.isSome

/-- The bookkeeping of the pending requests, with the references in {lit}`ow` still to
be taken off: each request is stored under its hash, counts the references to it,
and points only to pending requests that have their data, as do the references owed. -/
structure Books (s : Sync) (ow : List Hash) : Prop where
  hash : ∀ h r, s.requests.lookup h = some r → r.hash = h
  deps : s.DepsOwed ow
  parents : ∀ h r, s.requests.lookup h = some r → ∀ p ∈ r.parents, s.Delivered p
  owed : ∀ p ∈ ow, s.Delivered p

/-- Nothing points to a request that is not pending or has no data. -/
theorem Books.links_eq_zero {s : Sync} {ow : List Hash} (hB : s.Books ow) {p : Hash}
    (hp : ¬ s.Delivered p) : links s.requests p = 0 := by
  unfold links
  apply List.sum_eq_zero
  intro n hn
  obtain ⟨e, he, rfl⟩ := List.mem_map.mp hn
  apply List.count_eq_zero.mpr
  intro hmem
  exact hp (hB.parents e.1 e.2 (AList.mem_lookup_iff.mpr he) p hmem)

/-! ## Commits -/

/-- The decrement of one parent in {lit}`commitStep`. -/
def decParent (s : Sync) (p : Hash) (par : request) : Sync :=
  { s with requests := s.requests.insert p { par with deps := par.deps - 1 } }

/-- A commit step at a hash with no pending request does nothing. -/
theorem commitStep_of_none (fuel : Nat) {s : Sync} {p : Hash} (hp : s.requests.lookup p = none) :
    commitStep fuel s p = s := by
  simp [commitStep, hp]

/-- A commit step at a pending parent takes one reference off it, and commits it once nothing more is owed. -/
theorem commitStep_of_some (fuel : Nat) {s : Sync} {p : Hash} {par : request}
    (hp : s.requests.lookup p = some par) :
    commitStep fuel s p =
      if par.deps - 1 = 0 then commitFuel fuel (decParent s p par) { par with deps := par.deps - 1 }
      else decParent s p par := by
  simp only [commitStep, hp]
  rfl

/-- Taking a reference off a pending parent keeps the number of pending requests. -/
theorem length_decParent {s : Sync} {p : Hash} {par : request} (hp : s.requests.lookup p = some par) :
    (decParent s p par).requests.entries.length = s.requests.entries.length :=
  length_entries_insert hp

/-- A commit never adds a pending request. -/
theorem length_commitFuel_le :
    ∀ (fuel : Nat) (s : Sync) (req : request),
      (commitFuel fuel s req).requests.entries.length ≤ s.requests.entries.length
  | 0, _, _ => le_rfl
  | fuel + 1, s, req => by
    have hstep : ∀ t p, (commitStep fuel t p).requests.entries.length ≤ t.requests.entries.length := by
      intro t p
      cases hp : t.requests.lookup p with
      | none => rw [commitStep_of_none fuel hp]
      | some par =>
        rw [commitStep_of_some fuel hp]
        split_ifs
        · exact (length_commitFuel_le fuel _ _).trans (length_decParent hp).le
        · exact (length_decParent hp).le
    have hfold : ∀ (ps : List Hash) t,
        (ps.foldl (commitStep fuel) t).requests.entries.length ≤ t.requests.entries.length := by
      intro ps
      induction ps with
      | nil => intro t; exact le_rfl
      | cons p ps ih =>
        intro t
        rw [List.foldl_cons]
        exact (ih _).trans (hstep t p)
    rw [commitFuel_succ]
    exact (hfold _ _).trans (length_entries_erase_le _ _)

section CommitInduction

variable (I : Sync → List Hash → Prop) (C : Sync → request → List Hash → Prop)

/-- The induction rule for commits.  {lit}`I` relates a state to the references still
owed, {lit}`C` says when a request may be committed.  If the write of a committable
request keeps {lit}`I`, with the request's parents owed in front, and the decrement of
an owed parent keeps {lit}`I` and leaves a parent at zero committable, then a whole
commit keeps {lit}`I`, given a round for each pending request. -/
theorem commitFuel_induction
    (write : ∀ s req ow, I s ow → C s req ow → I (s.commitWrite req) (req.parents ++ ow))
    (pending : ∀ s req ow, C s req ow → (s.requests.lookup req.hash).isSome)
    (skip : ∀ s p ow, I s (p :: ow) → s.requests.lookup p = none → I s ow)
    (dec : ∀ s p ow par, I s (p :: ow) → s.requests.lookup p = some par →
      I (decParent s p par) ow ∧
        (par.deps - 1 = 0 → C (decParent s p par) { par with deps := par.deps - 1 } ow)) :
    ∀ fuel s req ow, s.requests.entries.length < fuel → I s ow → C s req ow →
      I (commitFuel fuel s req) ow := by
  intro fuel
  induction fuel with
  | zero => intro s req ow hlen; omega
  | succ fuel ih =>
    intro s req ow hlen hI hC
    -- the parents are taken in turn, each within the rounds left
    have hfold : ∀ (ps : List Hash) t, t.requests.entries.length < fuel → I t (ps ++ ow) →
        I (ps.foldl (commitStep fuel) t) ow := by
      intro ps
      induction ps with
      | nil => intro t _ hIt; exact hIt
      | cons p ps ihps =>
        intro t ht hIt
        rw [List.foldl_cons]
        cases hp : t.requests.lookup p with
        | none =>
          rw [commitStep_of_none fuel hp]
          exact ihps t ht (skip t p _ hIt hp)
        | some par =>
          obtain ⟨hI', hC'⟩ := dec t p _ par hIt hp
          have ht' : (decParent t p par).requests.entries.length < fuel := by
            rw [length_decParent hp]
            exact ht
          rw [commitStep_of_some fuel hp]
          split_ifs with hz
          · exact ihps _ ((length_commitFuel_le _ _ _).trans_lt ht') (ih _ _ _ ht' hI' (hC' hz))
          · exact ihps _ ht' hI'
    obtain ⟨r, hr⟩ := Option.isSome_iff_exists.mp (pending s req ow hC)
    have hw : (s.commitWrite req).requests.entries.length < fuel := by
      have := length_entries_erase hr
      rw [commitWrite_requests]
      omega
    rw [commitFuel_succ]
    exact hfold req.parents _ hw (write s req ow hI hC)

end CommitInduction

/-- A request may be committed when it is pending with the parents it is committed
with, and nothing points to it or is owed to it. -/
def CommitReady (s : Sync) (req : request) (ow : List Hash) : Prop :=
  ∃ r, s.requests.lookup req.hash = some r ∧ r.parents = req.parents ∧
    links s.requests req.hash + ow.count req.hash = 0

/-- Committing a request ready for it keeps the bookkeeping, with the references to its parents now owed. -/
theorem Books.commitWrite {s : Sync} {req : request} {ow : List Hash} (hB : s.Books ow)
    (hC : CommitReady s req ow) : (s.commitWrite req).Books (req.parents ++ ow) := by
  obtain ⟨r, hr, hpar, hfree⟩ := hC
  -- no request points to the one written, so every reference stays with a pending target
  have hne : ∀ p, s.Delivered p → links s.requests p ≠ 0 ∨ ow.count p ≠ 0 → p ≠ req.hash := by
    rintro p - hp rfl
    omega
  have hkeep : ∀ p, s.Delivered p → p ≠ req.hash → (s.commitWrite req).Delivered p := by
    rintro p ⟨rp, hrp, hd⟩ hpne
    exact ⟨rp, by rw [commitWrite_requests, AList.lookup_erase_ne hpne]; exact hrp, hd⟩
  refine ⟨fun h r' hr' => ?_, fun h r' hr' => ?_, fun h r' hr' p hp => ?_, fun p hp => ?_⟩
  · rw [commitWrite_requests] at hr'
    by_cases hh : h = req.hash
    · subst hh; simp at hr'
    · rw [AList.lookup_erase_ne hh] at hr'
      exact hB.hash h r' hr'
  · rw [commitWrite_requests] at hr' ⊢
    by_cases hh : h = req.hash
    · subst hh; simp at hr'
    · rw [AList.lookup_erase_ne hh] at hr'
      rw [hB.deps h r' hr', links_erase_of_some hr h, ← hpar, List.count_append]
      omega
  · rw [commitWrite_requests] at hr'
    by_cases hh : h = req.hash
    · subst hh; simp at hr'
    · rw [AList.lookup_erase_ne hh] at hr'
      have hd := hB.parents h r' hr' p hp
      exact hkeep p hd (hne p hd (.inl (links_pos_of_mem hr' hp).ne'))
  · rcases List.mem_append.mp hp with hp | hp
    · rw [← hpar] at hp
      have hd := hB.parents _ r hr p hp
      exact hkeep p hd (hne p hd (.inl (links_pos_of_mem hr hp).ne'))
    · have hd := hB.owed p hp
      exact hkeep p hd (hne p hd (.inr (List.count_pos_iff.mpr hp).ne'))

/-- Paying one owed reference to a parent keeps the bookkeeping. -/
theorem Books.decParent {s : Sync} {p : Hash} {ow : List Hash} {par : request}
    (hB : s.Books (p :: ow)) (hp : s.requests.lookup p = some par) :
    (decParent s p par).Books ow ∧
      (par.deps - 1 = 0 → CommitReady (decParent s p par) { par with deps := par.deps - 1 } ow) := by
  have hlinks : ∀ k, links (Sync.decParent s p par).requests k = links s.requests k := by
    intro k
    have := links_insert_of_some { par with deps := par.deps - 1 } hp k
    unfold Sync.decParent
    dsimp only at this ⊢
    omega
  have hlookup : ∀ k, (Sync.decParent s p par).requests.lookup k =
      if k = p then some { par with deps := par.deps - 1 } else s.requests.lookup k := by
    intro k
    unfold Sync.decParent
    split_ifs with hk
    · subst hk; exact AList.lookup_insert _
    · exact AList.lookup_insert_ne hk
  have hdel : ∀ q, s.Delivered q → (Sync.decParent s p par).Delivered q := by
    rintro q ⟨rq, hrq, hd⟩
    by_cases hq : q = p
    · subst hq
      rw [hrq] at hp
      cases hp
      exact ⟨{ par with deps := par.deps - 1 }, by rw [hlookup, if_pos rfl], hd⟩
    · exact ⟨rq, by rw [hlookup, if_neg hq]; exact hrq, hd⟩
  have hdeps : par.deps - 1 = links s.requests p + ow.count p := by
    rw [hB.deps p par hp, List.count_cons_self]
    push_cast
    ring
  refine ⟨⟨fun h r hr => ?_, fun h r hr => ?_, fun h r hr q hq => ?_, fun q hq => ?_⟩, fun hz => ?_⟩
  · rw [hlookup] at hr
    split_ifs at hr with hh
    · cases hr; subst hh; exact hB.hash _ par hp
    · exact hB.hash h r hr
  · rw [hlookup] at hr
    rw [hlinks]
    split_ifs at hr with hh
    · cases hr; subst hh; exact hdeps
    · rw [hB.deps h r hr, List.count_cons]
      simp [Ne.symm hh]
  · rw [hlookup] at hr
    split_ifs at hr with hh
    · cases hr; exact hdel q (hB.parents p par hp q hq)
    · exact hdel q (hB.parents h r hr q hq)
  · exact hdel q (hB.owed q (List.mem_cons_of_mem p hq))
  · refine ⟨{ par with deps := par.deps - 1 }, ?_, rfl, ?_⟩
    · rw [hlookup, if_pos (hB.hash p par hp)]
    · rw [hlinks, hB.hash p par hp]
      omega

/-- A commit keeps the bookkeeping. -/
theorem Books.commit {s : Sync} {req : request} {ow : List Hash} (hB : s.Books ow)
    (hC : CommitReady s req ow) : (s.commit req).Books ow := by
  refine commitFuel_induction Books CommitReady (fun _ _ _ hB hC => hB.commitWrite hC)
    (fun _ _ _ ⟨r, hr, _⟩ => by rw [hr]; rfl)
    (fun _ p _ hB hp => ?_) (fun _ _ _ _ hB hp => hB.decParent hp) _ s req ow
    (Nat.lt_succ_self _) hB hC
  -- an owed parent is pending
  obtain ⟨r, hr, -⟩ := hB.owed p (List.mem_cons_self)
  rw [hr] at hp
  cases hp

/-! ## Scheduling -/

/-- Scheduling keeps every pending request that has its data. -/
theorem Delivered.schedule {s : Sync} {p : Hash} (hd : s.Delivered p) (req : request) :
    (s.schedule req).Delivered p := by
  obtain ⟨r, hr, hdata⟩ := hd
  by_cases hp : p = req.hash
  · subst hp
    exact ⟨_, lookup_schedule_of_some hr, hdata⟩
  · exact ⟨r, by rw [lookup_schedule_ne s req hp]; exact hr, hdata⟩

/-- {lit}`schedule` takes the references of the new request off those owed: a request
that is new must count what points to it. -/
theorem Books.schedule {s : Sync} {req : request} {ow : List Hash} (hB : s.Books (req.parents ++ ow))
    (hnew : s.requests.lookup req.hash = none →
      req.deps = links s.requests req.hash + (req.parents ++ ow).count req.hash) :
    (s.schedule req).Books ow := by
  have hlinks := links_schedule s req
  refine ⟨fun h r hr => ?_, fun h r hr => ?_, fun h r hr p hp => ?_, fun p hp => ?_⟩
  · by_cases hh : h = req.hash
    · subst hh
      cases hold : s.requests.lookup req.hash with
      | none => rw [lookup_schedule_of_none hold] at hr; cases hr; rfl
      | some old => rw [lookup_schedule_of_some hold] at hr; cases hr; exact hB.hash _ old hold
    · rw [lookup_schedule_ne s req hh] at hr
      exact hB.hash h r hr
  · rw [hlinks]
    by_cases hh : h = req.hash
    · subst hh
      cases hold : s.requests.lookup req.hash with
      | none =>
        rw [lookup_schedule_of_none hold] at hr
        cases hr
        rw [hnew hold, List.count_append]
        push_cast
        ring
      | some old =>
        rw [lookup_schedule_of_some hold] at hr
        cases hr
        rw [hB.deps _ old hold, List.count_append]
        push_cast
        ring
    · rw [lookup_schedule_ne s req hh] at hr
      rw [hB.deps h r hr, List.count_append]
      push_cast
      ring
  · -- every reference, old or new, is to a delivered request
    have hreq : ∀ q ∈ req.parents, s.Delivered q := fun q hq => hB.owed q (List.mem_append_left _ hq)
    by_cases hh : h = req.hash
    · subst hh
      cases hold : s.requests.lookup req.hash with
      | none =>
        rw [lookup_schedule_of_none hold] at hr
        cases hr
        exact (hreq p hp).schedule _
      | some old =>
        rw [lookup_schedule_of_some hold] at hr
        cases hr
        rcases List.mem_append.mp hp with hp | hp
        · exact (hB.parents _ old hold p hp).schedule _
        · exact (hreq p hp).schedule _
    · rw [lookup_schedule_ne s req hh] at hr
      exact (hB.parents h r hr p hp).schedule _
  · exact (hB.owed p (List.mem_append_right _ hp)).schedule _

/-- A write through the pointer of a pending request that keeps its hash, its parents
and its data, and adds {lit}`n` to its count, owes {lit}`n` references to it. -/
theorem Books.update {s : Sync} {ow : List Hash} (hB : s.Books ow) {p : Hash}
    {f : request → request} (n : Nat)
    (hf : ∀ r, (f r).hash = r.hash ∧ (f r).parents = r.parents ∧ (r.data.isSome → (f r).data.isSome))
    (hdeps : ∀ r, (f r).deps = r.deps + n) (hd : n ≠ 0 → s.Delivered p) :
    (s.update p f).Books (List.replicate n p ++ ow) := by
  have hlinks : ∀ k, links (s.update p f).requests k = links s.requests k := by
    intro k
    unfold Sync.update
    split
    · next r hr =>
      have := links_insert_of_some (f r) hr k
      rw [(hf r).2.1] at this
      dsimp only
      omega
    · rfl
  have hdel : ∀ q, s.Delivered q → (s.update p f).Delivered q := by
    rintro q ⟨r, hr, hdata⟩
    rw [Delivered, lookup_update]
    split_ifs with hq
    · subst hq
      exact ⟨f r, by rw [hr]; rfl, (hf r).2.2 hdata⟩
    · exact ⟨r, hr, hdata⟩
  refine ⟨fun h r hr => ?_, fun h r hr => ?_, fun h r hr q hq => ?_, fun q hq => ?_⟩
  · rw [lookup_update] at hr
    split_ifs at hr with hh
    · subst hh
      obtain ⟨r0, hr0, rfl⟩ := Option.map_eq_some_iff.mp hr
      rw [(hf r0).1]
      exact hB.hash _ r0 hr0
    · exact hB.hash h r hr
  · rw [lookup_update] at hr
    rw [hlinks, List.count_append]
    split_ifs at hr with hh
    · subst hh
      obtain ⟨r0, hr0, rfl⟩ := Option.map_eq_some_iff.mp hr
      rw [hdeps, hB.deps _ r0 hr0, List.count_replicate_self]
      push_cast
      ring
    · rw [hB.deps h r hr, List.count_replicate]
      simp [Ne.symm hh]
  · rw [lookup_update] at hr
    split_ifs at hr with hh
    · subst hh
      obtain ⟨r0, hr0, rfl⟩ := Option.map_eq_some_iff.mp hr
      rw [(hf r0).2.1] at hq
      exact hdel q (hB.parents _ r0 hr0 q hq)
    · exact hdel q (hB.parents h r hr q hq)
  · rcases List.mem_append.mp hq with hq | hq
    · obtain ⟨-, rfl⟩ := List.mem_replicate.mp hq
      exact hdel q (hd (List.length_replicate (n := n) (a := q) ▸ List.length_pos_of_mem hq).ne')
    · exact hdel q (hB.owed q hq)

/-- A new request with a count of zero needs nothing more: nothing points to a request
that is not pending, and every reference owed is to a pending one. -/
theorem Books.schedule_of_deps_zero {s : Sync} {req : request} {ow : List Hash}
    (hB : s.Books (req.parents ++ ow)) (hdeps : req.deps = 0) : (s.schedule req).Books ow := by
  refine hB.schedule fun hnew => ?_
  have hnd : ¬ s.Delivered req.hash := fun ⟨r, hr, _⟩ => by rw [hr] at hnew; cases hnew
  rw [hB.links_eq_zero hnd, List.count_eq_zero.mpr fun hmem => hnd (hB.owed _ hmem), hdeps]
  rfl

/-- A write that keeps the data keeps every pending request that has its data. -/
theorem Delivered.update {s : Sync} {q p : Hash} (hd : s.Delivered q) {f : request → request}
    (hf : ∀ r, r.data.isSome → (f r).data.isSome) : (s.update p f).Delivered q := by
  obtain ⟨r, hr, hdata⟩ := hd
  rw [Delivered, lookup_update]
  split_ifs with hq
  · subst hq
    exact ⟨f r, by rw [hr]; rfl, hf r hdata⟩
  · exact ⟨r, hr, hdata⟩

/-- The parent of {lit}`linkAndSchedule`, found by its hash, is the parent's request. -/
theorem linkAndSchedule_eq {s : Sync} {req : request} {parent : Hash} {ancestor : request}
    (hz : parent ≠ Hash.zero) (hl : s.requests.lookup parent = some ancestor) :
    s.linkAndSchedule req parent =
      some ((s.update parent fun r => { r with deps := r.deps + 1 }).schedule
        { req with parents := req.parents ++ [parent] }) := by
  simp [Sync.linkAndSchedule, hz, hl, Sync.update]

/-- Adding a request without parents under a delivered parent, or under none, keeps the bookkeeping. -/
theorem Books.linkAndSchedule {s s' : Sync} {req : request} {parent : Hash} (hB : s.Books [])
    (hparents : req.parents = []) (hdeps : req.deps = 0)
    (hpar : parent ≠ Hash.zero → s.Delivered parent) (h : s.linkAndSchedule req parent = some s') :
    s'.Books [] ∧ ∀ q, s.Delivered q → s'.Delivered q := by
  by_cases hz : parent = Hash.zero
  · simp only [Sync.linkAndSchedule, hz, ne_eq, not_true_eq_false, if_false,
      Option.some.injEq] at h
    subst h
    exact ⟨Books.schedule_of_deps_zero (by simpa [hparents] using hB) hdeps,
      fun q hq => hq.schedule _⟩
  · obtain ⟨ancestor, hl, -⟩ := hpar hz
    rw [linkAndSchedule_eq hz hl, Option.some.injEq] at h
    subst h
    -- the parent counts one more, owed until the new request points to it
    have h1 := hB.update (p := parent) (f := fun r => { r with deps := r.deps + 1 }) 1
      (fun _ => ⟨rfl, rfl, id⟩) (fun _ => by simp) (fun _ => hpar hz)
    refine ⟨Books.schedule_of_deps_zero (by simpa [hparents] using h1) hdeps, fun q hq => ?_⟩
    exact (Delivered.update hq (f := fun r => { r with deps := r.deps + 1 }) fun _ => id).schedule _

/-- {lit}`AddSubTrie` under a delivered parent, or under none, keeps the bookkeeping. -/
theorem Books.AddSubTrie {s s' : Sync} (hB : s.Books []) {root : Hash} {depth : Nat}
    {parent : Hash} {cb : Bool} (hpar : parent ≠ Hash.zero → s.Delivered parent)
    (h : s.AddSubTrie root depth parent cb = some s') :
    s'.Books [] ∧ ∀ q, s.Delivered q → s'.Delivered q := by
  unfold Sync.AddSubTrie at h
  split_ifs at h
  · cases h; exact ⟨hB, fun _ => id⟩
  · cases h; exact ⟨hB, fun _ => id⟩
  · split at h
    · cases h; exact ⟨hB, fun _ => id⟩
    · exact hB.linkAndSchedule rfl rfl hpar h

/-- {lit}`AddRawEntry` under a delivered parent, or under none, keeps the bookkeeping. -/
theorem Books.AddRawEntry {sha : Bytes → Hash} {s s' : Sync} (hB : s.Books []) {hash : Hash}
    {depth : Nat}
    {parent : Hash} (hpar : parent ≠ Hash.zero → s.Delivered parent)
    (h : s.AddRawEntry sha hash depth parent = some s') :
    s'.Books [] ∧ ∀ q, s.Delivered q → s'.Delivered q := by
  unfold Sync.AddRawEntry at h
  split_ifs at h
  · cases h; exact ⟨hB, fun _ => id⟩
  · cases h; exact ⟨hB, fun _ => id⟩
  · cases h; exact ⟨hB, fun _ => id⟩
  · exact hB.linkAndSchedule rfl rfl hpar h

/-- The additions of a callback under a delivered request keep the bookkeeping. -/
theorem Books.foldlM_applyAdd {sha : Bytes → Hash} {R : Hash} :
    ∀ (adds : List SyncAdd) {s s' : Sync}, s.Books [] → s.Delivered R →
      (∀ a ∈ adds, a.parent = R) → adds.foldlM (applyAdd sha) s = some s' →
      s'.Books [] ∧ s'.Delivered R
  | [], s, s', hB, hR, _, h => by
    cases h
    exact ⟨hB, hR⟩
  | a :: adds, s, s', hB, hR, hadds, h => by
    rw [List.foldlM_cons] at h
    obtain ⟨s1, h1, h2⟩ := Option.bind_eq_some_iff.mp h
    have hpar : a.parent ≠ Hash.zero → s.Delivered a.parent := fun _ => by
      rw [hadds a List.mem_cons_self]
      exact hR
    -- one addition, then the rest
    have hstep : s1.Books [] ∧ ∀ q, s.Delivered q → s1.Delivered q := by
      cases a with
      | subTrie root depth parent => exact hB.AddSubTrie hpar h1
      | rawEntry hash depth parent => exact hB.AddRawEntry hpar h1
    exact Books.foldlM_applyAdd adds hstep.1 (hstep.2 R hR)
      (fun a ha => hadds a (List.mem_cons_of_mem _ ha)) h2

/-- A callback that adds only under the node whose leaf it sees, as the one of
{lit}`NewStateSync` does. -/
def UnderParent (cb : SyncCallback) : Prop :=
  ∀ leaf parent, ∀ a ∈ (cb leaf parent).1, a.parent = parent

section Callback

variable {sha : Bytes → Hash} {callback : Option SyncCallback}

/-- A callback that adds only under the node whose leaf it sees keeps the bookkeeping, and the node stays delivered. -/
theorem Books.leafCallback (hcb : ∀ cb ∈ callback, UnderParent cb) {s s' : Sync} {req : request}
    {child : Node} {e : Option String} (hB : s.Books []) (hd : s.Delivered req.hash)
    (h : leafCallback sha callback s req child = some (s', e)) : s'.Books [] ∧ s'.Delivered req.hash := by
  unfold Sync.leafCallback at h
  split at h
  · next _ _ _ cb v _ =>
    dsimp only at h
    obtain ⟨s1, h1, h2⟩ := Option.map_eq_some_iff.mp h
    cases h2
    exact Books.foldlM_applyAdd _ hB hd (hcb cb rfl v req.hash) h1
  · cases h
    exact ⟨hB, hd⟩

/-- The requests {lit}`children` makes point to the delivered node and count nothing. -/
def ChildRequest (R : Hash) (r : request) : Prop := r.parents = [R] ∧ r.deps = 0

/-- The loop of {lit}`children` keeps the bookkeeping while it collects requests under the delivered node. -/
theorem Books.childrenLoop (hcb : ∀ cb ∈ callback, UnderParent cb) {req : request} :
    ∀ (cs : List (Node × Nat)) (reqs : List request) {s s' : Sync}
      {res : Except SyncError (List request)},
      s.Books [] → s.Delivered req.hash → (∀ r ∈ reqs, ChildRequest req.hash r) →
      Sync.childrenLoop sha callback s req cs reqs = some (s', res) →
      s'.Books [] ∧ s'.Delivered req.hash ∧
        ∀ requests, res = .ok requests → ∀ r ∈ requests, ChildRequest req.hash r
  | [], reqs, s, s', res, hB, hd, hreqs, h => by
    simp only [Sync.childrenLoop, Option.some.injEq, Prod.mk.injEq] at h
    obtain ⟨rfl, rfl⟩ := h
    exact ⟨hB, hd, fun requests he => by cases he; exact hreqs⟩
  | (child, depth) :: cs, reqs, s, s', res, hB, hd, hreqs, h => by
    rw [Sync.childrenLoop] at h
    cases hl : Sync.leafCallback sha callback s req child with
    | none => rw [hl] at h; cases h
    | some r =>
      obtain ⟨s1, e⟩ := r
      obtain ⟨hB1, hd1⟩ := hB.leafCallback hcb hd hl
      rw [hl] at h
      cases e with
      | some e =>
        simp only [Option.some.injEq, Prod.mk.injEq] at h
        obtain ⟨rfl, rfl⟩ := h
        exact ⟨hB1, hd1, fun requests he => by cases he⟩
      | none =>
        dsimp only at h
        -- a hash child that is missing becomes a request pointing to this one
        split at h
        · split at h
          · exact Books.childrenLoop hcb cs reqs hB1 hd1 hreqs h
          · refine Books.childrenLoop hcb cs _ hB1 hd1 (fun r hr => ?_) h
            rcases List.mem_append.mp hr with hr | hr
            · exact hreqs r hr
            · rw [List.mem_singleton] at hr
              subst hr
              exact ⟨rfl, rfl⟩
        · exact Books.childrenLoop hcb cs reqs hB1 hd1 hreqs h

/-- Scheduling the requests under a delivered node, whose references to it are owed, pays them. -/
theorem Books.foldl_schedule {R : Hash} :
    ∀ (reqs : List request) {s : Sync}, s.Books (List.replicate reqs.length R) → s.Delivered R →
      (∀ r ∈ reqs, ChildRequest R r) → (reqs.foldl Sync.schedule s).Books []
  | [], s, hB, _, _ => hB
  | r :: reqs, s, hB, hR, hreqs => by
    obtain ⟨hpar, hdeps⟩ := hreqs r List.mem_cons_self
    rw [List.foldl_cons]
    have hB' : s.Books (r.parents ++ List.replicate reqs.length R) := by
      rw [hpar]
      exact hB
    exact Books.foldl_schedule reqs (hB'.schedule_of_deps_zero hdeps) (hR.schedule r)
      (fun r' hr' => hreqs r' (List.mem_cons_of_mem _ hr'))

/-- {lit}`children` of a delivered node keeps the bookkeeping. -/
theorem Books.children (hcb : ∀ cb ∈ callback, UnderParent cb) {s s' : Sync} {req : request}
    {object : Node} {res : Except SyncError (List request)} (hB : s.Books [])
    (hd : s.Delivered req.hash) (h : Sync.children sha callback s req object = some (s', res)) :
    s'.Books [] ∧ s'.Delivered req.hash ∧
      ∀ requests, res = .ok requests → ∀ r ∈ requests, ChildRequest req.hash r := by
  unfold Sync.children at h
  split at h
  · cases h
  · exact Books.childrenLoop hcb _ [] hB hd (by simp) h

/-- {lit}`Process` keeps the bookkeeping, whatever it is given. -/
theorem Books.processLoop (hcb : ∀ cb ∈ callback, UnderParent cb) :
    ∀ (results : List SyncResult) {s : Sync} {i : Nat} {c : Bool}
      {out : Sync × Bool × Nat × Option SyncError},
      s.Books [] → Sync.processLoop sha callback s results i c = some out → out.1.Books []
  | [], s, i, c, out, hB, h => by
    simp only [Sync.processLoop, Option.some.injEq] at h
    subst h
    exact hB
  | item :: results, s, i, c, out, hB, h => by
    rw [Sync.processLoop] at h
    cases hreq : s.requests.lookup item.Hash with
    | none =>
      rw [hreq, Option.some.injEq] at h
      subst h
      exact hB
    | some request =>
      rw [hreq] at h
      dsimp only at h
      have hhash : request.hash = item.Hash := hB.hash _ request hreq
      split_ifs at h with hdata hraw
      · rw [Option.some.injEq] at h
        subst h
        exact hB
      · -- a raw entry has no data yet, so nothing points to it
        have hnd : ¬ s.Delivered item.Hash := by
          rintro ⟨r, hr, hd⟩
          rw [hreq, Option.some.injEq] at hr
          subst hr
          exact hdata hd
        refine Books.processLoop hcb results
          (hB.commit (show CommitReady s { request with data := some item.Data } [] from
            ⟨request, ?_, rfl, ?_⟩)) h
        · rw [hhash]
          exact hreq
        · rw [hhash, hB.links_eq_zero hnd]
          rfl
      · split at h
        · rw [Option.some.injEq] at h
          subst h
          exact hB
        · next node hdec =>
          -- the node is delivered, then its children are looked at
          have hB1 := hB.update (p := item.Hash) (f := fun r => { r with data := some item.Data }) 0
            (fun _ => ⟨rfl, rfl, fun _ => rfl⟩) (fun _ => by simp) (fun h0 => absurd rfl h0)
          rw [List.replicate_zero, List.nil_append] at hB1
          have hd1 : (s.update item.Hash fun r => { r with data := some item.Data }).Delivered
              ({ request with data := some item.Data } : Mtp.request).hash := by
            refine ⟨{ request with data := some item.Data }, ?_, rfl⟩
            rw [lookup_update, if_pos hhash, hreq]
            rfl
          cases hch : Sync.children sha callback (s.update item.Hash fun r => { r with data := some item.Data })
              { request with data := some item.Data } node with
          | none => rw [hch] at h; cases h
          | some r =>
            obtain ⟨s2, res⟩ := r
            obtain ⟨hB2, hd2, hreqs⟩ := hB1.children hcb hd1 hch
            rw [hch] at h
            cases res with
            | error e =>
              simp only [Option.some.injEq] at h
              subst h
              exact hB2
            | ok requests =>
              dsimp only at h
              obtain ⟨r2, hr2, hdata2⟩ := hd2
              change s2.requests.lookup request.hash = some r2 at hr2
              rw [hhash] at hr2
              rw [hr2, Option.getD_some] at h
              have hdeps2 := hB2.deps _ r2 hr2
              split_ifs at h with hz
              · -- nothing to wait for: the node is committed at once
                refine Books.processLoop hcb results
                  (hB2.commit (show CommitReady s2 r2 [] from ⟨r2, ?_, rfl, ?_⟩)) h
                · rw [hB2.hash _ r2 hr2]
                  exact hr2
                · rw [hB2.hash _ r2 hr2, List.count_nil, add_zero]
                  simp only [List.count_nil, Nat.cast_zero, add_zero] at hdeps2
                  omega
              · -- the node waits for one reference from each child request
                have hd2 : s2.Delivered item.Hash := ⟨r2, hr2, hdata2⟩
                have hB3 := hB2.update (p := item.Hash)
                  (f := fun r => { r with deps := r.deps + requests.length }) requests.length
                  (fun _ => ⟨rfl, rfl, id⟩) (fun _ => rfl) (fun _ => hd2)
                rw [List.append_nil] at hB3
                have hchild : ∀ r ∈ requests, ChildRequest item.Hash r := by
                  rw [← hhash]
                  exact hreqs requests rfl
                exact Books.processLoop hcb results
                  (Books.foldl_schedule requests hB3 (hd2.update fun _ => id) hchild) h

/-- The bookkeeping reads the pending requests only. -/
theorem Books.of_requests_eq {s s' : Sync} {ow : List Hash} (hB : s.Books ow)
    (heq : s'.requests = s.requests) : s'.Books ow := by
  have hd : ∀ p, s.Delivered p → s'.Delivered p := by
    intro p hp
    unfold Delivered
    rw [heq]
    exact hp
  refine ⟨?_, ?_, ?_, fun p hp => hd p (hB.owed p hp)⟩
  · rw [heq]
    exact hB.hash
  · unfold DepsOwed
    rw [heq]
    exact hB.deps
  · rw [heq]
    exact fun h r hr p hp => hd p (hB.parents h r hr p hp)

/-- Every call keeps the bookkeeping of the trie sync. -/
theorem Books.step (hcb : ∀ cb ∈ callback, UnderParent cb) {s s' : Sync} {missed : List Hash}
    (hB : s.Books []) (op : Op) (h : Sync.step sha callback s op = some (s', missed)) : s'.Books [] := by
  cases op with
  | Process results =>
    obtain ⟨out, hout, he⟩ := Option.map_eq_some_iff.mp h
    cases he
    exact hB.processLoop hcb results hout
  | Commit failAt =>
    simp only [Sync.step, Option.some.injEq, Prod.mk.injEq] at h
    rw [← h.1]
    exact hB.of_requests_eq (Commit_requests s failAt)
  | Missing max =>
    simp only [Sync.step, Option.some.injEq, Prod.mk.injEq] at h
    rw [← h.1]
    exact hB.of_requests_eq (Missing_requests s max)

/-- Induction over runs.  An invariant of the state and of the hashes asked for so far,
kept by every step whose operation satisfies {lit}`P`, holds after every run of such
operations. -/
theorem run_induction (P : Op → Prop) (I : Sync → List Hash → Prop)
    (hstep : ∀ {s s' : Sync} {M out : List Hash} {op : Op}, P op → I s M →
      Sync.step sha callback s op = some (s', out) → I s' (M ++ out)) :
    ∀ (ops : List Op) {s s' : Sync} {M out : List Hash}, (∀ op ∈ ops, P op) → I s M →
      Sync.run sha callback ops s = some (s', out) → I s' (M ++ out)
  | [], s, s', M, out, _, hI, h => by
    simp only [Sync.run, Option.some.injEq, Prod.mk.injEq] at h
    obtain ⟨rfl, rfl⟩ := h
    rwa [List.append_nil]
  | op :: ops, s, s', M, out, hops, hI, h => by
    rw [Sync.run] at h
    obtain ⟨r, hr, h2⟩ := Option.bind_eq_some_iff.mp h
    obtain ⟨r', hr', he⟩ := Option.map_eq_some_iff.mp h2
    cases he
    rw [← List.append_assoc]
    exact run_induction P I hstep ops (fun o ho => hops o (List.mem_cons_of_mem op ho))
      (hstep (hops op List.mem_cons_self) hI hr) hr'

/-- A run of calls keeps the bookkeeping of the trie sync. -/
theorem Books.run (hcb : ∀ cb ∈ callback, UnderParent cb) (ops : List Op) {s s' : Sync}
    {missed : List Hash} (hB : s.Books []) (h : Sync.run sha callback ops s = some (s', missed)) :
    s'.Books [] :=
  run_induction (fun _ => True) (fun t _ => t.Books []) (fun _ hB h => hB.step hcb _ h) ops
    (fun _ _ => trivial) (M := []) hB h

/-- {lit}`NewSync` starts with its bookkeeping right. -/
theorem books_NewSync (root : Hash) (database : KeyValueStore) :
    (NewSync callback root database).Books [] := by
  have h0 : (⟨database, newSyncMemBatch, ∅, []⟩ : Sync).Books [] :=
    ⟨by simp, by simp [DepsOwed], by simp, by simp⟩
  unfold NewSync
  dsimp only
  cases h : (⟨database, newSyncMemBatch, ∅, []⟩ : Sync).AddSubTrie root 0 Hash.zero
      callback.isSome with
  | none => exact h0
  | some s' => exact (h0.AddSubTrie (fun hz => absurd rfl hz) h).1

/-- Whatever leaf callback the sync has, as long as it adds under the node whose leaf it
sees, every run from a new sync keeps the bookkeeping of {lit}`sync.go`: each pending
request is stored under its hash, its count {lit}`deps` is the number of references to
it from pending requests, and every reference is to a pending request whose data has
come.  So no count is lost or made twice, and no commit leaves a reference behind. -/
theorem run_NewSync_books (sha : Bytes → Hash) (hcb : ∀ cb ∈ callback, UnderParent cb) (root : Hash)
    (database : KeyValueStore) (ops : List Op) {s : Sync} {missed : List Hash}
    (hrun : Sync.run sha callback ops (NewSync callback root database) = some (s, missed)) :
    ∀ h r, s.requests.lookup h = some r →
      r.hash = h ∧ r.deps = links s.requests h ∧
        ∀ p ∈ r.parents, ∃ rp, s.requests.lookup p = some rp ∧ rp.data.isSome := by
  have hB := Books.run hcb ops (books_NewSync root database) hrun
  intro h r hr
  have hdeps := hB.deps h r hr
  rw [List.count_nil, Nat.cast_zero, add_zero] at hdeps
  exact ⟨hB.hash h r hr, hdeps, hB.parents h r hr⟩

end Callback

/-! ## A sync of a node with a hash child

The example runs fetch a trie of two nodes from an empty database: under the root
hash {lit}`hashA` an extension node of the nibble 1 over the hash {lit}`hashB`, and
under {lit}`hashB` a leaf.  The sync asks for the root, gets the extension node and
schedules its child, asks for the child, gets the leaf, and writes both out, the
leaf first. -/

def hashA : Hash := ⟨List.replicate 32 1, by decide⟩

def hashB : Hash := ⟨List.replicate 32 2, by decide⟩

def hashC : Hash := ⟨List.replicate 32 3, by decide⟩

/-- The blob of an extension node: the key of the nibble 1 over the hash {lit}`hashB`. -/
def extBlob : Bytes := [0xe2, 0x11, 0xa0] ++ List.replicate 32 2

/-- The blob of a leaf: the short node with the empty key and the value {lit}`a`. -/
def leafBlob : Bytes := [0xc2, 0x20, 0x61]

/-- The calls that fetch the extension node and its leaf and write them out. -/
def extRun : List Op :=
  [.Missing 0, .Process [⟨hashA, extBlob⟩], .Missing 0, .Process [⟨hashB, leafBlob⟩], .Commit none]

/-- A callback like the one of {lit}`NewStateSync`, asking for a raw entry under the node
whose leaf it sees. -/
def rawUnderLeaf (hash : Hash) : SyncCallback := fun _ parent => ([.rawEntry hash 64 parent], none)

/-- With a callback that asks for the raw entry {lit}`hashC` under the leaf, the run
and one more {lit}`Missing` asks for the three hashes and leaves the extension node
waiting for the leaf, and the leaf for the raw entry. -/
theorem run_NewSync_books_extLeaf :
    (∀ cb ∈ some (rawUnderLeaf hashC), UnderParent cb) ∧
      ∃ s, Sync.run (fun _ => Hash.zero) (some (rawUnderLeaf hashC)) (extRun ++ [.Missing 0])
          (NewSync (some (rawUnderLeaf hashC)) hashA fun _ => none) =
            some (s, [hashA, hashB, hashC]) ∧
        ∀ h r, s.requests.lookup h = some r → r.hash = h ∧ r.deps = links s.requests h ∧
          ∀ p ∈ r.parents, ∃ rp, s.requests.lookup p = some rp ∧ rp.data.isSome := by
  have hcb : ∀ cb ∈ some (rawUnderLeaf hashC), UnderParent cb := by
    intro cb hc leaf parent a ha
    rw [Option.mem_def, Option.some.injEq] at hc
    subst hc
    simp only [rawUnderLeaf, List.mem_singleton] at ha
    subst ha
    rfl
  obtain ⟨⟨s, missed⟩, hrun, hmissed⟩ := Option.map_eq_some_iff.mp
    (show (Sync.run (fun _ => Hash.zero) (some (rawUnderLeaf hashC)) (extRun ++ [.Missing 0])
      (NewSync (some (rawUnderLeaf hashC)) hashA fun _ => none)).map Prod.snd =
        some [hashA, hashB, hashC] by decide +kernel)
  cases hmissed
  exact ⟨hcb, s, hrun, run_NewSync_books (fun _ => Hash.zero) hcb hashA (fun _ => none) _ hrun⟩

end Sync
end Mtp
end Uranus
