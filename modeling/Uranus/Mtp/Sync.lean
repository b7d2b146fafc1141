import Uranus.Lib.Heap
import Uranus.Mtp.Iterator

/-!
# Trie synchronisation ({lit}`common/mtp/sync.go`)

A {lit}`Sync` downloads a trie it does not have, node by node.  It hands out the
hashes it misses ({lit}`Missing`), takes the data delivered for them
({lit}`Process`), schedules the children of each delivered node that are neither in
its database nor in its memory batch, and moves a node to the memory batch once
every child it waits for is there ({lit}`commit`), parents after children.
{lit}`Commit` writes the memory batch out in that order.  Leaf callbacks may hang
further sub-tries and raw entries (contract code) under the node whose leaf they
see; the node then waits for them too.

The Go requests are objects linked by pointers: a request points to the requests of
the parents waiting for it.  Every pending request is the one the map
{lit}`requests` holds under its hash, so here a parent is named by its hash and
read, and written, through the map; a pointer that the map no longer reaches is a
write to nothing.  The queue is the {lit}`prque` of the source, a
{lit}`container/heap` over a stack that pops the greatest priority, the depth of
the request.  The callback a request carries is the sync's own or nil; a callback
acts on the sync through {lit}`AddSubTrie`, with a nil callback, and
{lit}`AddRawEntry`, which it calls before it returns.  {lit}`Commit` writes into
the database the sync reads, as all its callers do, and the writer may refuse one
{lit}`Put`.  Every function returns {lean}`none` where the Go code panics, but for the
node decoder: it returns a panic of Go's {lit}`decodeNode` as the error
{lit}`DecodeFailure.panic`, which {lit}`AddSubTrie` takes as a root to request and
{lit}`Process` returns as a decoding error.

Main results:

- Definitions {lit}`Sync.NewSync`, {lit}`Sync.Missing`, {lit}`Sync.Process`,
  {lit}`Sync.Commit` and {lit}`Sync.Pending`: the scheduler's interface, and
  {lit}`Sync.run`, any sequence of calls.
-/

namespace Uranus
namespace Mtp

open Lib

/-- {lit}`request`: a retrieval that is scheduled, in flight, or delivered and waiting
for its children.  {lit}`data` stays {lean}`none` until the node is delivered;
{lit}`parents` are the hashes of the requests waiting for this one, once for each
reference; {lit}`deps` counts the requests this one waits for; {lit}`callback` says
whether it carries the sync's leaf callback. -/
structure request where
  hash : Hash
  data : Option Bytes
  raw : Bool
  parents : List Hash
  depth : Nat
  deps : Int
  callback : Bool

/-- {lit}`SyncResult`: a hash and the data delivered for it. -/
structure SyncResult where
  Hash : Uranus.Hash
  Data : Bytes

/-- {lit}`syncMemBatch`: the completed items not yet written, and the order they
were completed in. -/
structure syncMemBatch where
  batch : Hash → Option Bytes
  order : List Hash

/-- {lit}`newSyncMemBatch`. -/
def newSyncMemBatch : syncMemBatch := ⟨fun _ => none, []⟩

/-- What a leaf callback asks of the sync, under a designated parent. -/
inductive SyncAdd where
  | subTrie (root : Hash) (depth : Nat) (parent : Hash)
  | rawEntry (hash : Hash) (depth : Nat) (parent : Hash)

/-- The parent an addition is made under. -/
def SyncAdd.parent : SyncAdd → Hash
  | .subTrie _ _ parent => parent
  | .rawEntry _ _ parent => parent

/-- A {lit}`LeafCallback` of the sync, by what it does with a leaf and the hash of
the node holding it: the additions it makes, in order, and the error it returns. -/
abbrev SyncCallback := Bytes → Hash → List SyncAdd × Option String

/-- The errors {lit}`Process` returns. -/
inductive SyncError where
  | ErrNotRequested
  | ErrAlreadyProcessed
  | decode (e : DecodeError)
  | callback (e : String)

/-- {lit}`Sync`: the database read for entries that exist, the memory batch, the
pending requests by hash, and the queue of hashes with their depths. -/
structure Sync where
  database : KeyValueStore
  membatch : syncMemBatch
  requests : AList fun _ : Hash => request
  queue : List (Hash × Nat)

/-- The order of the {lit}`prque`: a greater depth comes out first. -/
def prio (item : Hash × Nat) : Natᵒᵈ := OrderDual.toDual item.2

namespace Sync

/-- Whether the memory batch holds an entry. -/
def inBatch (s : Sync) (h : Hash) : Bool := (s.membatch.batch h).isSome

/-- {lit}`s.database.Has`. -/
def Has (s : Sync) (h : Hash) : Bool := (s.database h.bytes).isSome

/-- A write through a pointer to the request pending under a hash. -/
def update (s : Sync) (h : Hash) (f : request → request) : Sync :=
  match s.requests.lookup h with
  | some r => { s with requests := s.requests.insert h (f r) }
  | none => s

@[simp] theorem update_database (s : Sync) (h : Hash) (f : request → request) :
    (s.update h f).database = s.database := by
  unfold update; split <;> rfl

@[simp] theorem update_membatch (s : Sync) (h : Hash) (f : request → request) :
    (s.update h f).membatch = s.membatch := by
  unfold update; split <;> rfl

@[simp] theorem update_queue (s : Sync) (h : Hash) (f : request → request) :
    (s.update h f).queue = s.queue := by
  unfold update; split <;> rfl

/-- A write through a pointer changes only the request at that hash. -/
theorem lookup_update (s : Sync) (h : Hash) (f : request → request) (k : Hash) :
    (s.update h f).requests.lookup k =
      if k = h then (s.requests.lookup h).map f else s.requests.lookup k := by
  unfold update
  split
  · next r hr =>
    by_cases hk : k = h
    · subst hk
      simp [hr]
    · simp [AList.lookup_insert_ne hk, hk]
  · next hr =>
    by_cases hk : k = h
    · subst hk
      simp [hr]
    · simp [hk]

/-- {lit}`schedule`: a hash already pending only gains the new parents; any other is
pushed on the queue at its depth. -/
def schedule (s : Sync) (req : request) : Sync :=
  match s.requests.lookup req.hash with
  | some old =>
    { s with requests := s.requests.insert req.hash { old with parents := old.parents ++ req.parents } }
  | none =>
    { s with queue := Heap.Push prio s.queue (req.hash, req.depth)
             requests := s.requests.insert req.hash req }

@[simp] theorem schedule_database (s : Sync) (req : request) :
    (s.schedule req).database = s.database := by
  unfold schedule; split <;> rfl

@[simp] theorem schedule_membatch (s : Sync) (req : request) :
    (s.schedule req).membatch = s.membatch := by
  unfold schedule; split <;> rfl

/-- Scheduling changes no other request. -/
theorem lookup_schedule_ne (s : Sync) (req : request) {k : Hash} (hk : k ≠ req.hash) :
    (s.schedule req).requests.lookup k = s.requests.lookup k := by
  unfold schedule
  split <;> exact AList.lookup_insert_ne hk

/-- Scheduling a hash already pending merges the parents into the pending request. -/
theorem lookup_schedule_of_some {s : Sync} {req old : request}
    (hold : s.requests.lookup req.hash = some old) :
    (s.schedule req).requests.lookup req.hash = some { old with parents := old.parents ++ req.parents } := by
  simp [schedule, hold]

/-- Scheduling a new hash stores the request. -/
theorem lookup_schedule_of_none {s : Sync} {req : request} (hnew : s.requests.lookup req.hash = none) :
    (s.schedule req).requests.lookup req.hash = some req := by
  simp [schedule, hnew]

/-- Scheduling a hash already pending leaves the queue. -/
theorem queue_schedule_of_some {s : Sync} {req old : request}
    (hold : s.requests.lookup req.hash = some old) : (s.schedule req).queue = s.queue := by
  simp [schedule, hold]

/-- Scheduling a new hash pushes it onto the queue by its depth. -/
theorem queue_schedule_of_none {s : Sync} {req : request} (hnew : s.requests.lookup req.hash = none) :
    (s.schedule req).queue = Heap.Push prio s.queue (req.hash, req.depth) := by
  simp [schedule, hnew]

/-- The common tail of {lit}`AddSubTrie` and {lit}`AddRawEntry`: under a designated
parent, the parent's request waits for one more and the new one points to it; a
parent that is not pending panics. -/
def linkAndSchedule (s : Sync) (req : request) (parent : Hash) : Option Sync :=
  if parent ≠ Hash.zero then
    match s.requests.lookup parent with
    | none => none
    | some ancestor =>
      let s := { s with requests := s.requests.insert parent { ancestor with deps := ancestor.deps + 1 } }
      some (s.schedule { req with parents := req.parents ++ [parent] })
  else some (s.schedule req)

/-- {lit}`AddSubTrie`: a trie that is empty, in the memory batch, or whose root
decodes from the database is known; any other is requested.  The callback is the
sync's own or nil. -/
def AddSubTrie (s : Sync) (root : Hash) (depth : Nat) (parent : Hash) (callback : Bool) :
    Option Sync :=
  if root = emptyRoot then some s
  else if s.inBatch root then some s
  else
    match decodeNode (some root) ((s.database root.bytes).getD []) 0 with
    | .ok _ => some s
    | .error _ => s.linkAndSchedule ⟨root, none, false, [], depth, 0, callback⟩ parent

section Hashing

-- the Keccak-256 of the node database, read for emptyState
variable (sha : Bytes → Hash)

/-- {lit}`AddRawEntry`: an entry that is the empty string's, in the memory batch or in
the database is known; any other is requested raw. -/
def AddRawEntry (s : Sync) (hash : Hash) (depth : Nat) (parent : Hash) : Option Sync :=
  if hash = emptyState sha then some s
  else if s.inBatch hash then some s
  else if s.Has hash then some s
  else s.linkAndSchedule ⟨hash, none, true, [], depth, 0, false⟩ parent

/-- One addition of a leaf callback. -/
def applyAdd (s : Sync) : SyncAdd → Option Sync
  | .subTrie root depth parent => s.AddSubTrie root depth parent false
  | .rawEntry hash depth parent => s.AddRawEntry sha hash depth parent

end Hashing

/-- {lit}`commit`: the request goes to the memory batch and leaves the pending ones,
and every parent waits for one fewer, once for each reference; a parent that waits
for none is committed in its turn, before the next parent is looked at.  Each
commit removes a pending request, so as many rounds as there are pending requests
reach all of them. -/
def commitFuel : Nat → Sync → request → Sync
  | 0, s, _ => s
  | fuel + 1, s, req =>
    let s : Sync := { s with
      membatch := ⟨Function.update s.membatch.batch req.hash (some (req.data.getD [])),
        s.membatch.order ++ [req.hash]⟩
      requests := s.requests.erase req.hash }
    req.parents.foldl (fun s p =>
      match s.requests.lookup p with
      | none => s
      | some parent =>
        let parent := { parent with deps := parent.deps - 1 }
        let s := { s with requests := s.requests.insert p parent }
        if parent.deps = 0 then commitFuel fuel s parent else s) s

/-- {lit}`commit`, with a round for every pending request. -/
def commit (s : Sync) (req : request) : Sync :=
  commitFuel (s.requests.entries.length + 1) s req

/-- The first half of {lit}`commit`: the request is written to the memory batch and
leaves the pending ones. -/
def commitWrite (s : Sync) (req : request) : Sync :=
  { s with
    membatch := ⟨Function.update s.membatch.batch req.hash (some (req.data.getD [])),
      s.membatch.order ++ [req.hash]⟩
    requests := s.requests.erase req.hash }

/-- The second half of {lit}`commit`, for one parent. -/
def commitStep (fuel : Nat) (s : Sync) (p : Hash) : Sync :=
  match s.requests.lookup p with
  | none => s
  | some parent =>
    let parent := { parent with deps := parent.deps - 1 }
    let s := { s with requests := s.requests.insert p parent }
    if parent.deps = 0 then commitFuel fuel s parent else s

/-- A commit writes the request, then takes a reference off each parent. -/
theorem commitFuel_succ (fuel : Nat) (s : Sync) (req : request) :
    commitFuel (fuel + 1) s req = req.parents.foldl (commitStep fuel) (s.commitWrite req) := rfl

@[simp] theorem commitWrite_database (s : Sync) (req : request) :
    (s.commitWrite req).database = s.database := rfl

@[simp] theorem commitWrite_queue (s : Sync) (req : request) :
    (s.commitWrite req).queue = s.queue := rfl

@[simp] theorem commitWrite_requests (s : Sync) (req : request) :
    (s.commitWrite req).requests = s.requests.erase req.hash := rfl

@[simp] theorem commitWrite_order (s : Sync) (req : request) :
    (s.commitWrite req).membatch.order = s.membatch.order ++ [req.hash] := rfl

@[simp] theorem commitWrite_batch (s : Sync) (req : request) :
    (s.commitWrite req).membatch.batch =
      Function.update s.membatch.batch req.hash (some (req.data.getD [])) := rfl

section Callback

-- the hash function and the sync's leaf callback, if any
variable (sha : Bytes → Hash) (callback : Option SyncCallback)

/-- The children {lit}`children` looks at: the value of a short node, at the depth
after its key, and every child of a full node that is not nil, one level down.  Any
other node panics. -/
def childrenOf (req : request) : Node → Option (List (Node × Nat))
  | .short key val _ => some [(val, req.depth + key.length)]
  | .full cs _ => some ((nonNilIndices cs).map fun i => (cs i, req.depth + 1))
  | _ => none

/-- The callback's part of one child: a value child of a request that carries the
callback is shown to it, and its additions are made. -/
def leafCallback (s : Sync) (req : request) (child : Node) : Option (Sync × Option String) :=
  match req.callback, callback, child with
  | true, some cb, .value v =>
    let r := cb v req.hash
    (r.1.foldlM (applyAdd sha) s).map fun s => (s, r.2)
  | _, _, _ => some (s, none)

/-- The loop of {lit}`children`: a hash child that is neither in the memory batch nor
in the database becomes a request that points to this one. -/
def childrenLoop (s : Sync) (req : request) :
    List (Node × Nat) → List request → Option (Sync × Except SyncError (List request))
  | [], requests => some (s, .ok requests)
  | (child, depth) :: cs, requests =>
    match leafCallback sha callback s req child with
    | none => none
    | some (s, some e) => some (s, .error (.callback e))
    | some (s, none) =>
      match child with
      | .hash h =>
        if s.inBatch h || s.Has h then childrenLoop s req cs requests
        else childrenLoop s req cs (requests ++ [⟨h, none, false, [req.hash], depth, 0, req.callback⟩])
      | _ => childrenLoop s req cs requests

/-- {lit}`children`: the requests for the missing children of a delivered node. -/
def children (s : Sync) (req : request) (object : Node) :
    Option (Sync × Except SyncError (List request)) :=
  match childrenOf req object with
  | none => none
  | some cs => childrenLoop sha callback s req cs []

/-- {lit}`NewSync`: a sync that wants the root.  Without a parent
{lit}`AddSubTrie` does not panic. -/
def NewSync (root : Hash) (database : KeyValueStore) : Sync :=
  let ts : Sync := ⟨database, newSyncMemBatch, ∅, []⟩
  (ts.AddSubTrie root 0 Hash.zero callback.isSome).getD ts

/-- The loop of {lit}`Process` over the results, from index {lit}`i`: the state, whether
something was committed, the index of the result that failed and the error. -/
def processLoop :
    Sync → List SyncResult → Nat → Bool → Option (Sync × Bool × Nat × Option SyncError)
  | s, [], _, committed => some (s, committed, 0, none)
  | s, item :: results, i, committed =>
    match s.requests.lookup item.Hash with
    | none => some (s, committed, i, some .ErrNotRequested)
    | some request =>
      if request.data.isSome then some (s, committed, i, some .ErrAlreadyProcessed)
      else if request.raw then
        -- a raw entry is committed as it comes
        processLoop (s.commit { request with data := some item.Data }) results (i + 1) true
      else
        match decodeNode (some item.Hash) item.Data 0 with
        | .error e => some (s, committed, i, some (.decode e))
        | .ok node =>
          let s := s.update item.Hash fun r => { r with data := some item.Data }
          match children sha callback s { request with data := some item.Data } node with
          | none => none
          | some (s, .error e) => some (s, committed, i, some e)
          | some (s, .ok requests) =>
            -- the request as the callback left it
            let request := (s.requests.lookup item.Hash).getD { request with data := some item.Data }
            if requests.length = 0 ∧ request.deps = 0 then
              processLoop (s.commit request) results (i + 1) true
            else
              let s := s.update item.Hash fun r => { r with deps := r.deps + requests.length }
              processLoop (requests.foldl schedule s) results (i + 1) committed

/-- {lit}`Process`. -/
def Process (s : Sync) (results : List SyncResult) :
    Option (Sync × Bool × Nat × Option SyncError) :=
  processLoop sha callback s results 0 false

end Callback

/-- The loop of {lit}`Missing`: pop while the queue has items and the limit, zero for
none, is not reached. -/
def missingLoop (max : Int) (requests : List Hash) (queue : List (Hash × Nat)) :
    List Hash × List (Hash × Nat) :=
  if queue ≠ [] ∧ (max = 0 ∨ (requests.length : Int) < max) then
    match _hp : Heap.Pop prio queue with
    | some (item, queue') => missingLoop max (requests ++ [item.1]) queue'
    | none => (requests, queue)
  else (requests, queue)
termination_by queue.length
decreasing_by exact Heap.length_lt_of_Pop prio _hp

/-- {lit}`Missing`. -/
def Missing (s : Sync) (max : Int) : List Hash × Sync :=
  let r := missingLoop max [] s.queue
  (r.1, { s with queue := r.2 })

/-- Write the memory batch entries of the listed hashes, in order. -/
def writeBatch (batch : Hash → Option Bytes) : List Hash → KeyValueStore → KeyValueStore
  | [], db => db
  | key :: keys, db =>
    writeBatch batch keys (Function.update db key.bytes (some ((batch key).getD [])))

/-- {lit}`Commit`: the memory batch is written in its order and dropped.  A writer
that refuses the {lit}`Put` at index {lit}`i` leaves what came before it written and
the memory batch in place. -/
def Commit (s : Sync) (failAt : Option Nat) : (Nat × Bool) × Sync :=
  let order := s.membatch.order
  match failAt with
  | some i =>
    if i < order.length then
      ((i, false), { s with database := writeBatch s.membatch.batch (order.take i) s.database })
    else ((order.length, true),
      { s with database := writeBatch s.membatch.batch order s.database, membatch := newSyncMemBatch })
  | none => ((order.length, true),
      { s with database := writeBatch s.membatch.batch order s.database, membatch := newSyncMemBatch })

@[simp] theorem Missing_requests (s : Sync) (max : Int) : (s.Missing max).2.requests = s.requests :=
  rfl

@[simp] theorem Missing_membatch (s : Sync) (max : Int) : (s.Missing max).2.membatch = s.membatch :=
  rfl

@[simp] theorem Missing_database (s : Sync) (max : Int) : (s.Missing max).2.database = s.database :=
  rfl

@[simp] theorem Commit_requests (s : Sync) (failAt : Option Nat) :
    (s.Commit failAt).2.requests = s.requests := by
  unfold Commit
  dsimp only
  split
  · split <;> rfl
  · rfl

@[simp] theorem Commit_queue (s : Sync) (failAt : Option Nat) :
    (s.Commit failAt).2.queue = s.queue := by
  unfold Commit
  dsimp only
  split
  · split <;> rfl
  · rfl

/-- {lit}`Pending`. -/
def Pending (s : Sync) : Nat := s.requests.entries.length

/-- The calls on a sync. -/
inductive Op where
  | Process (results : List SyncResult)
  | Commit (failAt : Option Nat)
  | Missing (max : Int)

section Callback

variable (sha : Bytes → Hash) (callback : Option SyncCallback)

/-- One call: the state after it and the hashes {lit}`Missing` returned, or
{lean}`none` on a panic. -/
def step (s : Sync) : Op → Option (Sync × List Hash)
  | .Process results => (Process sha callback s results).map fun r => (r.1, [])
  | .Commit failAt => some ((s.Commit failAt).2, [])
  | .Missing max => some ((s.Missing max).2, (s.Missing max).1)

/-- A sequence of calls, with every hash {lit}`Missing` returned. -/
def run : List Op → Sync → Option (Sync × List Hash)
  | [], s => some (s, [])
  | op :: ops, s =>
    (step sha callback s op).bind fun r => (run ops r.1).map fun r' => (r'.1, r.2 ++ r'.2)

end Callback

end Sync

end Mtp
end Uranus
