import Uranus.Lib.Lookup
import Uranus.Mtp.Decode

/-!
# The trie node database (`common/mtp/database.go`)

{lit}`Database` is a write layer in front of a persistent key-value store.  Nodes
written by a trie commit land in an in-memory map together with the references
from each node to the children it was stored with; {lit}`Node` reads the memory
map first and the disk second; {lit}`Commit` moves everything reachable from a
root through those references to disk and drops it from memory.

Reference counts only serve {lit}`Dereference`, which nothing in the repository
calls, so a cached node keeps the set of its children and no counters.  The
disk is a function from keys to values; the node map keeps Go's insertion
order, which none of the results depend on.

Main results:

- Theorem {lit}`Database.Node_insert`: a read after {lit}`insert`.
- Theorem {lit}`Database.Node_Commit`: {lit}`Commit` changes no read: a flushed
  node is read from disk with the blob it had in memory.
-/

namespace Uranus
namespace Mtp

/-- A persistent key-value store, read through {lit}`Get`. -/
abbrev KeyValueStore := Bytes → Option Bytes

/-- {lit}`cachedNode`: the blob of a node written to memory and the hashes of the
children it references. -/
structure CachedNode where
  blob : Bytes
  children : List Hash

/-- {lit}`Database`. -/
structure Database where
  /-- persistent storage for matured trie nodes -/
  diskdb : KeyValueStore
  /-- data and references of the nodes cached in memory -/
  nodes : List (Hash × CachedNode)

namespace Database

/-- {lit}`NewDatabase`: the memory map starts with the meta-root under the zero
hash, which root references hang from. -/
def NewDatabase (diskdb : KeyValueStore) : Database :=
  ⟨diskdb, [(Hash.zero, ⟨[], []⟩)]⟩

/-- The cached node stored under a hash, if any. -/
def cached (db : Database) (h : Hash) : Option CachedNode := db.nodes.lookup h

/-- {lit}`Node`: a cached node's blob, else whatever the disk holds under the hash. -/
def Node (db : Database) (h : Hash) : Option Bytes :=
  match db.cached h with
  | some n => some n.blob
  | none => db.diskdb h.bytes

/-- {lit}`insert`: cache a node's blob unless the hash is already cached. -/
def insert (db : Database) (h : Hash) (blob : Bytes) : Database :=
  match db.cached h with
  | some _ => db
  | none => { db with nodes := db.nodes ++ [(h, ⟨blob, []⟩)] }

/-- Add a child to the reference set of one cached node. -/
def addChild (nodes : List (Hash × CachedNode)) (parent child : Hash) :
    List (Hash × CachedNode) :=
  nodes.map fun e =>
    (e.1, if e.1 = parent then { e.2 with children := e.2.children ++ [child] } else e.2)

/-- {lit}`reference`: record that a cached parent references a cached child.  A
child that is not cached was pulled from disk and is skipped; a reference that
exists already is only duplicated from the meta-root.  Every caller passes a
parent it has just cached. -/
def reference (db : Database) (child parent : Hash) : Database :=
  match db.cached child, db.cached parent with
  | some _, some p =>
    if child ∈ p.children ∧ parent ≠ Hash.zero then db
    else { db with nodes := addChild db.nodes parent child }
  | _, _ => db

/-- The hashes {lit}`commit` writes from one root: the children first, then the
node.  Hashes that are not cached were committed before.  The references of the
cached nodes form a DAG, so as many rounds as there are cached nodes reach all of
it. -/
def flushList (db : Database) : Nat → Hash → List Hash
  | 0, _ => []
  | fuel + 1, h =>
    match db.cached h with
    | none => []
    | some n => (n.children.flatMap (flushList db fuel)) ++ [h]

/-- Write the listed nodes' blobs to disk under their hashes. -/
def writeAll (db : Database) : List Hash → KeyValueStore → KeyValueStore
  | [], disk => disk
  | h :: hs, disk =>
    match db.cached h with
    | none => writeAll db hs disk
    | some n => writeAll db hs (fun k => if k = h.bytes then some n.blob else disk k)

/-- {lit}`Commit`: write every node reachable from a root through the reference sets
to disk, then uncache the same nodes.  Disk writes are taken to succeed. -/
def Commit (db : Database) (node : Hash) : Database :=
  let flushed := db.flushList db.nodes.length node
  { diskdb := db.writeAll flushed db.diskdb
    nodes := db.nodes.filter fun e => decide (e.1 ∉ flushed) }

/-! ## Reads -/

/-- A cached node is read from the cache. -/
theorem Node_of_cached {db : Database} {h : Hash} {n : CachedNode} (hn : db.cached h = some n) :
    db.Node h = some n.blob := by
  simp [Node, hn]

/-- A node that is not cached is read from disk. -/
theorem Node_of_not_cached {db : Database} {h : Hash} (hn : db.cached h = none) :
    db.Node h = db.diskdb h.bytes := by
  simp [Node, hn]

/-- {lit}`insert` leaves the disk as it is. -/
@[simp]
theorem diskdb_insert (db : Database) (h : Hash) (blob : Bytes) :
    (db.insert h blob).diskdb = db.diskdb := by
  unfold insert
  split <;> rfl

/-- {lit}`insert` caches the blob unless its hash is cached already. -/
theorem cached_insert (db : Database) (h k : Hash) (blob : Bytes) :
    (db.insert h blob).cached k =
      if k = h ∧ db.cached h = none then some ⟨blob, []⟩ else db.cached k := by
  unfold insert
  cases hh : db.cached h with
  | some n => simp
  | none =>
    by_cases hk : k = h
    · subst hk
      simp [cached, Lib.lookup_append_of_none hh]
    · have hnone : [(h, (⟨blob, []⟩ : CachedNode))].lookup k = none := by simp [hk]
      simp [cached, List.lookup_append, hnone, hk]

/-- A read after {lit}`insert`: the new blob shows only under a hash that was not
cached before. -/
theorem Node_insert (db : Database) (h k : Hash) (blob : Bytes) :
    (db.insert h blob).Node k =
      if k = h ∧ db.cached h = none then some blob else db.Node k := by
  unfold Node
  rw [cached_insert, diskdb_insert]
  split_ifs with hk
  · rfl
  · rfl

/-- References change no blob. -/
theorem Node_reference (db : Database) (child parent k : Hash) :
    (db.reference child parent).Node k = db.Node k := by
  unfold reference
  split
  · split
    · rfl
    · have hc : (addChild db.nodes parent child).lookup k =
          (db.cached k).map fun n =>
            if k = parent then { n with children := n.children ++ [child] } else n :=
        Lib.lookup_map_snd db.nodes
          (fun h n => if h = parent then { n with children := n.children ++ [child] } else n) k
      unfold Node
      simp only [cached] at hc ⊢
      rw [hc]
      cases db.nodes.lookup k with
      | none => rfl
      | some n => by_cases hkp : k = parent <;> simp [hkp]
  · rfl

/-! ## Commit -/

/-- {lit}`commit` only lists cached nodes. -/
theorem cached_of_mem_flushList {db : Database} {fuel : Nat} {r h : Hash}
    (hm : h ∈ db.flushList fuel r) : ∃ n, db.cached h = some n := by
  induction fuel generalizing r with
  | zero => simp [flushList] at hm
  | succ fuel ih =>
    unfold flushList at hm
    cases hr : db.cached r with
    | none => simp [hr] at hm
    | some n =>
      simp only [hr, List.mem_append, List.mem_flatMap, List.mem_singleton] at hm
      rcases hm with ⟨c, -, hc⟩ | rfl
      · exact ih hc
      · exact ⟨n, hr⟩

/-- Keys that no listed hash spells keep their disk value. -/
theorem writeAll_of_not_mem (db : Database) {hs : List Hash} {key : Bytes}
    (hk : ∀ h ∈ hs, h.bytes ≠ key) (disk : KeyValueStore) :
    db.writeAll hs disk key = disk key := by
  induction hs generalizing disk with
  | nil => rfl
  | cons h hs ih =>
    have hrest : ∀ h' ∈ hs, h'.bytes ≠ key := fun h' hm => hk h' (List.mem_cons_of_mem h hm)
    cases hc : db.cached h with
    | none =>
      simp only [writeAll, hc]
      exact ih hrest disk
    | some n =>
      simp only [writeAll, hc]
      rw [ih hrest]
      simp [(hk h List.mem_cons_self).symm]

/-- A listed cached node is on disk with its blob after the writes. -/
theorem writeAll_of_mem (db : Database) {hs : List Hash} {h : Hash} {n : CachedNode}
    (hm : h ∈ hs) (hn : db.cached h = some n) (disk : KeyValueStore) :
    db.writeAll hs disk h.bytes = some n.blob := by
  induction hs generalizing disk with
  | nil => simp at hm
  | cons h' hs ih =>
    by_cases hin : h ∈ hs
    · cases hc : db.cached h' with
      | none =>
        simp only [writeAll, hc]
        exact ih hin disk
      | some n' =>
        simp only [writeAll, hc]
        exact ih hin _
    · have hh' : h = h' := by simpa [hin] using hm
      subst hh'
      have hne : ∀ k ∈ hs, k.bytes ≠ h.bytes := fun k hk heq => hin (Hash.ext heq ▸ hk)
      simp only [writeAll, hn]
      rw [writeAll_of_not_mem db hne]
      simp

/-- {lit}`Commit` changes no read: every flushed node is read back from disk with
the blob it had in memory, and everything else is read where it was. -/
theorem Node_Commit (db : Database) (root k : Hash) : (db.Commit root).Node k = db.Node k := by
  set flushed := db.flushList db.nodes.length root with hflushed
  have hcached : (db.Commit root).cached k = if k ∈ flushed then none else db.cached k := by
    show (db.nodes.filter fun e => decide (e.1 ∉ flushed)).lookup k = _
    rw [Lib.lookup_filter_fst db.nodes (fun h => decide (h ∉ flushed)) k]
    by_cases hk : k ∈ flushed <;> simp [hk, cached]
  unfold Node
  rw [hcached]
  by_cases hk : k ∈ flushed
  · -- a flushed node was cached; the disk now holds its blob
    obtain ⟨n, hn⟩ := cached_of_mem_flushList hk
    simp only [hk, ↓reduceIte, hn]
    exact writeAll_of_mem db hk hn db.diskdb
  · simp only [hk, ↓reduceIte]
    cases db.cached k with
    | some n => rfl
    | none =>
      -- no flushed hash spells this key, since hashes are determined by their bytes
      have hne : ∀ h ∈ flushed, h.bytes ≠ k.bytes := fun h hm heq => hk (Hash.ext heq ▸ hm)
      exact writeAll_of_not_mem db hne db.diskdb

end Database

end Mtp
end Uranus
