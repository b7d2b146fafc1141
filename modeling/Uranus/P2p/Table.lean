import Uranus.P2p.Netutil

/-!
# The discovery table ({lit}`p2p/discover/table.go`)

The table sorts the nodes it knows into {lit}`nBuckets` buckets by the log distance
between their ID hash and the local one.  A bucket holds at most {lit}`bucketSize`
live entries, most recently seen first, and at most {lit}`maxReplacements`
replacements that take the place of an entry that stops answering.  Against
eclipse attacks every bucket, and the table as a whole, counts the non-LAN
addresses it holds per {lit}`/24` subnet in a {lit}`DistinctNetSet` and refuses a
node whose subnet is at its limit.

The operations are those of the source under the table's mutex: {lit}`add` (from
{lit}`bond` and {lit}`loadSeedNodes`), {lit}`stuff`, {lit}`delete` and the two outcomes
of {lit}`doRevalidate`, {lit}`bump` of a live node and {lit}`replace` of a dead one,
and the two writers of the node database's records that {lit}`bond` reads: a bond,
which records the pong of an answered ping and resets the findnode failures, and a
failed findnode in {lit}`lookup`, which counts one more.  The random choices of the
source (the bucket to revalidate, the replacement to promote) and the answers of the
network are arguments of the operations, and {lit}`Table.run` applies any sequence of
them.

The counters are kept by hand at every move between the lists, and {lit}`bump`
moves a node of a known ID to the front under its new address without touching
them.

Main results:

- Theorems {lit}`Table.add_of_mem` and {lit}`Table.add_of_fresh`: what {lit}`add` does
  to a node whose ID the bucket holds, and to a new node with room for it.
- Theorem {lit}`bond_exceeds_bucketIPLimit`: from a new table, four bonds with IDs
  and addresses remote peers present, one after a failed findnode, leave a bucket with
  more non-LAN nodes of one {lit}`/24` subnet than {lit}`bucketIPLimit`, and a counter
  for that subnet below the number of them.
- Theorem {lit}`newTable_run_within_limits`: every run from a new table keeps the
  bucket sizes and every subnet counter within their limits; it is the counters
  that are bounded, not the nodes they should count.
-/

namespace Uranus
namespace Discover

open Netutil

/-- {lit}`bucketSize`, the Kademlia bucket size. -/
def bucketSize : Nat := 16

/-- {lit}`maxReplacements`, the size of the replacement list of a bucket. -/
def maxReplacements : Nat := 10

/-- {lit}`hashBits`, the bits of a {lit}`utils.Hash`. -/
def hashBits : Nat := 32 * 8

/-- {lit}`nBuckets`: buckets are kept for the upper fifteenth of the distances. -/
def nBuckets : Nat := hashBits / 15

/-- {lit}`bucketMinDistance`, the log distance of the closest bucket. -/
def bucketMinDistance : Nat := hashBits - nBuckets

/-- At most two addresses of one {lit}`/24` in a bucket. -/
def bucketIPLimit : Nat := 2

def bucketSubnet : Nat := 24

/-- At most ten addresses of one {lit}`/24` in the table. -/
def tableIPLimit : Nat := 10

def tableSubnet : Nat := 24

/-- {lit}`NodeID`, the 64 byte public key of a node. -/
structure NodeID where
  bytes : Bytes
  length_bytes : bytes.length = 64
deriving DecidableEq

/-- A {lit}`Node` as the table reads it: its address, its ID and the cached hash of
the ID.  The ports and the time it was added are left out. -/
structure Node where
  IP : IP
  ID : NodeID
  sha : Hash
deriving DecidableEq

section Hashing

variable (keccak : Bytes → Hash)

/-- {lit}`NewNode`: the address in its four byte form if it is IPv4, and the Keccak
hash of the ID. -/
def NewNode (id : NodeID) (ip : IP) : Node :=
  { IP := (To4 ip).getD ip, ID := id, sha := keccak id.bytes }

@[simp] theorem NewNode_ID (id : NodeID) (ip : IP) : (NewNode keccak id ip).ID = id := rfl

@[simp] theorem NewNode_sha (id : NodeID) (ip : IP) :
    (NewNode keccak id ip).sha = keccak id.bytes := rfl

@[simp] theorem NewNode_IP_ipv4 (id : NodeID) (w x y z : UInt8) :
    (NewNode keccak id [w, x, y, z]).IP = [w, x, y, z] := by
  simp [NewNode, To4]

end Hashing

/-! ## Distances and buckets -/

/-- The table {lit}`lzcount` of {lit}`node.go`: the leading zero bits of a byte. -/
def lzcount (x : UInt8) : Nat := 8 - x.toNat.size

/-- The leading zero bits of the exclusive or of two byte strings, the loop of
{lit}`logdist`. -/
def lzBytes : Bytes → Bytes → Nat
  | a :: as, b :: bs => if a ^^^ b = 0 then 8 + lzBytes as bs else lzcount (a ^^^ b)
  | _, _ => 0

/-- {lit}`logdist`: the bit length of the exclusive or of two hashes. -/
def logdist (a b : Hash) : Nat := a.bytes.length * 8 - lzBytes a.bytes b.bytes

/-- The log distance of two hashes is at most the number of their bits. -/
theorem logdist_le (a b : Hash) : logdist a b ≤ hashBits := by
  unfold logdist hashBits
  rw [a.length_bytes]
  omega

/-- The index {lit}`Table.bucket` reads for a node hash, seen from the local hash. -/
def bucketIndex (self sha : Hash) : Fin nBuckets :=
  if logdist self sha ≤ bucketMinDistance then ⟨0, by decide⟩
  else ⟨logdist self sha - bucketMinDistance - 1, by
    have := logdist_le self sha
    simp only [nBuckets, bucketMinDistance, hashBits] at *
    omega⟩

/-- A {lit}`bucket`: live entries, most recently seen first, replacements, and the
subnet counters of both. -/
structure bucket where
  entries : List Node
  replacements : List Node
  ips : DistinctNetSet

/-- A bucket of the new table. -/
def emptyBucket : bucket :=
  { entries := [], replacements := [], ips := .empty bucketSubnet bucketIPLimit }

/-- The records of the node database that {lit}`bond` and {lit}`lookup` read and
write: the node stored under an ID, the findnode failures since the last bond, and
the time of the last pong in Unix seconds.  {lit}`fetchInt64` reads an absent record
as zero. -/
structure nodeDB where
  node : NodeID → Option Node
  findFails : NodeID → Nat
  bondTime : NodeID → Int

namespace nodeDB

/-- A node database with no records. -/
def empty : nodeDB := ⟨fun _ => none, fun _ => 0, fun _ => 0⟩

/-- {lit}`updateBondTime`, at a time in Unix seconds. -/
def updateBondTime (db : nodeDB) (id : NodeID) (time : Int) : nodeDB :=
  { db with bondTime := Function.update db.bondTime id time }

/-- {lit}`updateFindFails`. -/
def updateFindFails (db : nodeDB) (id : NodeID) (fails : Nat) : nodeDB :=
  { db with findFails := Function.update db.findFails id fails }

end nodeDB

/-- {lit}`nodeDBNodeExpiration`, a day, in nanoseconds. -/
def nodeDBNodeExpiration : Int := 24 * 60 * 60 * 1000000000

/-- {lit}`maxFindnodeFailures`: a node that fails this many findnodes is dropped. -/
def maxFindnodeFailures : Nat := 5

/-- A {lit}`Table` as its operations read it: the buckets, the table wide subnet
counters, the local node and the node database.  The bootstrap list, the random
source and the goroutine plumbing are left out. -/
structure Table where
  buckets : Fin nBuckets → bucket
  ips : DistinctNetSet
  self : Node
  db : nodeDB

/-! ## List helpers -/

/-- {lit}`pushNode`: the node goes in front, and the list keeps at most {lit}`max`
items; the one that fell off the end is returned.  (Go indexes an empty list at
{lit}`max = 0`, which the table never passes.) -/
def pushNode (list : List Node) (n : Node) (max : Nat) : List Node × Option Node :=
  if list.length < max then (n :: list, none)
  else (n :: list.dropLast, list.getLast?)

/-- {lit}`deleteNode`: removes the first node of the list with the ID of {lit}`n`. -/
def deleteNode : List Node → Node → List Node
  | [], _ => []
  | e :: list, n => if e.ID = n.ID then list else e :: deleteNode list n

/-- {lit}`pushNode` on a list below its maximum puts the node in front and drops nothing. -/
theorem pushNode_of_lt {list : List Node} {max : Nat} (n : Node) (h : list.length < max) :
    pushNode list n max = (n :: list, none) := by
  simp [pushNode, h]

/-- {lit}`deleteNode` erases the first node with the given ID. -/
theorem deleteNode_eq_eraseP (list : List Node) (n : Node) :
    deleteNode list n = list.eraseP (·.ID == n.ID) := by
  induction list with
  | nil => rfl
  | cons e list ih =>
    by_cases h : e.ID = n.ID
    · simp [deleteNode, h]
    · simp [deleteNode, h, ih]

/-- {lit}`deleteNode` never lengthens the list. -/
theorem deleteNode_length_le (list : List Node) (n : Node) :
    (deleteNode list n).length ≤ list.length := by
  rw [deleteNode_eq_eraseP]
  exact List.length_eraseP_le

/-- A node whose ID the list holds takes exactly one node out. -/
theorem deleteNode_length_of_any {list : List Node} {n : Node}
    (h : list.any (·.ID == n.ID) = true) : (deleteNode list n).length + 1 = list.length := by
  rw [deleteNode_eq_eraseP, List.length_eraseP, if_pos h]
  have hne : list ≠ [] := by
    rintro rfl
    simp at h
  have := List.length_pos_of_ne_nil hne
  omega

/-- {lit}`pushNode` keeps a list that is within a positive bound within it. -/
theorem pushNode_length_le {list : List Node} {max : Nat} (n : Node) (h : list.length ≤ max)
    (hmax : 0 < max) : (pushNode list n max).1.length ≤ max := by
  unfold pushNode
  split
  · simp only [List.length_cons]
    omega
  · simp only [List.length_cons, List.length_dropLast]
    omega

/-- {lit}`bucket.bump`: a node whose ID is among the entries moves to the front, in
the form it has now. -/
def bucket.bump (b : bucket) (n : Node) : Bool × bucket :=
  match b.entries.findIdx? (·.ID == n.ID) with
  | some i => (true, { b with entries := n :: (b.entries.take i ++ b.entries.drop (i + 1)) })
  | none => (false, b)

/-- {lit}`bump` moves the entry of the node's ID to the front in its new form, if there is one. -/
theorem bucket.bump_eq (b : bucket) (n : Node) :
    b.bump n = if b.entries.any (·.ID == n.ID) then
      (true, { b with entries := n :: deleteNode b.entries n }) else (false, b) := by
  unfold bucket.bump
  rw [deleteNode_eq_eraseP, List.eraseP_eq_eraseIdx]
  cases h : b.entries.findIdx? (·.ID == n.ID) with
  | none =>
    have hany : ¬ b.entries.any (·.ID == n.ID) := by
      rw [← List.findIdx?_isSome, h]
      simp
    simp [hany]
  | some i =>
    have hany : b.entries.any (·.ID == n.ID) := by
      rw [← List.findIdx?_isSome, h]
      rfl
    simp [hany, List.eraseIdx_eq_take_drop_succ]

/-- The bounds of a bucket: at most {lit}`bucketSize` entries and
{lit}`maxReplacements` replacements, and its subnet counters within
{lit}`bucketIPLimit`. -/
structure bucket.Bounded (b : bucket) : Prop where
  entries : b.entries.length ≤ bucketSize
  replacements : b.replacements.length ≤ maxReplacements
  ips : b.ips.Bounded
  limit : b.ips.Limit = bucketIPLimit

/-- {lit}`bump` only reorders the entries. -/
theorem bucket.Bounded.bump {b : bucket} (hb : b.Bounded) (n : Node) : (b.bump n).2.Bounded := by
  rw [bucket.bump_eq]
  split
  · next hany =>
    -- the node found is taken out before it goes in front
    have hlen := deleteNode_length_of_any hany
    have hle := hb.entries
    exact ⟨by simp only [List.length_cons]; omega, hb.replacements, hb.ips, hb.limit⟩
  · exact hb

/-! ## The table's operations -/

namespace Table

/-- Replaces one bucket. -/
def setBucket (tab : Table) (i : Fin nBuckets) (b : Discover.bucket) : Table :=
  { tab with buckets := Function.update tab.buckets i b }

@[simp] theorem setBucket_buckets_self (tab : Table) (i : Fin nBuckets) (b : Discover.bucket) :
    (tab.setBucket i b).buckets i = b := by
  simp [setBucket]

@[simp] theorem setBucket_buckets_ne (tab : Table) {i j : Fin nBuckets} (b : Discover.bucket)
    (h : j ≠ i) : (tab.setBucket i b).buckets j = tab.buckets j := by
  simp [setBucket, h]

@[simp] theorem setBucket_ips (tab : Table) (i : Fin nBuckets) (b : Discover.bucket) :
    (tab.setBucket i b).ips = tab.ips := rfl

@[simp] theorem setBucket_self (tab : Table) (i : Fin nBuckets) (b : Discover.bucket) :
    (tab.setBucket i b).self = tab.self := rfl

/-- {lit}`Table.bucket`: the bucket of a node hash. -/
def bucket (tab : Table) (sha : Hash) : Fin nBuckets := bucketIndex tab.self.sha sha

@[simp] theorem bucket_setBucket (tab : Table) (i : Fin nBuckets) (b : Discover.bucket)
    (sha : Hash) : (tab.setBucket i b).bucket sha = tab.bucket sha := rfl

@[simp] theorem bucket_mk (bs : Fin nBuckets → Discover.bucket) (s : DistinctNetSet)
    (self : Node) (db : nodeDB) (sha : Hash) :
    (Table.mk bs s self db).bucket sha = bucketIndex self.sha sha := rfl

/-- {lit}`addIP`: LAN addresses are not counted; any other must fit under the table
limit and then under the bucket limit, and the table count is taken back when it
does not fit the bucket. -/
def addIP (tab : Table) (bi : Fin nBuckets) (ip : IP) : Bool × Table :=
  if IsLAN ip then (true, tab)
  else if !(tab.ips.Add ip).1 then (false, tab)
  else
    let tips := (tab.ips.Add ip).2
    let b := tab.buckets bi
    if !(b.ips.Add ip).1 then (false, { tab with ips := tips.Remove ip })
    else (true, { tab.setBucket bi { b with ips := (b.ips.Add ip).2 } with ips := tips })

/-- {lit}`removeIP`. -/
def removeIP (tab : Table) (bi : Fin nBuckets) (ip : IP) : Table :=
  if IsLAN ip then tab
  else
    let b := tab.buckets bi
    { tab.setBucket bi { b with ips := b.ips.Remove ip } with ips := tab.ips.Remove ip }

/-- {lit}`addReplacement`: a node not yet among the replacements, whose address fits
the limits, goes in front of them; the address of the one pushed off the end is
uncounted. -/
def addReplacement (tab : Table) (bi : Fin nBuckets) (n : Node) : Table :=
  if (tab.buckets bi).replacements.any (·.ID == n.ID) then tab
  else
    let r := tab.addIP bi n.IP
    if !r.1 then tab
    else
      let tab := r.2
      let b := tab.buckets bi
      let pushed := pushNode b.replacements n maxReplacements
      let tab := tab.setBucket bi { b with replacements := pushed.1 }
      match pushed.2 with
      | some removed => tab.removeIP bi removed.IP
      | none => tab

/-- {lit}`deleteInBucket`. -/
def deleteInBucket (tab : Table) (bi : Fin nBuckets) (n : Node) : Table :=
  let b := tab.buckets bi
  (tab.setBucket bi { b with entries := deleteNode b.entries n }).removeIP bi n.IP

/-- {lit}`replace`: if {lit}`last` is still the last entry, the replacement at the
random index {lit}`ri` takes its place and its address is uncounted; with no
replacement the entry is deleted. -/
def replace (tab : Table) (bi : Fin nBuckets) (last : Node) (ri : Nat) :
    Option Node × Table :=
  let b := tab.buckets bi
  match b.entries.getLast? with
  | none => (none, tab)
  | some e =>
    -- Entry has moved, don't replace it.
    if e.ID ≠ last.ID then (none, tab)
    else if b.replacements.length = 0 then (none, tab.deleteInBucket bi last)
    else
      -- the value of tab.rand.Intn(len(b.replacements))
      match b.replacements[ri % b.replacements.length]? with
      | none => (none, tab)
      | some r =>
        let tab := tab.setBucket bi { b with
          replacements := deleteNode b.replacements r
          entries := b.entries.set (b.entries.length - 1) r }
        (some r, tab.removeIP bi last.IP)

/-- {lit}`bumpOrAdd`: a known node moves to the front; a new one is added in front if
the bucket has room and its address fits the limits, and leaves the replacements.
The result says whether the node is now in the bucket. -/
def bumpOrAdd (tab : Table) (bi : Fin nBuckets) (n : Node) : Bool × Table :=
  let bumped := (tab.buckets bi).bump n
  if bumped.1 then (true, tab.setBucket bi bumped.2)
  else if bucketSize ≤ (tab.buckets bi).entries.length then (false, tab)
  else
    let r := tab.addIP bi n.IP
    if !r.1 then (false, r.2)
    else
      let tab := r.2
      let b := tab.buckets bi
      (true, tab.setBucket bi { b with
        entries := (pushNode b.entries n bucketSize).1
        replacements := deleteNode b.replacements n })

/-- {lit}`add`: a node that does not make it into the entries goes to the
replacements. -/
def add (tab : Table) (n : Node) : Table :=
  let bi := tab.bucket n.sha
  let r := tab.bumpOrAdd bi n
  if !r.1 then r.2.addReplacement bi n else r.2

/-- {lit}`stuff`: each node other than the local one is added to its bucket if the
bucket is not full. -/
def stuff (tab : Table) (nodes : List Node) : Table :=
  nodes.foldl (fun tab n =>
    if n.ID = tab.self.ID then tab
    else
      let bi := tab.bucket n.sha
      if (tab.buckets bi).entries.length < bucketSize then (tab.bumpOrAdd bi n).2 else tab) tab

/-- {lit}`delete`. -/
def delete (tab : Table) (node : Node) : Table :=
  tab.deleteInBucket (tab.bucket node.sha) node

/-- The locked half of {lit}`doRevalidate`, after the ping of {lit}`last`, the last
entry of bucket {lit}`bi` when it was chosen: a live node is bumped, a dead one is
replaced.  Other operations may have run since it was chosen. -/
def revalidate (tab : Table) (bi : Fin nBuckets) (last : Node) (alive : Bool) (ri : Nat) :
    Table :=
  if alive then tab.setBucket bi ((tab.buckets bi).bump last).2
  else (tab.replace bi last ri).2

/-- {lit}`nodeToRevalidate`: the last entry of the first non-empty bucket in the random
order {lit}`perm`. -/
def nodeToRevalidate (tab : Table) (perm : List (Fin nBuckets)) : Option (Node × Fin nBuckets) :=
  match perm.find? (fun bi => (tab.buckets bi).entries ≠ []) with
  | some bi => ((tab.buckets bi).entries.getLast?).map (·, bi)
  | none => none

section Hashing

variable (keccak : Bytes → Hash)

/-- {lit}`bond`, at the time {lit}`now` in nanoseconds since the Unix epoch, where
{lit}`pong` says whether the ping of the presented address is answered.  The node
database asks for a ping/pong after a failed findnode or when the last pong is more
than a day old; an answered ping records the time of the pong and makes the node.  The
node is added even if the ping/pong failed, the one the database holds then, and its
findnode failures are reset.  A bond that the remote node started before the table's
first refresh is refused in the source; every bond here comes after it. -/
def bond (tab : Table) (now : Int) (id : NodeID) (ip : IP) (pong : Bool) : Table :=
  if id = tab.self.ID then tab
  else
    let node := tab.db.node id
    let fails := tab.db.findFails id
    let age := now - tab.db.bondTime id * 1000000000
    let bonded := (0 < fails ∨ nodeDBNodeExpiration < age) ∧ pong = true
    let tab := if bonded then { tab with db := tab.db.updateBondTime id (now / 1000000000) }
      else tab
    let node := if bonded then some (NewNode keccak id ip) else node
    match node with
    | some n =>
      let tab := tab.add n
      { tab with db := tab.db.updateFindFails id 0 }
    | none => tab

/-- A failed findnode to a node, in a goroutine of {lit}`lookup`: its failures go up by
one, and at {lit}`maxFindnodeFailures` it is deleted. -/
def findnodeFailed (tab : Table) (n : Node) : Table :=
  let fails := tab.db.findFails n.ID + 1
  let tab := { tab with db := tab.db.updateFindFails n.ID fails }
  if maxFindnodeFailures ≤ fails then tab.delete n else tab

end Hashing

/-! ## What add does -/

@[simp] theorem addIP_self (tab : Table) (bi : Fin nBuckets) (ip : IP) :
    (tab.addIP bi ip).2.self = tab.self := by
  unfold addIP; dsimp only; split_ifs <;> rfl

/-! The operations on the buckets neither read nor write the node database. -/

@[simp] theorem addIP_db (tab : Table) (bi : Fin nBuckets) (ip : IP) :
    (tab.addIP bi ip).2.db = tab.db := by
  unfold addIP; dsimp only; split_ifs <;> rfl

@[simp] theorem removeIP_db (tab : Table) (bi : Fin nBuckets) (ip : IP) :
    (tab.removeIP bi ip).db = tab.db := by
  unfold removeIP; split_ifs <;> rfl

@[simp] theorem bumpOrAdd_db (tab : Table) (bi : Fin nBuckets) (n : Node) :
    (tab.bumpOrAdd bi n).2.db = tab.db := by
  unfold bumpOrAdd; dsimp only; split_ifs <;> simp [setBucket]

@[simp] theorem addReplacement_db (tab : Table) (bi : Fin nBuckets) (n : Node) :
    (tab.addReplacement bi n).db = tab.db := by
  unfold addReplacement; dsimp only
  split_ifs
  · rfl
  · rfl
  · split <;> simp [setBucket]

@[simp] theorem add_db (tab : Table) (n : Node) : (tab.add n).db = tab.db := by
  unfold add; dsimp only; split_ifs <;> simp

/-- {lit}`addIP` of an address that fits both limits counts it in the table and in the
bucket. -/
theorem addIP_of_fits (tab : Table) (bi : Fin nBuckets) (ip : IP) (hlan : IsLAN ip = false)
    (htab : (tab.ips.Add ip).1 = true) (hb : ((tab.buckets bi).ips.Add ip).1 = true) :
    tab.addIP bi ip =
      (true, { tab.setBucket bi { tab.buckets bi with ips := ((tab.buckets bi).ips.Add ip).2 } with
        ips := (tab.ips.Add ip).2 }) := by
  simp [addIP, hlan, htab, hb]

/-- {lit}`add` of a node whose ID the bucket holds only moves the node to the front,
in its new form: the subnet counters are not touched, whatever its address is now. -/
theorem add_of_mem (tab : Table) (n : Node)
    (hmem : (tab.buckets (tab.bucket n.sha)).entries.any (·.ID == n.ID) = true) :
    tab.add n = tab.setBucket (tab.bucket n.sha)
      { tab.buckets (tab.bucket n.sha) with
        entries := n :: deleteNode (tab.buckets (tab.bucket n.sha)).entries n } := by
  simp [add, bumpOrAdd, bucket.bump_eq, hmem]

/-- {lit}`add` of a new node, with room in its bucket and an address that fits both
limits, puts it in front of the entries and counts its address. -/
theorem add_of_fresh (tab : Table) (n : Node)
    (hfresh : (tab.buckets (tab.bucket n.sha)).entries.any (·.ID == n.ID) = false)
    (hroom : (tab.buckets (tab.bucket n.sha)).entries.length < bucketSize)
    (hlan : IsLAN n.IP = false) (htab : (tab.ips.Add n.IP).1 = true)
    (hb : ((tab.buckets (tab.bucket n.sha)).ips.Add n.IP).1 = true) :
    tab.add n =
      { tab.setBucket (tab.bucket n.sha)
          { entries := n :: (tab.buckets (tab.bucket n.sha)).entries
            replacements := deleteNode (tab.buckets (tab.bucket n.sha)).replacements n
            ips := ((tab.buckets (tab.bucket n.sha)).ips.Add n.IP).2 } with
        ips := (tab.ips.Add n.IP).2 } := by
  have hnot : ¬ bucketSize ≤ (tab.buckets (tab.bucket n.sha)).entries.length := by omega
  simp only [add, bumpOrAdd, bucket.bump_eq, hfresh, addIP_of_fits tab _ _ hlan htab hb]
  simp [hnot, pushNode_of_lt n hroom, setBucket]

/-- A bond with an ID other than the local one, for which the node database asks for a
ping/pong, and whose ping from the presented address is answered, adds the node made
from that ID and address, records the pong and resets the findnode failures. -/
theorem bond_of_pong (keccak : Bytes → Hash) (tab : Table) {now : Int} {id : NodeID} (ip : IP)
    (h : id ≠ tab.self.ID)
    (hstale : 0 < tab.db.findFails id ∨ nodeDBNodeExpiration < now - tab.db.bondTime id * 1000000000) :
    tab.bond keccak now id ip true =
      { ({ tab with db := tab.db.updateBondTime id (now / 1000000000) } : Table).add
          (NewNode keccak id ip) with
        db := (tab.db.updateBondTime id (now / 1000000000)).updateFindFails id 0 } := by
  simp only [bond, h, hstale, and_true, if_true, if_false, add_db]

/-- A failed findnode below {lit}`maxFindnodeFailures` only counts. -/
theorem findnodeFailed_of_lt (tab : Table) {n : Node}
    (h : tab.db.findFails n.ID + 1 < maxFindnodeFailures) :
    tab.findnodeFailed n = { tab with db := tab.db.updateFindFails n.ID (tab.db.findFails n.ID + 1) } := by
  simp only [findnodeFailed, if_neg (Nat.not_le.mpr h)]

/-- {lit}`loadSeedNodes` without bonding: every seed is added. -/
def loadSeedNodes (tab : Table) (seeds : List Node) : Table :=
  seeds.foldl add tab

end Table

section Hashing

variable (keccak : Bytes → Hash)

/-- {lit}`newTable`: empty buckets and counters, then the seeds (the database's and
the bootstrap nodes) are loaded. -/
def newTable (ourID : NodeID) (ourIP : IP) (db : nodeDB) (seeds : List Node) : Table :=
  let tab : Table :=
    { buckets := fun _ => emptyBucket
      ips := .empty tableSubnet tableIPLimit
      self := NewNode keccak ourID ourIP
      db := db }
  tab.loadSeedNodes seeds

/-- The operations on the table that take its mutex. -/
inductive Op where
  | add (n : Node)
  | bond (now : Int) (id : NodeID) (ip : IP) (pong : Bool)
  | findnodeFailed (n : Node)
  | stuff (nodes : List Node)
  | delete (n : Node)
  | revalidate (bi : Fin nBuckets) (last : Node) (alive : Bool) (ri : Nat)

/-- One operation. -/
def Table.apply (tab : Table) : Op → Table
  | .add n => tab.add n
  | .bond now id ip pong => tab.bond keccak now id ip pong
  | .findnodeFailed n => tab.findnodeFailed n
  | .stuff nodes => tab.stuff nodes
  | .delete n => tab.delete n
  | .revalidate bi last alive ri => tab.revalidate bi last alive ri

/-- A sequence of operations, in any interleaving the goroutines produce. -/
def Table.run (tab : Table) (ops : List Op) : Table :=
  ops.foldl (Table.apply keccak) tab

@[simp] theorem Table.run_nil (tab : Table) : tab.run keccak [] = tab := rfl

/-- A run of table operations is the first one, then the rest. -/
theorem Table.run_cons (tab : Table) (op : Op) (ops : List Op) :
    tab.run keccak (op :: ops) = (tab.apply keccak op).run keccak ops := rfl

end Hashing

/-! ## The bounds every run keeps -/

namespace Table

/-- The bounds of the table: those of every bucket, and the table wide subnet
counters within {lit}`tableIPLimit`. -/
structure Bounded (tab : Table) : Prop where
  buckets : ∀ i, (tab.buckets i).Bounded
  ips : tab.ips.Bounded
  limit : tab.ips.Limit = tableIPLimit

/-- The node database plays no part in the bounds. -/
theorem Bounded.with_db {tab : Table} (h : tab.Bounded) (d : nodeDB) :
    ({ tab with db := d } : Table).Bounded :=
  ⟨h.buckets, h.ips, h.limit⟩

/-- Putting a bounded bucket in place keeps the table bounded. -/
theorem Bounded.setBucket {tab : Table} (h : tab.Bounded) (i : Fin nBuckets)
    {b : Discover.bucket} (hb : b.Bounded) : (tab.setBucket i b).Bounded := by
  refine ⟨fun j => ?_, h.ips, h.limit⟩
  by_cases hj : j = i
  · subst hj
    rw [setBucket_buckets_self]
    exact hb
  · rw [setBucket_buckets_ne _ _ hj]
    exact h.buckets j

/-- {lit}`addIP` keeps the table bounded: it counts an address only within both limits. -/
theorem Bounded.addIP {tab : Table} (h : tab.Bounded) (bi : Fin nBuckets) (ip : IP) :
    (tab.addIP bi ip).2.Bounded := by
  have hb := h.buckets bi
  unfold Table.addIP
  dsimp only
  split_ifs
  · exact h
  · exact h
  · -- the bucket refuses the address: the table count is taken back
    exact ⟨h.buckets, (h.ips.Add ip).Remove ip, by simp [h.limit]⟩
  · have hset := h.setBucket bi
      (b := { tab.buckets bi with ips := ((tab.buckets bi).ips.Add ip).2 })
      ⟨hb.entries, hb.replacements, hb.ips.Add ip, by simp [hb.limit]⟩
    exact ⟨hset.buckets, h.ips.Add ip, by simp [h.limit]⟩

/-- {lit}`removeIP` keeps the table bounded. -/
theorem Bounded.removeIP {tab : Table} (h : tab.Bounded) (bi : Fin nBuckets) (ip : IP) :
    (tab.removeIP bi ip).Bounded := by
  have hb := h.buckets bi
  unfold Table.removeIP
  split_ifs
  · exact h
  · have hset := h.setBucket bi
      (b := { tab.buckets bi with ips := (tab.buckets bi).ips.Remove ip })
      ⟨hb.entries, hb.replacements, hb.ips.Remove ip, by simp [hb.limit]⟩
    exact ⟨hset.buckets, h.ips.Remove ip, by simp [h.limit]⟩

/-- {lit}`addReplacement` keeps the table bounded. -/
theorem Bounded.addReplacement {tab : Table} (h : tab.Bounded) (bi : Fin nBuckets) (n : Node) :
    (tab.addReplacement bi n).Bounded := by
  have hr := h.addIP bi n.IP
  have hb := hr.buckets bi
  unfold Table.addReplacement
  dsimp only
  split_ifs
  · exact h
  · exact h
  · -- the node goes in front of the replacements; one pushed off the end is uncounted
    have hnew := pushNode_length_le n hb.replacements (by decide : 0 < maxReplacements)
    split
    · apply Bounded.removeIP
      apply hr.setBucket bi
      exact ⟨hb.entries, hnew, hb.ips, hb.limit⟩
    · apply hr.setBucket bi
      exact ⟨hb.entries, hnew, hb.ips, hb.limit⟩

/-- {lit}`deleteInBucket` keeps the table bounded. -/
theorem Bounded.deleteInBucket {tab : Table} (h : tab.Bounded) (bi : Fin nBuckets) (n : Node) :
    (tab.deleteInBucket bi n).Bounded := by
  have hb := h.buckets bi
  unfold Table.deleteInBucket
  apply Bounded.removeIP
  apply h.setBucket bi
  exact ⟨(deleteNode_length_le _ n).trans hb.entries, hb.replacements, hb.ips, hb.limit⟩

/-- {lit}`replace` keeps the table bounded. -/
theorem Bounded.replace {tab : Table} (h : tab.Bounded) (bi : Fin nBuckets) (last : Node)
    (ri : Nat) : (tab.replace bi last ri).2.Bounded := by
  have hb := h.buckets bi
  unfold Table.replace
  dsimp only
  split
  · exact h
  · split_ifs
    · exact h
    · exact h.deleteInBucket bi last
    · split
      · exact h
      · -- the replacement takes the place of the last entry, whose address is uncounted
        apply Bounded.removeIP
        apply h.setBucket bi
        exact ⟨by rw [List.length_set]; exact hb.entries,
          (deleteNode_length_le _ _).trans hb.replacements, hb.ips, hb.limit⟩

/-- {lit}`bumpOrAdd` keeps the table bounded. -/
theorem Bounded.bumpOrAdd {tab : Table} (h : tab.Bounded) (bi : Fin nBuckets) (n : Node) :
    (tab.bumpOrAdd bi n).2.Bounded := by
  have hr := h.addIP bi n.IP
  have hb := hr.buckets bi
  unfold Table.bumpOrAdd
  dsimp only
  split_ifs
  · exact h.setBucket bi ((h.buckets bi).bump n)
  · exact h
  · exact hr
  · -- a new entry in front, which leaves the replacements
    apply hr.setBucket bi
    exact ⟨pushNode_length_le n hb.entries (by decide),
      (deleteNode_length_le _ n).trans hb.replacements, hb.ips, hb.limit⟩

/-- {lit}`add` keeps the table bounded. -/
theorem Bounded.add {tab : Table} (h : tab.Bounded) (n : Node) : (tab.add n).Bounded := by
  unfold Table.add
  dsimp only
  split_ifs
  · exact (h.bumpOrAdd _ n).addReplacement _ n
  · exact h.bumpOrAdd _ n

/-- {lit}`stuff` keeps the table bounded. -/
theorem Bounded.stuff {tab : Table} (h : tab.Bounded) (nodes : List Node) :
    (tab.stuff nodes).Bounded := by
  unfold Table.stuff
  -- each node of the loop keeps the bounds
  induction nodes generalizing tab with
  | nil => exact h
  | cons n nodes ih =>
    rw [List.foldl_cons]
    apply ih
    dsimp only
    split_ifs
    · exact h
    · exact h.bumpOrAdd _ n
    · exact h

/-- A revalidation round keeps the table bounded, whether the last node answers or not. -/
theorem Bounded.revalidate {tab : Table} (h : tab.Bounded) (bi : Fin nBuckets) (last : Node)
    (alive : Bool) (ri : Nat) : (tab.revalidate bi last alive ri).Bounded := by
  unfold Table.revalidate
  split
  · exact h.setBucket bi ((h.buckets bi).bump last)
  · exact h.replace bi last ri

/-- {lit}`loadSeedNodes` keeps the table bounded. -/
theorem Bounded.loadSeedNodes {tab : Table} (h : tab.Bounded) (seeds : List Node) :
    (tab.loadSeedNodes seeds).Bounded := by
  unfold Table.loadSeedNodes
  induction seeds generalizing tab with
  | nil => exact h
  | cons n seeds ih =>
    rw [List.foldl_cons]
    exact ih (h.add n)

section Hashing

variable (keccak : Bytes → Hash)

/-- {lit}`bond` keeps the table bounded, whatever the node database says. -/
theorem Bounded.bond {tab : Table} (h : tab.Bounded) (now : Int) (id : NodeID) (ip : IP)
    (pong : Bool) : (tab.bond keccak now id ip pong).Bounded := by
  unfold Table.bond
  dsimp only
  split_ifs
  · exact h
  · -- the pong is recorded and the new node added
    exact ((h.with_db _).add _).with_db _
  · -- without an answered ping the node of the database is added, if there is one
    split
    · exact (h.add _).with_db _
    · exact h

/-- A failed findnode keeps the table bounded. -/
theorem Bounded.findnodeFailed {tab : Table} (h : tab.Bounded) (n : Node) :
    (tab.findnodeFailed n).Bounded := by
  unfold Table.findnodeFailed
  dsimp only
  split_ifs
  · exact (h.with_db _).deleteInBucket _ n
  · exact h.with_db _

/-- Every table operation keeps the table bounded. -/
theorem Bounded.apply {tab : Table} (h : tab.Bounded) (op : Op) :
    (tab.apply keccak op).Bounded := by
  cases op with
  | add n => exact h.add n
  | bond now id ip pong => exact h.bond keccak now id ip pong
  | findnodeFailed n => exact h.findnodeFailed n
  | stuff nodes => exact h.stuff nodes
  | delete n => exact h.deleteInBucket _ n
  | revalidate bi last alive ri => exact h.revalidate bi last alive ri

/-- Every run of table operations keeps the table bounded. -/
theorem Bounded.run {tab : Table} (h : tab.Bounded) (ops : List Op) :
    (tab.run keccak ops).Bounded := by
  induction ops generalizing tab with
  | nil => exact h
  | cons op ops ih =>
    rw [Table.run_cons]
    exact ih (h.apply keccak op)

end Hashing

end Table

section Hashing

variable (keccak : Bytes → Hash)

/-- {lit}`newTable` makes a bounded table. -/
theorem bounded_newTable (ourID : NodeID) (ourIP : IP) (db : nodeDB) (seeds : List Node) :
    (newTable keccak ourID ourIP db seeds).Bounded := by
  have hempty : Discover.bucket.Bounded emptyBucket :=
    ⟨Nat.zero_le _, Nat.zero_le _, DistinctNetSet.bounded_empty _ _, rfl⟩
  unfold newTable
  exact Table.Bounded.loadSeedNodes
    ⟨fun _ => hempty, DistinctNetSet.bounded_empty _ _, rfl⟩ seeds

/-- Whatever the hash function, the local node, the seeds and the operations, the
table keeps every bucket within {lit}`bucketSize` entries and {lit}`maxReplacements`
replacements, and every subnet counter, of a bucket and of the table, within
{lit}`bucketIPLimit` and {lit}`tableIPLimit`. -/
theorem newTable_run_within_limits (ourID : NodeID) (ourIP : IP) (db : nodeDB)
    (seeds : List Node) (ops : List Op) :
    let tab := (newTable keccak ourID ourIP db seeds).run keccak ops
    (∀ i, (tab.buckets i).entries.length ≤ bucketSize ∧
        (tab.buckets i).replacements.length ≤ maxReplacements ∧
        ∀ k, (tab.buckets i).ips.members k ≤ bucketIPLimit) ∧
      ∀ k, tab.ips.members k ≤ tableIPLimit := by
  intro tab
  have h : tab.Bounded := (bounded_newTable keccak ourID ourIP db seeds).run keccak ops
  refine ⟨fun i => ⟨(h.buckets i).entries, (h.buckets i).replacements, fun k => ?_⟩, fun k => ?_⟩
  · rw [← (h.buckets i).limit]
    exact (h.buckets i).ips k
  · rw [← h.limit]
    exact h.ips k

end Hashing

/-! ## Rebonding from another subnet -/

/-- Three IDs other than the local one that a function on IDs (the bucket of their
hash) sends to one place: among 35 such IDs, by the pigeonhole principle. -/
theorem exists_three_ids_in_bucket (f : NodeID → Fin nBuckets) (ourID : NodeID) :
    ∃ a b c : NodeID, a ≠ b ∧ a ≠ c ∧ b ≠ c ∧ a ≠ ourID ∧ b ≠ ourID ∧ c ≠ ourID ∧
      f b = f a ∧ f c = f a := by
  -- thirty-six IDs that differ in their last byte
  let idOf : Fin 36 → NodeID := fun j => ⟨List.replicate 63 0 ++ [j.val.toUInt8], by simp⟩
  have hinj : Function.Injective idOf := by
    intro i j h
    have hbyte : i.val.toUInt8 = j.val.toUInt8 := by simpa [idOf] using congrArg NodeID.bytes h
    have := congrArg UInt8.toNat hbyte
    simp at this
    omega
  let s := (Finset.univ.image idOf).erase ourID
  have hcard : 35 ≤ s.card := by
    have := Finset.pred_card_le_card_erase (s := Finset.univ.image idOf) (a := ourID)
    rw [Finset.card_image_of_injective _ hinj, Finset.card_univ, Fintype.card_fin] at this
    omega
  have hlt : (Finset.univ : Finset (Fin nBuckets)).card * 2 < s.card := by
    rw [Finset.card_fin]
    simp only [nBuckets, hashBits]
    omega
  obtain ⟨y, -, hy⟩ :=
    Finset.exists_lt_card_fiber_of_mul_lt_card_of_maps_to (fun a _ => Finset.mem_univ (f a)) hlt
  obtain ⟨a, ha, b, hb, c, hc, hab, hac, hbc⟩ := Finset.two_lt_card.mp hy
  simp only [Finset.mem_filter, s, Finset.mem_erase] at ha hb hc
  exact ⟨a, b, c, hab, hac, hbc, ha.1.1, hb.1.1, hc.1.1, hb.2.trans ha.2.symm, hc.2.trans ha.2.symm⟩

/-- Whatever the hash function and the local node, on a new table over an empty node
database, three bonds with IDs and addresses that remote peers present, each answering
the ping, a failed findnode to the third node, and its bond again from the subnet of
the first two leave a bucket with more non-LAN nodes of one {lit}`/24` subnet than
{lit}`bucketIPLimit`, and with a counter for that subnet below the number of them. -/
theorem bond_exceeds_bucketIPLimit (keccak : Bytes → Hash) (ourID : NodeID) (ourIP : IP) :
    ∃ ops : List Op, (∀ op ∈ ops, (∃ now id ip, id ≠ ourID ∧ op = .bond now id ip true) ∨
        ∃ n, op = .findnodeFailed n) ∧
      ∃ i : Fin nBuckets, ∃ k : Bytes,
        let held := (((newTable keccak ourID ourIP nodeDB.empty []).run keccak ops).buckets i).entries.countP
          (fun n => !IsLAN n.IP && netKey bucketSubnet n.IP == k)
        bucketIPLimit < held ∧
          (((newTable keccak ourID ourIP nodeDB.empty []).run keccak ops).buckets i).ips.members k < held := by
  set tab0 := newTable keccak ourID ourIP nodeDB.empty []
  obtain ⟨a, b, c, hab, hac, hbc, ha, hb, hc, hfb, hfc⟩ :=
    exists_three_ids_in_bucket (fun id => tab0.bucket (keccak id.bytes)) ourID
  obtain ⟨y, hay⟩ : ∃ y, tab0.bucket (keccak a.bytes) = y := ⟨_, rfl⟩
  -- a and b bond from 1.2.3.0/24 and use up its quota in the bucket; c bonds from
  -- another subnet, fails a findnode, so that the database asks for a new ping/pong,
  -- and bonds again from 1.2.3.0/24, where bump lets it in uncounted
  refine ⟨[.bond (nodeDBNodeExpiration + 1) a [1, 2, 3, 1] true,
    .bond (nodeDBNodeExpiration + 1) b [1, 2, 3, 2] true,
    .bond (nodeDBNodeExpiration + 1) c [5, 6, 7, 1] true,
    .findnodeFailed (NewNode keccak c [5, 6, 7, 1]),
    .bond (nodeDBNodeExpiration + 1) c [1, 2, 3, 3] true], ?_, y, [0x34, 1, 2, 3], ?_⟩
  · simp only [List.mem_cons, List.not_mem_nil, or_false]
    rintro op (rfl | rfl | rfl | rfl | rfl)
    · exact .inl ⟨_, _, _, ha, rfl⟩
    · exact .inl ⟨_, _, _, hb, rfl⟩
    · exact .inl ⟨_, _, _, hc, rfl⟩
    · exact .inr ⟨_, rfl⟩
    · exact .inl ⟨_, _, _, hc, rfl⟩
  have hay' : bucketIndex tab0.self.sha (keccak a.bytes) = y := hay
  have hby : bucketIndex tab0.self.sha (keccak b.bytes) = y := hfb.trans hay
  have hcy : bucketIndex tab0.self.sha (keccak c.bytes) = y := hfc.trans hay
  have h0 : ∀ i, tab0.buckets i = ⟨[], [], ⟨24, 2, fun _ => 0⟩⟩ := fun _ => rfl
  have hips0 : tab0.ips = ⟨24, 10, fun _ => 0⟩ := rfl
  have hdb0 : tab0.db = nodeDB.empty := rfl
  -- the first three bonds bring new nodes, with room and quota for each; a day after
  -- the epoch no ID has a recent pong
  rw [Table.run_cons, Table.apply, Table.bond_of_pong keccak tab0 _ ha
      (.inr (by simp [hdb0, nodeDB.empty])),
    Table.add_of_fresh _ _ (by simp [h0]) (by simp [h0, bucketSize]) (by rw [NewNode_IP_ipv4]; decide)
      (by simp [DistinctNetSet.Add_fst, hips0]) (by simp [DistinctNetSet.Add_fst, h0])]
  simp only [NewNode_sha, Table.bucket_mk, hay']
  rw [Table.run_cons, Table.apply, Table.bond_of_pong keccak _ _ hb
      (.inr (by simp [hdb0, nodeDB.empty, nodeDB.updateBondTime, nodeDB.updateFindFails,
        hab.symm])),
    Table.add_of_fresh _ _ (by simp [hby, h0, hab]) (by simp [hby, h0, bucketSize])
      (by rw [NewNode_IP_ipv4]; decide)
      (by simp [DistinctNetSet.Add_fst, DistinctNetSet.key, hips0])
      (by simp [DistinctNetSet.Add_fst, DistinctNetSet.key, hby, h0])]
  rw [Table.run_cons, Table.apply, Table.bond_of_pong keccak _ _ hc
      (.inr (by simp [hdb0, nodeDB.empty, nodeDB.updateBondTime, nodeDB.updateFindFails,
        hac.symm, hbc.symm])),
    Table.add_of_fresh _ _ (by simp [hby, hcy, h0, hac, hbc])
      (by simp [hby, hcy, h0, bucketSize]) (by rw [NewNode_IP_ipv4]; decide)
      (by simp [DistinctNetSet.Add_fst, DistinctNetSet.key, hips0])
      (by simp [DistinctNetSet.Add_fst, DistinctNetSet.key, hby, hcy, h0])]
  -- the failed findnode counts one failure for c, which is reset to zero by its bond
  rw [Table.run_cons, Table.apply, Table.findnodeFailed_of_lt _
    (by simp [nodeDB.updateFindFails, maxFindnodeFailures])]
  -- so the second bond of c pings again, finds c among the entries and only moves it
  -- to the front
  rw [Table.run_cons, Table.apply, Table.bond_of_pong keccak _ _ hc
      (.inl (by simp [nodeDB.updateFindFails])),
    Table.add_of_mem _ _ (by simp [hby, hcy]), Table.run_nil]
  simp [deleteNode, hby, hcy, h0, DistinctNetSet.Add_fst, DistinctNetSet.key, bucketSubnet,
    bucketIPLimit]
  -- three nodes of 1.2.3.0/24 against a limit of two
  simp only [List.countP_cons, List.countP_nil, NewNode_IP_ipv4]
  decide

end Discover
end Uranus
