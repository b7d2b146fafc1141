import Uranus.Mtp.Database
import Uranus.Rlp.Encode

/-!
# Hashing and storing trie nodes (`common/mtp/hasher.go`)

The hasher collapses a node tree bottom-up: every child whose RLP encoding is at
least 32 bytes long is replaced by its Keccak-256 hash, and with a database the
encoding is written to it under that hash.  It returns the collapsed node and a
copy of the original with the computed hashes cached in its flags; when
committing, clean subtrees that are old enough are unloaded to hash nodes.

The Keccak-256 sum is the hasher's {lit}`sha` field.  Go's hasher mutates the
database through a pointer; here the optional database is threaded through and
returned.  The Go hasher panics when asked to hash a nil node; that is
{lean}`none`.

Main results:

- Definition {lit}`Hasher.hash`: the hasher, with {lit}`hashChildren` written
  inside it so that the recursion is structural.
- Definition {lit}`Hasher.hashChildren`: the collapsed form of a node without the
  early return on its cached hash, which {lit}`Trie.Prove` encodes.
- Definition {lit}`Hasher.storeWrites`: what {lit}`store` adds to the database,
  the encoding under its hash, then references, then what the leaf callback adds.
-/

namespace Uranus
namespace Mtp

open Rlp

/-- A node in the form {lit}`hashChildren` gives it for encoding: short-node keys in
compact form, large children replaced by their hashes. -/
inductive Collapsed where
  | short (key : Bytes) (val : Collapsed)
  | full (children : Fin 17 → Collapsed)
  | hash (h : Hash)
  | value (v : Bytes)
  /-- {lit}`valueNode(nil)`, which stands in for a nil child -/
  | empty
  /-- a node the hasher copies as it is, which only the value slot of a full node
  holds -/
  | raw (n : Node)

/-- The RLP item Go's reflection encoder makes of a node that was not collapsed.
A nil interface is written as the empty list. -/
def Node.rawItem : Node → Item
  | .nil => .list []
  | .full cs _ => .list ((List.finRange 17).map fun i => (cs i).rawItem)
  | .short k v _ => .list [.str (k.map nibbleByte), v.rawItem]
  | .hash h => .str h.bytes
  | .value v => .str v

/-- The RLP item of a collapsed node: a short node is the list of its compact key
and its child, a full node the list of its seventeen children, and hash and value
nodes are strings. -/
def Collapsed.toItem : Collapsed → Item
  | .short k v => .list [.str k, v.toItem]
  | .full cs => .list ((List.finRange 17).map fun i => (cs i).toItem)
  | .hash h => .str h.bytes
  | .value v => .str v
  | .empty => .str []
  | .raw n => n.rawItem

/-- {lit}`rlp.Encode` of a collapsed node. -/
def Collapsed.encode (n : Collapsed) : Bytes := n.toItem.encode

/-- How the value slot of a full node is collapsed: kept as it is, and nil
written as an empty string. -/
def Collapsed.ofValueSlot : Node → Collapsed
  | .nil => .empty
  | .value v => .value v
  | n => .raw n

/-- The hashes among a collapsed node's direct children, which {lit}`store`
references from the node.  Only the first sixteen children of a full node are
looked at. -/
def Collapsed.childHashes : Collapsed → List Hash
  | .short _ (.hash c) => [c]
  | .full cs => (List.finRange 16).filterMap fun i =>
      match cs i.castSucc with
      | .hash c => some c
      | _ => none
  | _ => []

/-- The non-nil values among a collapsed node's direct children, which
{lit}`store` hands to the leaf callback.  Nil children were collapsed to
{lit}`empty` and are skipped. -/
def Collapsed.leafValues : Collapsed → List Bytes
  | .short _ (.value v) => [v]
  | .full cs => (List.finRange 16).filterMap fun i =>
      match cs i.castSucc with
      | .value v => some v
      | _ => none
  | _ => []

/-- The hash of a collapsed node that is a hash node: the type switch
{lit}`hn.(hashNode)`. -/
def Collapsed.asHash : Collapsed → Option Hash
  | .hash h => some h
  | _ => none

/-- {lit}`LeafCallback`, by its effect on the trie database.  The callback's error
is discarded by {lit}`store`. -/
abbrev LeafCallback := Bytes → Hash → Database → Database

/-- {lit}`hasher`. -/
structure Hasher where
  /-- the Keccak-256 sum of the hasher's {lit}`sha` state -/
  sha : Bytes → Hash
  cachegen : UInt16
  cachelimit : UInt16
  onleaf : Option LeafCallback

/-- Replace the flags of a full or short node; other nodes have none. -/
def Node.mapFlags (g : NodeFlag → NodeFlag) : Node → Node
  | .full cs f => .full cs (g f)
  | .short k v f => .short k v (g f)
  | n => n

namespace Hasher

variable (h : Hasher)

/-- The database writes of {lit}`store` for a node it replaces by a hash: the
encoding, the references to the node's hash children, then the leaf callback on
the node's values. -/
def storeWrites (n : Collapsed) (hash : Hash) (enc : Bytes) (db : Database) : Database :=
  let db := db.insert hash enc
  let db := n.childHashes.foldl (fun db c => db.reference c hash) db
  match h.onleaf with
  | none => db
  | some onleaf => n.leafValues.foldl (fun db v => onleaf v hash db) db

/-- {lit}`store`: a hash node is kept, a node whose encoding is shorter than 32
bytes stays embedded unless {lit}`force` is set, and every other node is replaced
by its hash: the one cached in the original node's flags, else the Keccak-256 of
its encoding.  {lit}`cachedHash` is the hash in the flags the collapsed node
copies. -/
def store (n : Collapsed) (cachedHash : Option Hash) (db : Option Database) (force : Bool) :
    Collapsed × Option Database :=
  match n with
  | .hash _ => (n, db)
  | _ =>
    let enc := n.encode
    if enc.length < 32 ∧ force = false then (n, db)
    else
      let hash := cachedHash.getD (h.sha enc)
      (.hash hash, db.map (h.storeWrites n hash enc))

/-- The early return of {lit}`hash` for a node with a cached hash: without a
database the hash is used as it is; when committing, an unloadable node is
replaced by its hash and a clean node is kept.  {lean}`none` means the children
have to be walked. -/
def shortcut (n : Node) (db : Option Database) : Option (Collapsed × Node) :=
  match n.cache with
  | (some hash, dirty) =>
    if db.isNone then some (.hash hash, n)
    else if n.canUnload h.cachegen h.cachelimit then some (.hash hash, .hash hash)
    else if dirty = false then some (.hash hash, n)
    else none
  | (none, _) => none

/-- The end of {lit}`hash`: store the collapsed node, then cache the resulting
hash in the copy of the original and, when committing, clear its dirty bit. -/
def finish (collapsed : Collapsed) (cached : Node) (db : Option Database) (force : Bool) :
    Collapsed × Node × Option Database :=
  let (hashed, db') := h.store collapsed cached.cache.1 db force
  let cachedHash := match hashed with
    | .hash x => some x
    | _ => none
  let dirty (f : NodeFlag) : Bool := if db.isSome then false else f.dirty
  (hashed, cached.mapFlags (fun f => ⟨cachedHash, f.gen, dirty f⟩), db')

/-- One round of the loop of {lit}`hashChildren` over the first sixteen children
of a full node: hash child {lit}`i` unless it is nil, which stays collapsed to an
empty string. -/
def hashChildStep (hashChild : Node → Option Database → Option (Collapsed × Node × Option Database))
    (cs : Fin 17 → Node)
    (st : (Fin 17 → Collapsed) × (Fin 17 → Node) × Option Database) (i : Fin 16) :
    Option ((Fin 17 → Collapsed) × (Fin 17 → Node) × Option Database) :=
  if (cs i.castSucc).isNil then some st
  else do
    let (c, k, db) ← hashChild (cs i.castSucc) st.2.2
    some (Function.update st.1 i.castSucc c, Function.update st.2.1 i.castSucc k, db)

/-- {lit}`hash`: collapse a node into a hash node, or into itself when it is
small enough to be embedded, and return a copy of the original with the computed
hashes cached.  The short and full cases are {lit}`hashChildren` followed by
{lit}`store`. -/
def hash (n : Node) (db : Option Database) (force : Bool) :
    Option (Collapsed × Node × Option Database) :=
  match n with
  -- n.cache() on a nil node dereferences nil
  | .nil => none
  -- a hash node has no cached hash and no children; store keeps it
  | .hash x => some (.hash x, .hash x, db)
  | .value v =>
    let (hashed, db') := h.store (.value v) none db force
    some (hashed, .value v, db')
  | .short key val f =>
    match h.shortcut (.short key val f) db with
    | some r => some (r.1, r.2, db)
    | none => do
      -- a value child is left as it is, any other child is hashed
      let (cv, cval, db') ← match val with
        | .value v => some (Collapsed.value v, Node.value v, db)
        | _ => hash val db false
      some (h.finish (.short (hexToCompact key) cv) (.short key cval f) db' force)
  | .full cs f =>
    match h.shortcut (.full cs f) db with
    | some r => some (r.1, r.2, db)
    | none => do
      let (ccs, kcs, db') ← (List.finRange 16).foldlM
        (fun st i =>
          if (cs i.castSucc).isNil then some st
          else do
            let (c, k, db) ← hash (cs i.castSucc) st.2.2 false
            some (Function.update st.1 i.castSucc c, Function.update st.2.1 i.castSucc k, db))
        ((fun i => Collapsed.ofValueSlot (cs i)), cs, db)
      some (h.finish (.full ccs) (.full kcs f) db' force)

/-- {lit}`hashChildren`: the collapsed form of a node, with its children replaced by
what the hasher makes of them, and a copy of the node with their hashes cached.
Unlike {lit}`hash` it does not look at the node's own cached hash.  Value and hash
nodes have no children and are left as they are; Go's nil node is encoded as the
empty list. -/
def hashChildren (original : Node) (db : Option Database) :
    Option (Collapsed × Node × Option Database) :=
  match original with
  | .short key val f => do
    let (cv, cval, db') ← match val with
      | .value v => some (Collapsed.value v, Node.value v, db)
      | _ => h.hash val db false
    some (.short (hexToCompact key) cv, .short key cval f, db')
  | .full cs f => do
    let (ccs, kcs, db') ← (List.finRange 16).foldlM
      (hashChildStep (fun n db => h.hash n db false) cs) ((fun i => Collapsed.ofValueSlot (cs i)), cs, db)
    some (.full ccs, .full kcs f, db')
  | .value v => some (.value v, .value v, db)
  | .hash x => some (.hash x, .hash x, db)
  | .nil => some (.raw .nil, .nil, db)

end Hasher

end Mtp
end Uranus
