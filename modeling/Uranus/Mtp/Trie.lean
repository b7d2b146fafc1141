import Uranus.Mtp.Hasher

/-!
# The Merkle-Patricia trie (`common/mtp/trie.go`)

A {lit}`Trie` holds a root node, the node database that hash nodes are resolved
against, an optional key prefix and the cache generation counters.  Keys are
turned into nibble paths ending in the terminator {lit}`16`; {lit}`tryGet`,
{lit}`insert` and {lit}`delete` walk the path, resolving hash nodes from the
database on the way, and rebuild the nodes they change with fresh dirty flags.

Resolving a hash node loads a new node, so the Go recursion is not structural.
Each of the three walks is written here as one level, {lit}`tryGetWith`,
{lit}`insertWith` and {lit}`deleteWith`, that is structural on the node and hands
every resolved node to the next level; the walks stack as many levels as the key
has nibbles plus one.  A trie whose short nodes have non-empty keys resolves at
most that many hash nodes along one path; past the last level the model reports
{lit}`outOfFuel`, where the Go code would keep recursing.

Main results:

- Definitions {lit}`Trie.TryGet`, {lit}`Trie.Get`, {lit}`Trie.TryUpdate`,
  {lit}`Trie.TryDelete`, {lit}`Trie.Hash`, {lit}`Trie.Commit`, {lit}`Trie.CommitTo`,
  {lit}`New` and {lit}`NewWithPrefix`: the operations of a trie.
- Definition {lit}`Trie.Prove`: the Merkle proof of a key, the nodes on its path
  written under their hashes.
-/

namespace Uranus
namespace Mtp

/-- {lit}`emptyRoot`, the known root hash of an empty trie: the Keccak-256 of the
RLP encoding of the empty string. -/
def emptyRoot : Hash :=
  ⟨[86, 232, 31, 23, 27, 204, 85, 166, 255, 131, 69, 230, 146, 192, 248, 110, 91, 72, 224, 27,
    153, 108, 173, 192, 1, 98, 47, 181, 227, 99, 180, 33], rfl⟩

/-- {lit}`MissingNodeError`: the hash that was not found and the nibble path to it. -/
structure MissingNodeError where
  NodeHash : Hash
  Path : List Nibble
deriving DecidableEq

/-- What a trie operation can fail with. -/
inductive TrieError where
  | missing (e : MissingNodeError)
  /-- a Go runtime panic: a node that does not decode, a key indexed past its end,
  or a node kind the walk does not expect -/
  | panic
  /-- more hash nodes on one path than the walk has levels -/
  | outOfFuel
deriving DecidableEq

/-- {lit}`Trie`. -/
structure Trie where
  db : Database
  root : Node
  originalRoot : Hash
  /-- the Go field {lit}`prefix`, prepended to every key; a nil prefix is the empty
  one -/
  keyPrefix : Bytes
  cachegen : UInt16
  cachelimit : UInt16

namespace Trie

variable (t : Trie)

/-- {lit}`newFlag`: a dirty flag of the current generation and no hash. -/
def newFlag : NodeFlag := ⟨none, t.cachegen, true⟩

/-- {lit}`resolveHash`: load and decode the node stored under a hash.  A node that
does not decode makes {lit}`mustDecodeNode` panic. -/
def resolveHash (n : Hash) (pfx : List Nibble) : Except TrieError Node :=
  match t.db.Node n with
  | none => .error (.missing ⟨n, pfx⟩)
  | some enc =>
    if enc = [] then .error (.missing ⟨n, pfx⟩)
    else
      match decodeNode (some n) enc t.cachegen with
      | .ok node => .ok node
      | .error _ => .error .panic

/-- {lit}`resolve`: resolve a hash node, keep any other node. -/
def resolve (n : Node) (pfx : List Nibble) : Except TrieError Node :=
  match n with
  | .hash h => t.resolveHash h pfx
  | n => .ok n

/-! ## Lookup -/

/-- One level of {lit}`tryGet`: the value under the rest of the key, the node with
the resolved hash nodes swapped in, and whether anything was resolved.  The node
is read with the key part already consumed, {lit}`pfx`, and the rest of it. -/
def tryGetWith (next : Node → List Nibble → List Nibble →
      Except TrieError (Option Bytes × Node × Bool)) :
    Node → List Nibble → List Nibble → Except TrieError (Option Bytes × Node × Bool)
  | .nil, _, _ => .ok (none, .nil, false)
  | .value v, _, _ => .ok (some v, .value v, false)
  | .short key val f, pfx, rest =>
    if rest.length < key.length ∨ key ≠ rest.take key.length then
      -- key not found in trie
      .ok (none, .short key val f, false)
    else
      match tryGetWith next val (pfx ++ key) (rest.drop key.length) with
      | .error e => .error e
      | .ok (value, newnode, didResolve) =>
        if didResolve then .ok (value, .short key newnode { f with gen := t.cachegen }, true)
        else .ok (value, .short key val f, false)
  -- the Go code indexes past the end of the key
  | .full _ _, _, [] => .error .panic
  | .full cs f, pfx, i :: rest =>
    match tryGetWith next (cs i) (pfx ++ [i]) rest with
    | .error e => .error e
    | .ok (value, newnode, didResolve) =>
      if didResolve then
        .ok (value, .full (setChild cs i newnode) { f with gen := t.cachegen }, true)
      else .ok (value, .full cs f, false)
  | .hash h, pfx, rest =>
    match t.resolveHash h pfx with
    | .error e => .error e
    | .ok child =>
      match next child pfx rest with
      | .error e => .error e
      | .ok (value, newnode, _) => .ok (value, newnode, true)

/-- {lit}`tryGet` with {lit}`fuel` levels of hash resolution. -/
def tryGet : Nat → Node → List Nibble → List Nibble →
    Except TrieError (Option Bytes × Node × Bool)
  | 0 => fun _ _ _ => .error .outOfFuel
  | fuel + 1 => t.tryGetWith (tryGet fuel)

/-- The levels the walks get for a key of this many nibbles. -/
def levels (key : List Nibble) : Nat := key.length + 1

/-- {lit}`TryGet`: the value stored under a key, or {lean}`none`.  The trie keeps the
nodes resolved on the way. -/
def TryGet (key : Bytes) : Except TrieError (Option Bytes × Trie) :=
  let k := keybytesToHex (t.keyPrefix ++ key)
  match t.tryGet (levels k) t.root [] k with
  | .error e => .error e
  | .ok (value, newroot, didResolve) =>
    .ok (value, if didResolve then { t with root := newroot } else t)

/-- {lit}`Get`: {lit}`TryGet` with its error logged and dropped, when the value is nil
and the trie keeps its root. -/
def Get (key : Bytes) : Option Bytes × Trie :=
  match t.TryGet key with
  | .ok (value, t') => (value, t')
  | .error _ => (none, t)

/-! ## Insertion -/

/-- {lit}`insert(nil, prefix, key, value)`: the value itself for an empty key, else a
short node leading to it. -/
def insertNil (key : List Nibble) (value : Node) : Node :=
  if key = [] then value else .short key value t.newFlag

/-- The full node {lit}`insert` builds where a short node's key and the inserted key
first differ: the old child under the short node's next nibble and the new value
under the key's. -/
def branch (nkey : List Nibble) (nval : Node) (key : List Nibble) (value : Node)
    (matchlen : Nat) (a b : Nibble) : Node :=
  let cs := setChild emptyChildren a (t.insertNil (nkey.drop (matchlen + 1)) nval)
  .full (setChild cs b (t.insertNil (key.drop (matchlen + 1)) value)) t.newFlag

/-- One level of {lit}`insert`: whether the trie changed and the new node. -/
def insertWith (next : Node → List Nibble → List Nibble → Node → Except TrieError (Bool × Node)) :
    Node → List Nibble → List Nibble → Node → Except TrieError (Bool × Node)
  | n, _, [], value =>
    match n, value with
    | .value v, .value v' => .ok (v ≠ v', value)
    -- the assertion value.(valueNode) fails
    | .value _, _ => .error .panic
    | _, _ => .ok (true, value)
  | .short nkey nval f, pfx, k :: ks, value =>
    let key := k :: ks
    let matchlen := prefixLen key nkey
    -- if the whole key of the short node matches, keep it and insert below
    if matchlen = nkey.length then
      match insertWith next nval (pfx ++ key.take matchlen) (key.drop matchlen) value with
      | .error e => .error e
      | .ok (false, _) => .ok (false, .short nkey nval f)
      | .ok (true, nn) => .ok (true, .short nkey nn t.newFlag)
    else
      -- otherwise branch out at the index where they differ
      match nkey[matchlen]?, key[matchlen]? with
      | some a, some b =>
        let br := t.branch nkey nval key value matchlen a b
        if matchlen = 0 then .ok (true, br)
        else .ok (true, .short (key.take matchlen) br t.newFlag)
      -- the key ends inside the short node's key: key[matchlen] panics
      | _, _ => .error .panic
  | .full cs f, pfx, k :: ks, value =>
    match insertWith next (cs k) (pfx ++ [k]) ks value with
    | .error e => .error e
    | .ok (false, _) => .ok (false, .full cs f)
    | .ok (true, nn) => .ok (true, .full (setChild cs k nn) t.newFlag)
  | .nil, _, k :: ks, value => .ok (true, .short (k :: ks) value t.newFlag)
  | .hash h, pfx, k :: ks, value =>
    -- load the node and insert into it; the loaded node replaces the hash node
    -- even when nothing changed
    match t.resolveHash h pfx with
    | .error e => .error e
    | .ok rn =>
      match next rn pfx (k :: ks) value with
      | .error e => .error e
      | .ok (false, _) => .ok (false, rn)
      | .ok (true, nn) => .ok (true, nn)
  -- a value node with key left over is an invalid node
  | .value _, _, _ :: _, _ => .error .panic

/-- {lit}`insert` with {lit}`fuel` levels of hash resolution. -/
def insert : Nat → Node → List Nibble → List Nibble → Node → Except TrieError (Bool × Node)
  | 0 => fun _ _ _ _ => .error .outOfFuel
  | fuel + 1 => t.insertWith (insert fuel)

/-! ## Deletion -/

/-- The node a full node with a single child left at {lit}`pos` becomes: a short
node, merged with the child when that resolves to a short node.  The value slot is
not resolved. -/
def collapseChild (cs : Fin 17 → Node) (pos : Fin 17) (pfx : List Nibble) :
    Except TrieError Node :=
  if pos.val ≠ 16 then
    match t.resolve (cs pos) pfx with
    | .error e => .error e
    | .ok (.short ck cv _) => .ok (.short (pos :: ck) cv t.newFlag)
    | .ok _ => .ok (.short [pos] (cs pos) t.newFlag)
  else .ok (.short [pos] (cs pos) t.newFlag)

/-- One level of {lit}`delete`: whether the trie changed and the new node. -/
def deleteWith (next : Node → List Nibble → List Nibble → Except TrieError (Bool × Node)) :
    Node → List Nibble → List Nibble → Except TrieError (Bool × Node)
  | .short nkey nval f, pfx, key =>
    let matchlen := prefixLen key nkey
    if matchlen < nkey.length then .ok (false, .short nkey nval f) -- don't replace n on mismatch
    else if matchlen = key.length then .ok (true, .nil) -- remove n entirely for whole matches
    else
      -- the key is longer than the short node's key: delete below, then merge a short
      -- child into this node
      match deleteWith next nval (pfx ++ key.take nkey.length) (key.drop nkey.length) with
      | .error e => .error e
      | .ok (false, _) => .ok (false, .short nkey nval f)
      | .ok (true, .short ck cv _) => .ok (true, .short (nkey ++ ck) cv t.newFlag)
      | .ok (true, child) => .ok (true, .short nkey child t.newFlag)
  -- the Go code indexes past the end of the key
  | .full _ _, _, [] => .error .panic
  | .full cs f, pfx, k :: ks =>
    match deleteWith next (cs k) (pfx ++ [k]) ks with
    | .error e => .error e
    | .ok (false, _) => .ok (false, .full cs f)
    | .ok (true, nn) =>
      let cs' := setChild cs k nn
      -- a full node left with one child is reduced to a short node
      match nonNilIndices cs' with
      | [pos] => (t.collapseChild cs' pos pfx).map fun n => (true, n)
      | _ => .ok (true, .full cs' t.newFlag)
  | .value _, _, _ => .ok (true, .nil)
  | .nil, _, _ => .ok (false, .nil)
  | .hash h, pfx, key =>
    match t.resolveHash h pfx with
    | .error e => .error e
    | .ok rn =>
      match next rn pfx key with
      | .error e => .error e
      | .ok (false, _) => .ok (false, rn)
      | .ok (true, nn) => .ok (true, nn)

/-- {lit}`delete` with {lit}`fuel` levels of hash resolution. -/
def delete : Nat → Node → List Nibble → List Nibble → Except TrieError (Bool × Node)
  | 0 => fun _ _ _ => .error .outOfFuel
  | fuel + 1 => t.deleteWith (delete fuel)

/-! ## Updates -/

/-- {lit}`TryUpdate`: store a value under a key; an empty value deletes the key. -/
def TryUpdate (key value : Bytes) : Except TrieError Trie :=
  let k := keybytesToHex (t.keyPrefix ++ key)
  if value ≠ [] then
    (t.insert (levels k) t.root [] k (.value value)).map fun r => { t with root := r.2 }
  else
    (t.delete (levels k) t.root [] k).map fun r => { t with root := r.2 }

/-- {lit}`TryDelete`: remove any value stored under a key. -/
def TryDelete (key : Bytes) : Except TrieError Trie :=
  let k := keybytesToHex (t.keyPrefix ++ key)
  (t.delete (levels k) t.root [] k).map fun r => { t with root := r.2 }

/-! ## Hashing and committing -/

/-- {lit}`hashRoot`: the empty root for an empty trie, else the root hashed with
{lit}`force`, so that it always becomes a hash node. -/
def hashRoot (sha : Bytes → Hash) (db : Option Database) (onleaf : Option LeafCallback) :
    Option (Collapsed × Node × Option Database) :=
  match t.root with
  | .nil => some (.hash emptyRoot, .nil, db)
  | root => (Hasher.mk sha t.cachegen t.cachelimit onleaf).hash root db true

/-- {lit}`Hash`: the root hash, computed without writing to a database; the trie
keeps the hashes cached in its nodes.  {lean}`none` is a Go panic. -/
def Hash (sha : Bytes → Hash) : Option (Uranus.Hash × Trie) :=
  match t.hashRoot sha none none with
  | some (.hash root, cached, _) => some (root, { t with root := cached })
  | _ => none

/-- {lit}`Commit`: write every dirty node to the trie's database and start a new
cache generation. -/
def Commit (sha : Bytes → Uranus.Hash) (onleaf : Option LeafCallback) :
    Option (Uranus.Hash × Trie) :=
  match t.hashRoot sha (some t.db) onleaf with
  | some (.hash root, cached, some db) =>
    some (root, { t with root := cached, db := db, cachegen := t.cachegen + 1 })
  | _ => none

/-- {lit}`CommitTo`: write every dirty node to another database, returned with the
root and the trie. -/
def CommitTo (sha : Bytes → Uranus.Hash) (db : Database) :
    Option (Uranus.Hash × Trie × Database) :=
  match t.hashRoot sha (some db) none with
  | some (.hash root, cached, some db') =>
    some (root, { t with root := cached, cachegen := t.cachegen + 1 }, db')
  | _ => none

/-! ## Proofs -/

/-- One level of the walk of {lit}`Prove` that collects the nodes on the path to a
key: every short and full node it passes, until the key is used up, the trie turns
out not to hold it, or a hash node is resolved and handed to the next level.
{lit}`rest` is what is left of the key. -/
def proveWith (next : Node → List Nibble → Except TrieError (List Node)) :
    Node → List Nibble → Except TrieError (List Node)
  | _, [] => .ok []
  | .nil, _ :: _ => .ok []
  | .short key val f, rest@(_ :: _) =>
    if rest.length < key.length ∨ key ≠ rest.take key.length then
      -- the trie doesn't contain the key
      .ok [.short key val f]
    else (proveWith next val (rest.drop key.length)).map (.short key val f :: ·)
  | .full cs f, i :: rest => (proveWith next (cs i) rest).map (.full cs f :: ·)
  | .hash h, rest@(_ :: _) =>
    match t.resolveHash h [] with
    | .error e => .error e
    | .ok n => next n rest
  -- any other node is invalid here
  | .value _, _ :: _ => .error .panic

/-- {lit}`Prove`'s walk with {lit}`fuel` levels of hash resolution. -/
def prove : Nat → Node → List Nibble → Except TrieError (List Node)
  | 0 => fun _ _ => .error .outOfFuel
  | fuel + 1 => t.proveWith (prove fuel)

/-- The loop of {lit}`Prove` that writes the proof.  Each collected node is collapsed
by {lit}`hashChildren` and {lit}`store` without a database; the node at index
{lit}`0` and every node that {lit}`store` replaces by a hash is a proof element,
written under its hash unless {lit}`fromLevel` skips it.  {lean}`none` is a panic
of the hasher. -/
def writeProof (h : Hasher) : List Node → Nat → Nat → KeyValueStore → Option KeyValueStore
  | [], _, _, proofDb => some proofDb
  | n :: nodes, i, fromLevel, proofDb =>
    match h.hashChildren n none with
    | none => none
    | some (collapsed, _, _) =>
      -- the collapsed node is a copy of the original and carries its cached hash
      let hn := (h.store collapsed n.cache.1 none false).1
      if hn.asHash.isSome ∨ i = 0 then
        if 0 < fromLevel then writeProof h nodes (i + 1) (fromLevel - 1) proofDb
        else
          let enc := collapsed.encode
          writeProof h nodes (i + 1) fromLevel
            (Function.update proofDb (hn.asHash.getD (h.sha enc)).bytes (some enc))
      else writeProof h nodes (i + 1) fromLevel proofDb

/-- {lit}`Prove`: write a Merkle proof for {lit}`key` into {lit}`proofDb`, the
encodings of the nodes on the path to the key under their hashes: the root always,
every other node unless it is embedded in its parent, and the first
{lit}`fromLevel` of them left out.  The walk reads the key without the trie's
prefix, and the hasher has generation and limit zero and no leaf callback. -/
def Prove (sha : Bytes → Uranus.Hash) (key : Bytes) (fromLevel : Nat)
    (proofDb : KeyValueStore) : Except TrieError KeyValueStore :=
  let k := keybytesToHex key
  match t.prove (levels k) t.root k with
  | .error e => .error e
  | .ok nodes =>
    match writeProof ⟨sha, 0, 0, none⟩ nodes 0 fromLevel proofDb with
    | some proofDb => .ok proofDb
    | none => .error .panic

end Trie

/-- {lit}`New`: open the trie with the given root.  The zero hash and the empty
root stand for the empty trie; any other root is loaded at once. -/
def New (root : Hash) (db : Database) : Except TrieError Trie :=
  let trie : Trie := ⟨db, .nil, root, [], 0, 0⟩
  if root ≠ Hash.zero ∧ root ≠ emptyRoot then
    (trie.resolveHash root []).map fun rootnode => { trie with root := rootnode }
  else .ok trie

/-- {lit}`NewWithPrefix`: {lit}`New` with every key prefixed. -/
def NewWithPrefix (root : Hash) (pfx : Bytes) (db : Database) : Except TrieError Trie :=
  (New root db).map fun trie => { trie with keyPrefix := pfx }

end Mtp
end Uranus
