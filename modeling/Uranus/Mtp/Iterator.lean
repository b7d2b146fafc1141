import Uranus.Mtp.Trie

/-!
# Trie iterators ({lit}`common/mtp/iter.go`)

A {lit}`nodeIterator` walks a trie in pre-order with an explicit stack.  Each frame
holds a node, the index of the child it takes next and the length of the path above
it.  {lit}`peek` finds the next node: the next child of the top frame, popping the
frames that have none left, loaded from the database when it is a hash node.
{lit}`push` makes it the current node.  {lit}`seek` moves to just before the first
node whose path is not before the hex key of its start, and descends only into the
nodes on the way to that key.  A {lit}`prefixIterator` stops at the first node
outside its prefix.  The key-value {lit}`Iterator` reports the nodes whose path ends
with the terminator.

The Go stack is a slice whose last element is the current frame; here it is a list
with the current frame first.  Every function returns {lean}`none` where the Go code
panics.  The loops of {lit}`seek` and {lit}`Iterator.Next` run in Go until they stop;
here they take a fuel and also return {lean}`none` when it runs out.

Main results:

- Definitions {lit}`nodeIterator.Next`, {lit}`nodeIterator.seek`,
  {lit}`prefixIterator.Next` and {lit}`Iterator.Next`: the steps of the iterators.
- Definitions {lit}`Trie.NodeIterator` and {lit}`Trie.PrefixIterator`: the iterators
  a trie makes.
-/

namespace Uranus
namespace Mtp

/-- {lit}`emptyState`: the Keccak-256 of the empty string. -/
def emptyState (sha : Bytes → Hash) : Hash := sha []

/-- {lit}`nodeIteratorState`: one frame of the stack. -/
structure nodeIteratorState where
  /-- hash of the node, zero if it is not standalone -/
  hash : Hash
  node : Node
  /-- hash of the first full ancestor node, zero for the root -/
  parent : Hash
  /-- the child to be processed next -/
  index : Int
  /-- {lit}`len(it.path)` when the frame was made: the length of the parent's path -/
  pathlen : Nat

/-- What a node iterator stops with. -/
inductive IterError where
  /-- {lit}`errIteratorEnd` -/
  | iteratorEnd
  /-- {lit}`seekError`: the seek towards the key failed -/
  | seekError (key : Bytes) (err : TrieError)
  /-- an error resolving a node -/
  | resolve (err : TrieError)

/-- {lit}`nodeIterator`. -/
structure nodeIterator where
  /-- the trie being iterated; nil in the iterator of a trie whose root hash is
  {lit}`emptyState` -/
  trie : Option Trie
  /-- the frames, the current node's first -/
  stack : List nodeIteratorState
  /-- the path to the current node -/
  path : List Nibble
  err : Option IterError

/-- {lit}`nodeIteratorState.resolve`: a hash node is loaded and the frame takes its
hash.  A blob that does not decode makes {lit}`mustDecodeNode` panic. -/
def nodeIteratorState.resolve (st : nodeIteratorState) (tr : Trie) (path : List Nibble) :
    Option (Except TrieError nodeIteratorState) :=
  match st.node with
  | .hash h =>
    match tr.resolveHash h path with
    | .ok resolved => some (.ok { st with node := resolved, hash := h })
    | .error .panic => none
    | .error e => some (.error e)
  | _ => some (.ok st)

namespace nodeIterator

/-- {lit}`nextChild`: the frame of the first child after the frame's index, the path
to it, and the frame with its index just before that child.  The child's hash is
its cached one, zero for a node without. -/
def nextChild (path : List Nibble) (parent : nodeIteratorState) (ancestor : Hash) :
    Option (nodeIteratorState × List Nibble × nodeIteratorState) :=
  match parent.node with
  | .full cs _ =>
    -- full node: move to the first non-nil child
    match (nonNilIndices cs).find? (fun i => decide (parent.index < (i.val : Int))) with
    | some i =>
      some (⟨(cs i).cache.1.getD Hash.zero, cs i, ancestor, -1, path.length⟩, path ++ [i],
        { parent with index := (i.val : Int) - 1 })
    | none => none
  | .short key val _ =>
    -- short node: the pointer singleton child
    if parent.index < 0 then
      some (⟨val.cache.1.getD Hash.zero, val, ancestor, -1, path.length⟩, path ++ key, parent)
    else none
  | _ => none

/-- The loop of {lit}`peek` over the stack: the next child of the top frame, else pop
the frame and go on below it.  The result is the path and the stack the loop leaves,
with the next state and its path. -/
def peekLoop (tr : Trie) : List Nibble → List nodeIteratorState →
    Option (List Nibble × List nodeIteratorState ×
      Except IterError (nodeIteratorState × List Nibble))
  | path, [] => some (path, [], .error .iteratorEnd)
  | path, parent :: rest =>
    let ancestor := if parent.hash = Hash.zero then parent.parent else parent.hash
    match nextChild path parent ancestor with
    | some (state, cpath, parent) =>
      (state.resolve tr cpath).map fun r =>
        (path, parent :: rest, (r.mapError .resolve).map fun state => (state, cpath))
    -- no more child nodes, move back up
    | none => peekLoop tr (path.take parent.pathlen) rest

/-- {lit}`peek`: the next state, whether the push moves its parent frame's index on,
and its path; the iterator keeps the frames the walk popped.  The first peek hashes
the trie, which caches the hashes in its nodes, and starts at the root. -/
def peek (sha : Bytes → Hash) (it : nodeIterator) (descend : Bool) :
    Option (nodeIterator × Except IterError (nodeIteratorState × Bool × List Nibble)) := do
  let tr ← it.trie
  match it.stack with
  | [] =>
    -- initialize the iterator if we've just started
    let (root, tr) ← tr.Hash sha
    let state : nodeIteratorState :=
      ⟨if root ≠ emptyRoot then root else Hash.zero, tr.root, Hash.zero, -1, 0⟩
    let r ← state.resolve tr []
    pure ({ it with trie := some tr }, (r.mapError .resolve).map fun state => (state, false, []))
  | top :: rest =>
    -- if we're skipping children, pop the current node first
    let (path, stack) :=
      if descend then (it.path, top :: rest) else (it.path.take top.pathlen, rest)
    let (path, stack, r) ← peekLoop tr path stack
    pure ({ it with path := path, stack := stack }, r.map fun (state, p) => (state, true, p))

/-- {lit}`push`: the state becomes the current node, and its parent frame moves on to
the next child. -/
def push (it : nodeIterator) (state : nodeIteratorState) (parentIndex : Bool)
    (path : List Nibble) : nodeIterator :=
  { it with
    path := path
    stack := state ::
      if parentIndex then it.stack.modifyHead fun p => { p with index := p.index + 1 }
      else it.stack }

/-- The loop of {lit}`seek`: move forward while the next node's path is before the key,
descending only into nodes whose path the key extends. -/
def seekLoop (sha : Bytes → Hash) (key : List Nibble) (pfx : Bytes) :
    Nat → nodeIterator → Option (nodeIterator × Option IterError)
  | 0, _ => none
  | fuel + 1, it => do
    let (it, r) ← it.peek sha (it.path.isPrefixOf key)
    match r with
    | .error .iteratorEnd => pure (it, some .iteratorEnd)
    | .error (.resolve e) | .error (.seekError _ e) => pure (it, some (.seekError pfx e))
    | .ok (state, parentIndex, path) =>
      -- bytes.Compare(path, key) >= 0
      if ¬path < key then pure (it, none)
      else seekLoop sha key pfx fuel (it.push state parentIndex path)

/-- {lit}`seek`: the path looked for is the hex key without the terminator. -/
def seek (sha : Bytes → Hash) (it : nodeIterator) (pfx : Bytes) (fuel : Nat) :
    Option (nodeIterator × Option IterError) :=
  seekLoop sha (keybytesToHex pfx).dropLast pfx fuel it

/-- The end of {lit}`Next`: step forward, and keep any error. -/
def stepForward (sha : Bytes → Hash) (it : nodeIterator) (descend : Bool) :
    Option (Bool × nodeIterator) := do
  let (it, r) ← it.peek sha descend
  match r with
  | .error e => pure (false, { it with err := some e })
  | .ok (state, parentIndex, path) => pure (true, { it.push state parentIndex path with err := none })

/-- {lit}`Next`: move to the next node; false at the end and on an error.  A seek that
failed is made again first. -/
def Next (sha : Bytes → Hash) (it : nodeIterator) (descend : Bool) (fuel : Nat) :
    Option (Bool × nodeIterator) := do
  match it.err with
  | some .iteratorEnd => pure (false, it)
  | some (.seekError key _) =>
    let (it, err) ← it.seek sha key fuel
    match err with
    | some e => pure (false, { it with err := some e })
    | none => stepForward sha { it with err := none } descend
  | _ => stepForward sha it descend

/-- {lit}`Leaf`: the path ends with the terminator. -/
def Leaf (it : nodeIterator) : Bool := hasTerm it.path

/-- {lit}`LeafKey`: the key of the value node the iterator is at; anywhere else it
panics, and so does a path of an odd number of nibbles. -/
def LeafKey (it : nodeIterator) : Option Bytes :=
  match it.stack with
  | top :: _ =>
    match top.node with
    | .value _ => hexToKeybytes it.path
    | _ => none
  | [] => none

/-- {lit}`LeafBlob`: the value of the value node the iterator is at. -/
def LeafBlob (it : nodeIterator) : Option Bytes :=
  match it.stack with
  | top :: _ =>
    match top.node with
    | .value v => some v
    | _ => none
  | [] => none

/-- {lit}`Error`: none at the end of the iteration, the error of a failed seek, else
the error kept. -/
def Error (it : nodeIterator) : Option TrieError :=
  match it.err with
  | some .iteratorEnd => none
  | some (.seekError _ e) => some e
  | some (.resolve e) => some e
  | none => none

end nodeIterator

/-- {lit}`newNodeIterator`: a trie whose root hash is {lit}`emptyState` gets an empty
iterator; any other is hashed and seeks its start. -/
def newNodeIterator (sha : Bytes → Hash) (tr : Trie) (start : Bytes) (fuel : Nat) :
    Option nodeIterator := do
  let (root, tr) ← tr.Hash sha
  if root = emptyState sha then pure ⟨none, [], [], none⟩
  else
    let (it, err) ← (nodeIterator.mk (some tr) [] [] none).seek sha start fuel
    pure { it with err := err }

/-- {lit}`prefixIterator`. -/
structure prefixIterator where
  /-- the hex prefix, without the terminator -/
  pfx : List Nibble
  /-- nil in the iterator of a trie whose root hash is {lit}`emptyState` -/
  nodeIterator : Option nodeIterator

/-- {lit}`newPrefixIterator`: a node iterator that seeks the prefix. -/
def newPrefixIterator (sha : Bytes → Hash) (tr : Trie) (pfx : Bytes) (fuel : Nat) :
    Option prefixIterator := do
  let (root, tr) ← tr.Hash sha
  if root = emptyState sha then pure ⟨[], none⟩
  else
    -- the node iterator converts the prefix to hex
    let nodeIt ← newNodeIterator sha tr pfx fuel
    pure ⟨(keybytesToHex pfx).dropLast, some nodeIt⟩

namespace prefixIterator

/-- {lit}`hasPrefix`: the node iterator's path has the prefix. -/
def hasPrefix (it : prefixIterator) : Option Bool :=
  it.nodeIterator.map fun n => it.pfx.isPrefixOf n.path

/-- {lit}`Next`: the node iterator's next node, if it has the prefix. -/
def Next (sha : Bytes → Hash) (it : prefixIterator) (descend : Bool) (fuel : Nat) :
    Option (Bool × prefixIterator) := do
  let nodeIt ← it.nodeIterator
  let (ok, nodeIt) ← nodeIt.Next sha descend fuel
  pure (ok && it.pfx.isPrefixOf nodeIt.path, { it with nodeIterator := some nodeIt })

/-- {lit}`Leaf`. -/
def Leaf (it : prefixIterator) : Option Bool := do
  let n ← it.nodeIterator
  pure (it.pfx.isPrefixOf n.path && n.Leaf)

/-- {lit}`LeafKey`: nil outside the prefix. -/
def LeafKey (it : prefixIterator) : Option Bytes := do
  let n ← it.nodeIterator
  if it.pfx.isPrefixOf n.path then n.LeafKey else pure []

/-- {lit}`LeafBlob`: nil outside the prefix. -/
def LeafBlob (it : prefixIterator) : Option Bytes := do
  let n ← it.nodeIterator
  if it.pfx.isPrefixOf n.path then n.LeafBlob else pure []

/-- {lit}`Error`. -/
def Error (it : prefixIterator) : Option (Option TrieError) :=
  it.nodeIterator.map nodeIterator.Error

end prefixIterator

/-- The {lit}`NodeIterator` interface, at the two iterators a trie makes. -/
inductive NodeIterator where
  | node (it : nodeIterator)
  | pfx (it : prefixIterator)

namespace NodeIterator

/-- {lit}`Next` of the interface. -/
def Next (sha : Bytes → Hash) : NodeIterator → Bool → Nat → Option (Bool × NodeIterator)
  | .node it, descend, fuel => (it.Next sha descend fuel).map fun r => (r.1, .node r.2)
  | .pfx it, descend, fuel => (it.Next sha descend fuel).map fun r => (r.1, .pfx r.2)

/-- {lit}`Leaf` of the interface. -/
def Leaf : NodeIterator → Option Bool
  | .node it => some it.Leaf
  | .pfx it => it.Leaf

/-- {lit}`LeafKey` of the interface. -/
def LeafKey : NodeIterator → Option Bytes
  | .node it => it.LeafKey
  | .pfx it => it.LeafKey

/-- {lit}`LeafBlob` of the interface. -/
def LeafBlob : NodeIterator → Option Bytes
  | .node it => it.LeafBlob
  | .pfx it => it.LeafBlob

/-- {lit}`Error` of the interface. -/
def Error : NodeIterator → Option (Option TrieError)
  | .node it => some it.Error
  | .pfx it => it.Error

end NodeIterator

/-- {lit}`Iterator`: a key-value iterator over a node iterator. -/
structure Iterator where
  nodeIt : NodeIterator
  Key : Bytes
  Value : Bytes
  Err : Option TrieError

/-- {lit}`NewIterator`. -/
def NewIterator (it : NodeIterator) : Iterator := ⟨it, [], [], none⟩

/-- {lit}`Iterator.Next`: move to the next leaf and take its key and value; at the end
the key and the value are nil and the error is the node iterator's.  The fuel bounds
the nodes passed over, and each seek that is made again. -/
def Iterator.Next (sha : Bytes → Hash) : Nat → Iterator → Option (Bool × Iterator)
  | 0, _ => none
  | fuel + 1, it => do
    let (ok, nodeIt) ← it.nodeIt.Next sha true fuel
    let it := { it with nodeIt := nodeIt }
    if ok then
      if (← nodeIt.Leaf) then
        let key ← nodeIt.LeafKey
        let value ← nodeIt.LeafBlob
        pure (true, { it with Key := key, Value := value })
      else Iterator.Next sha fuel it
    else
      let err ← nodeIt.Error
      pure (false, { it with Key := [], Value := [], Err := err })

/-- {lit}`Trie.NodeIterator`: the iteration starts at the prefixed start key. -/
def Trie.NodeIterator (sha : Bytes → Uranus.Hash) (t : Trie) (start : Bytes) (fuel : Nat) :
    Option Uranus.Mtp.NodeIterator :=
  (newNodeIterator sha t (t.keyPrefix ++ start) fuel).map .node

/-- {lit}`Trie.PrefixIterator`: the iteration over the nodes under the prefixed
prefix. -/
def Trie.PrefixIterator (sha : Bytes → Uranus.Hash) (t : Trie) (pfx : Bytes) (fuel : Nat) :
    Option Uranus.Mtp.NodeIterator :=
  (newPrefixIterator sha t (t.keyPrefix ++ pfx) fuel).map .pfx

end Mtp
end Uranus
