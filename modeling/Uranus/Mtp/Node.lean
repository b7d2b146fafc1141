import Uranus.Mtp.Encoding

/-!
# Trie nodes (`common/mtp/node.go`)

A Merkle-Patricia trie is built from five kinds of node: the empty subtree, full
nodes with seventeen children (one per nibble and one for the terminator),
short nodes holding a key fragment and one child, hash nodes standing for a
subtree stored in the database under its hash, and value nodes holding the
stored bytes.  Full and short nodes carry a cache flag with their last computed
hash, the cache generation that touched them and whether they still have to be
written out.

The seventeen children are a function from {lean}`Fin 17`, the Go
{lit}`[17]node` array.  A hash node holds a {name}`Hash`: every hash node the Go
code builds has 32 bytes.

Main results:

- Definitions {lit}`NodeFlag.canUnload` and {lit}`Node.cache`: the flag queries
  the hasher makes.
- Definition {lit}`Node.nonNilCount`: the number of children a full node keeps,
  which the structural invariant bounds from below.
-/

namespace Uranus
namespace Mtp

/-- {lit}`nodeFlag`: caching metadata of a full or short node. -/
structure NodeFlag where
  /-- cached hash of the node (may be nil) -/
  hash : Option Hash
  /-- cache generation counter -/
  gen : UInt16
  /-- whether the node has changes that must be written to the database -/
  dirty : Bool
deriving DecidableEq

/-- A trie node.  {lit}`nil` is the nil {lit}`node` interface. -/
inductive Node where
  | nil
  | full (children : Fin 17 → Node) (flags : NodeFlag)
  | short (key : List Nibble) (val : Node) (flags : NodeFlag)
  | hash (h : Hash)
  | value (v : Bytes)

/-- {lit}`nodeFlag.canUnload`: a clean node may be unloaded once its generation is
{lit}`cachelimit` generations old, in wrapping {lit}`uint16` arithmetic. -/
def NodeFlag.canUnload (f : NodeFlag) (cachegen cachelimit : UInt16) : Bool :=
  !f.dirty && cachegen - f.gen ≥ cachelimit

example : NodeFlag.canUnload ⟨none, 65534, false⟩ 0 1 = true := by decide
example : NodeFlag.canUnload ⟨none, 0, true⟩ 0 0 = false := by decide

/-- {lit}`node.cache`: the cached hash and the dirty bit.  Hash and value nodes
report no hash and a set dirty bit. -/
def Node.cache : Node → Option Hash × Bool
  | .full _ f => (f.hash, f.dirty)
  | .short _ _ f => (f.hash, f.dirty)
  | _ => (none, true)

/-- {lit}`node.canUnload`; hash and value nodes are never unloaded. -/
def Node.canUnload (n : Node) (cachegen cachelimit : UInt16) : Bool :=
  match n with
  | .full _ f => f.canUnload cachegen cachelimit
  | .short _ _ f => f.canUnload cachegen cachelimit
  | _ => false

/-- Whether a node is the nil interface. -/
def Node.isNil : Node → Bool
  | .nil => true
  | _ => false

/-- Whether a node is a full or a short node: the kinds that are stored in the
database and carry flags. -/
def Node.isInner : Node → Bool
  | .full _ _ => true
  | .short _ _ _ => true
  | _ => false

/-- Whether a node is a hash node. -/
def Node.isHash : Node → Bool
  | .hash _ => true
  | _ => false

/-- An inner node is not nil. -/
theorem Node.isNil_eq_false_of_isInner {n : Node} (h : n.isInner = true) : n.isNil = false := by
  cases n <;> simp_all [Node.isInner, Node.isNil]

/-- An inner node is no hash node. -/
theorem Node.isHash_eq_false_of_isInner {n : Node} (h : n.isInner = true) : n.isHash = false := by
  cases n <;> simp_all [Node.isInner, Node.isHash]

/-- A node that tests nil is nil. -/
theorem Node.eq_nil_of_isNil {n : Node} (h : n.isNil = true) : n = .nil := by
  cases n <;> simp_all [Node.isNil]

/-- A node that tests as a hash node is one. -/
theorem Node.eq_hash_of_isHash {n : Node} (h : n.isHash = true) : ∃ x, n = .hash x := by
  cases n <;> simp_all [Node.isHash]

/-- A node that is neither nil nor a value is a full, short or hash node. -/
theorem Node.isInner_or_isHash {n : Node} (hnil : n.isNil = false) (hnv : ∀ v, n ≠ .value v) :
    n.isInner = true ∨ n.isHash = true := by
  cases n with
  | nil => cases hnil
  | value v => exact absurd rfl (hnv v)
  | hash x => exact .inr rfl
  | short _ _ _ => exact .inl rfl
  | full _ _ => exact .inl rfl

/-- The indices of a full node's children that are not nil, in increasing order. -/
def nonNilIndices (children : Fin 17 → Node) : List (Fin 17) :=
  (List.finRange 17).filter fun i => !(children i).isNil

/-- The indices of the non-nil children are those whose child is not nil. -/
@[simp]
theorem mem_nonNilIndices (children : Fin 17 → Node) (i : Fin 17) :
    i ∈ nonNilIndices children ↔ (children i).isNil = false := by
  simp [nonNilIndices]

/-- Each index of a non-nil child is listed once. -/
theorem nodup_nonNilIndices (children : Fin 17 → Node) : (nonNilIndices children).Nodup :=
  (List.nodup_finRange 17).filter _

/-- The number of non-nil children of a full node. -/
def Node.nonNilCount (children : Fin 17 → Node) : Nat := (nonNilIndices children).length

/-- Replace one child of a full node, as {lit}`n.Children[i] = c` does on a copy. -/
def setChild (children : Fin 17 → Node) (i : Fin 17) (c : Node) : Fin 17 → Node :=
  Function.update children i c

/-- A child reads back what was set. -/
@[simp]
theorem setChild_same (children : Fin 17 → Node) (i : Fin 17) (c : Node) :
    setChild children i c i = c := by
  simp [setChild]

/-- Setting a child leaves the others. -/
@[simp]
theorem setChild_ne (children : Fin 17 → Node) {i j : Fin 17} (c : Node) (h : j ≠ i) :
    setChild children i c j = children j := by
  simp [setChild, h]

/-- The children of a fresh {lit}`fullNode{}`: all nil. -/
def emptyChildren : Fin 17 → Node := fun _ => .nil

end Mtp
end Uranus
