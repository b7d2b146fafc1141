import Uranus.Mtp.Canonical

/-!
# The collapsed form of a node

What the hasher computes for a node is determined by the node alone: its
collapsed form, where every child is referenced by its hash when its own
collapsed encoding is at least 32 bytes long and embedded otherwise.  This module
defines that form, {lit}`Node.collapse`, and the node {lit}`decodeNode` reads back
from its encoding, {lit}`Node.decoded`: the same node with the large children
replaced by hash nodes and fresh flags everywhere.

Both are specifications: the hasher reaches the collapsed form through cached
hashes, and the module {lit}`NodeCodec` proves that decoding the encoding gives
{lit}`Node.decoded`.

Main results:

- Definitions {lit}`Node.collapse` and {lit}`Node.ref`: the collapsed form of a
  node and how a parent references it.
- Definition {lit}`Node.decoded`: the node read back from the encoding.
- Definition {lit}`Node.Stored`: the blobs of the large subnodes are related to
  their hashes.
- Theorem {lit}`collapse_decoded`: the decoded form collapses as the node does.
-/

namespace Uranus
namespace Mtp

open Rlp

variable (sha : Bytes → Hash)

/-- How a child appears in its parent's encoding, given its collapsed form: a hash
node by its hash, a node whose collapsed encoding is shorter than a hash in place,
any other node by the hash of its encoding.  This is {lit}`store` without
{lit}`force`. -/
def refOf (n : Node) (c : Collapsed) : Collapsed :=
  match n with
  | .hash h => .hash h
  | _ => if c.encode.length < 32 then c else .hash (sha c.encode)

/-- The collapsed form of a node, as {lit}`hashChildren` builds it when no hash is
cached: compact keys, a value under a short node kept as it is, nil children of a
full node as empty strings, and every other child referenced by {lit}`refOf`. -/
def Node.collapse : Node → Collapsed
  | .nil => .empty
  | .value v => .value v
  | .hash h => .hash h
  | .short key val _ =>
    .short (hexToCompact key) (match val with
      | .value v => .value v
      | _ => refOf sha val (Node.collapse val))
  | .full cs _ => .full fun i =>
      if i.val < 16 then
        if (cs i).isNil then .empty else refOf sha (cs i) (Node.collapse (cs i))
      else Collapsed.ofValueSlot (cs i)

/-- The reference to a node from its parent. -/
def Node.ref (n : Node) : Collapsed := refOf sha n (n.collapse sha)

/-- The blob of an inner node: the encoding of its collapsed form. -/
def Node.blob (n : Node) : Bytes := (n.collapse sha).encode

/-- The hash that stands for a trie with this root: the empty root for nil, a hash
node's own hash, and otherwise the hash of the node's blob, as {lit}`hashRoot`
hashes the root with {lit}`force`. -/
def Node.rootHash : Node → Hash
  | .nil => emptyRoot
  | .hash h => h
  | n => sha (n.blob sha)

/-- The child {lit}`decodeNode` reads back in place of {lit}`n`, given what decoding
{lit}`n`'s own encoding gives: nil, hash and value nodes stay, an embedded node is
read back, a large node becomes the hash node of its blob. -/
def decodedChild (n d : Node) : Node :=
  match n with
  | .nil => .nil
  | .hash h => .hash h
  | .value v => .value v
  | _ => if (n.blob sha).length < 32 then d else .hash (sha (n.blob sha))

/-- The node {lit}`decodeNode hash` reads back from a node's blob: its children
through {lit}`decodedChild`, and every node read with the flags of a fresh decode,
which carry {lit}`hash` at the top and nothing below. -/
def Node.decoded (g : UInt16) : Option Hash → Node → Node
  | hopt, .short key val _ =>
    .short key (decodedChild sha val (Node.decoded g none val)) ⟨hopt, g, false⟩
  | hopt, .full cs _ =>
    .full (fun i => if i.val < 16 then decodedChild sha (cs i) (Node.decoded g none (cs i))
      else cs i) ⟨hopt, g, false⟩
  | _, n => n

section Stored

variable (S : Hash → Bytes → Prop)

/-- The blob of a node the hasher replaces by its hash is related to that hash and
fits Go's sizes. -/
def BigStored (n : Node) : Prop :=
  32 ≤ (n.blob sha).length → S (sha (n.blob sha)) (n.blob sha) ∧ (n.blob sha).length < 256 ^ 8

/-- {lit}`BigStored` for every inner node down to the hash nodes. -/
def Node.Stored : Node → Prop
  | .short key val f => BigStored sha S (.short key val f) ∧ Node.Stored val
  | .full cs f => BigStored sha S (.full cs f) ∧ ∀ i, Node.Stored (cs i)
  | _ => True

variable [∀ h e, Decidable (S h e)]

instance BigStored.decidable (n : Node) : Decidable (BigStored sha S n) :=
  inferInstanceAs (Decidable (_ → _ ∧ _))

/-- {lit}`Node.Stored` is decided node by node, so it can be checked on a given trie. -/
instance Node.decidableStored : ∀ n : Node, Decidable (n.Stored sha S)
  | .short key val f =>
    haveI := Node.decidableStored val
    inferInstanceAs (Decidable (BigStored sha S (.short key val f) ∧ val.Stored sha S))
  | .full cs f =>
    haveI : ∀ i, Decidable ((cs i).Stored sha S) := fun i => Node.decidableStored (cs i)
    inferInstanceAs (Decidable (BigStored sha S (.full cs f) ∧ ∀ i, (cs i).Stored sha S))
  | .nil => isTrue trivial
  | .hash _ => isTrue trivial
  | .value _ => isTrue trivial

end Stored

/-! ## Unfolding -/

/-- A hash node is referenced by its hash. -/
theorem ref_hash (h : Hash) : (Node.hash h).ref sha = .hash h := rfl

/-- A nil child is an empty string, which is short enough to stay in place. -/
theorem ref_nil : Node.nil.ref sha = .empty := rfl

/-- The child of a short node in the collapsed form: a value as it is, any other node
by its reference. -/
def shortRef (c : Node) : Collapsed :=
  match c with
  | .value v => .value v
  | _ => c.ref sha

/-- A short node's child that is no value is referenced as any child. -/
theorem shortRef_of_ne_value {c : Node} (hc : ∀ v, c ≠ .value v) : shortRef sha c = c.ref sha := by
  cases c with
  | value v => exact absurd rfl (hc v)
  | _ => rfl

/-- A short node collapses to its compact key over its child's reference. -/
theorem collapse_short (key : List Nibble) (val : Node) (f : NodeFlag) :
    (Node.short key val f).collapse sha = .short (hexToCompact key) (shortRef sha val) := by
  cases val <;> rfl

/-- The collapsed form of a full node: sixteen references and the value slot. -/
theorem collapse_full (cs : Fin 17 → Node) (f : NodeFlag) :
    (Node.full cs f).collapse sha = .full fun i =>
      if i.val < 16 then (cs i).ref sha else Collapsed.ofValueSlot (cs i) := by
  simp only [Node.collapse]
  congr 1
  funext i
  split
  · cases cs i <;> rfl
  · rfl

/-- An inner node is referenced in place or by the hash of its blob. -/
theorem ref_of_isInner {n : Node} (hn : n.isInner = true) :
    n.ref sha = if (n.blob sha).length < 32 then n.collapse sha else .hash (sha (n.blob sha)) := by
  cases n with
  | short key val f => rfl
  | full cs f => rfl
  | _ => simp [Node.isInner] at hn

/-- The root hash of an inner node is the hash of its blob. -/
theorem rootHash_of_isInner {n : Node} (hn : n.isInner = true) :
    n.rootHash sha = sha (n.blob sha) := by
  cases n with
  | short key val f => rfl
  | full cs f => rfl
  | _ => simp [Node.isInner] at hn

/-- An inner child decodes in place when its blob is short, and as the hash node of its blob otherwise. -/
theorem decodedChild_of_isInner {n : Node} (hn : n.isInner = true) (d : Node) :
    decodedChild sha n d = if (n.blob sha).length < 32 then d else .hash (sha (n.blob sha)) := by
  cases n with
  | short key val f => rfl
  | full cs f => rfl
  | _ => simp [Node.isInner] at hn

/-- Decoding keeps a node inner. -/
theorem decoded_isInner {n : Node} (hn : n.isInner = true) (g : UInt16) (hopt : Option Hash) :
    (n.decoded sha g hopt).isInner = true := by
  cases n <;> simp_all [Node.isInner, Node.decoded]

/-- The collapsed form of an inner node is a list item. -/
theorem toItem_collapse_of_isInner {n : Node} (hn : n.isInner = true) :
    ∃ items, (n.collapse sha).toItem = .list items := by
  cases n with
  | short key val f => exact ⟨_, rfl⟩
  | full cs f => exact ⟨_, rfl⟩
  | _ => simp [Node.isInner] at hn

/-! ## Decoding keeps the collapsed form -/

/-- A child read back from its parent's blob is referenced as the child was, given
that decoding the child keeps its collapsed form: a small child is read back in
place, a large one as the hash of its blob. -/
theorem ref_decodedChild {c : Node} (g : UInt16)
    (hc : (c.decoded sha g none).collapse sha = c.collapse sha) :
    (decodedChild sha c (c.decoded sha g none)).ref sha = c.ref sha := by
  cases hinner : c.isInner with
  | false => cases c <;> simp_all [Node.isInner, decodedChild]
  | true =>
    rw [decodedChild_of_isInner sha hinner, ref_of_isInner sha hinner]
    have hblob : (c.decoded sha g none).blob sha = c.blob sha := by
      unfold Node.blob
      rw [hc]
    split
    · next hsmall =>
      rw [ref_of_isInner sha (decoded_isInner sha hinner g none), hblob, hc, if_pos hsmall]
    · rfl

/-- A short node's child decoded from its reference is referenced alike. -/
theorem shortRef_decodedChild {c : Node} (g : UInt16)
    (hc : (c.decoded sha g none).collapse sha = c.collapse sha) :
    shortRef sha (decodedChild sha c (c.decoded sha g none)) = shortRef sha c := by
  cases c with
  | value v => rfl
  | nil => rfl
  | hash h => rfl
  | short key val f =>
    have hnv : ∀ v, decodedChild sha (.short key val f) ((Node.short key val f).decoded sha g none) ≠
        .value v := by
      intro v
      rw [decodedChild_of_isInner sha rfl]
      split <;> simp [Node.decoded]
    rw [shortRef_of_ne_value sha hnv, shortRef_of_ne_value sha (fun _ h => Node.noConfusion h), ref_decodedChild sha g hc]
  | full cs f =>
    have hnv : ∀ v, decodedChild sha (.full cs f) ((Node.full cs f).decoded sha g none) ≠
        .value v := by
      intro v
      rw [decodedChild_of_isInner sha rfl]
      split <;> simp [Node.decoded]
    rw [shortRef_of_ne_value sha hnv, shortRef_of_ne_value sha (fun _ h => Node.noConfusion h), ref_decodedChild sha g hc]

/-- Decoding a node's blob gives a node of the same collapsed form, whatever the hash
and generation it is decoded with. -/
theorem collapse_decoded (n : Node) (g : UInt16) (hopt : Option Hash) :
    (n.decoded sha g hopt).collapse sha = n.collapse sha := by
  induction n generalizing hopt with
  | short key val f ih =>
    simp only [Node.decoded, collapse_short]
    rw [shortRef_decodedChild sha g (ih none)]
  | full cs f ih =>
    simp only [Node.decoded, collapse_full]
    congr 1
    funext i
    by_cases hi : i.val < 16
    · simp only [if_pos hi]
      exact ref_decodedChild sha g (ih i none)
    · simp only [if_neg hi]
  | nil => rfl
  | hash h => rfl
  | value v => rfl

/-- A decoded node has the blob of the node it was read from. -/
theorem blob_decoded (n : Node) (g : UInt16) (hopt : Option Hash) :
    (n.decoded sha g hopt).blob sha = n.blob sha := by
  unfold Node.blob
  rw [collapse_decoded]

end Mtp
end Uranus
