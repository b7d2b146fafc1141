import Uranus.Mtp.Node
import Uranus.Rlp.Raw

/-!
# Node decoding (`common/mtp/node.go`)

{lit}`decodeNode` reads the database encoding of a full or short node.  A list of
two elements is a short node whose first element is its compact key; a list of
seventeen is a full node.  Children are references: an empty string for nil, a
32-byte string for a hash node, or an embedded list for a node whose encoding is
shorter than a hash, decoded in place.

The Go functions {lit}`decodeShort`, {lit}`decodeFull` and {lit}`decodeRef` call
each other and {lit}`decodeNode` on ever shorter byte strings.  Here
{lit}`decodeShort`, {lit}`decodeFull` and {lit}`decodeRef` take the decoder of
embedded nodes as an argument, and {lit}`decodeNode` ties the knot with a fuel
argument that starts above the length of the input, so that the model is
structurally recursive and can be evaluated.

Main results:

- Definition {lit}`decodeNode`: the decoder, with the Go error values as
  constructors of {lit}`DecodeFailure`.
-/

namespace Uranus
namespace Mtp

open Rlp

/-- What went wrong while decoding a node. -/
inductive DecodeFailure where
  /-- {lit}`io.ErrUnexpectedEOF`: the input is empty -/
  | ErrUnexpectedEOF
  /-- {lit}`"decode error: %v"`: the input is not a list -/
  | decodeError (e : Rlp.Error)
  /-- a raw split error returned as it is -/
  | rlp (e : Rlp.Error)
  /-- {lit}`"invalid value node: %v"` -/
  | invalidValueNode (e : Rlp.Error)
  /-- {lit}`"invalid number of list elements: %v"` -/
  | invalidElemCount (c : Nat)
  /-- {lit}`"oversized embedded node (size is %d bytes, want size < %d)"` -/
  | oversizedEmbedded (size : Nat)
  /-- {lit}`"invalid RLP string size %d (want 0 or 32)"` -/
  | invalidStringSize (size : Nat)
  /-- the Go code indexes an empty slice and panics -/
  | panic
  /-- the fuel ran out, which the input length rules out -/
  | outOfFuel
deriving DecidableEq, Repr

/-- {lit}`decodeError`: a failure and the path of node positions it was found under. -/
structure DecodeError where
  what : DecodeFailure
  stack : List String
deriving DecidableEq, Repr

/-- An error found at the node being decoded, before any wrapping. -/
def DecodeError.fail (what : DecodeFailure) : DecodeError := ⟨what, []⟩

/-- {lit}`wrapError`: record the position an error came from.  A panic is not an
error value and unwinds without being wrapped. -/
def wrapError (ctx : String) (e : DecodeError) : DecodeError :=
  if e.what = .panic then e else { e with stack := e.stack ++ [ctx] }

/-- {lit}`decodeRef`, given the decoder of embedded nodes.  It returns the child and
the bytes after its reference. -/
def decodeRefWith (decodeEmbedded : Bytes → Except DecodeError Node) (buf : Bytes) :
    Except DecodeError (Node × Bytes) :=
  match Split buf with
  | .error e => .error (.fail (.rlp e))
  | .ok (kind, val, rest) =>
    if kind = .List then
      -- an embedded node reference; its encoding must be smaller than a hash
      let size := buf.length - rest.length
      if 32 < size then .error (.fail (.oversizedEmbedded size))
      else (decodeEmbedded buf).map fun n => (n, rest)
    else if kind = .String ∧ val.length = 0 then .ok (.nil, rest)
    else if h : kind = .String ∧ val.length = 32 then .ok (.hash ⟨val, h.2⟩, rest)
    else .error (.fail (.invalidStringSize val.length))

/-- {lit}`decodeShort`, given the reference decoder: a compact key and either a
value, when the key is terminated, or a reference. -/
def decodeShortWith (ref : Bytes → Except DecodeError (Node × Bytes)) (hash : Option Hash)
    (elems : Bytes) (cachegen : UInt16) : Except DecodeError Node :=
  match SplitString elems with
  | .error e => .error (.fail (.rlp e))
  | .ok (kbuf, rest) =>
    let flag : NodeFlag := ⟨hash, cachegen, false⟩
    match compactToHex kbuf with
    | none => .error (.fail .panic)
    | some key =>
      if hasTerm key then
        match SplitString rest with
        | .error e => .error (.fail (.invalidValueNode e))
        | .ok (val, _) => .ok (.short key (.value val) flag)
      else
        match ref rest with
        | .error e => .error (wrapError "val" e)
        | .ok (r, _) => .ok (.short key r flag)

/-- The loop of {lit}`decodeFull`: the references of children {lit}`i, i+1, …`, and
the bytes after them. -/
def decodeChildren (ref : Bytes → Except DecodeError (Node × Bytes)) :
    Nat → Nat → Bytes → Except DecodeError (List Node × Bytes)
  | 0, _, elems => .ok ([], elems)
  | count + 1, i, elems =>
    match ref elems with
    | .error e => .error (wrapError ("[" ++ toString i ++ "]") e)
    | .ok (cld, rest) =>
      (decodeChildren ref count (i + 1) rest).map fun (cs, rest') => (cld :: cs, rest')

/-- The seventeen children of a decoded full node: sixteen references and the value
slot, which stays nil for an empty string. -/
def fullChildren (cs : List Node) (val : Bytes) : Fin 17 → Node := fun i =>
  if i.val < 16 then cs.getD i.val .nil
  else if val.length > 0 then .value val else .nil

/-- {lit}`decodeFull`, given the reference decoder. -/
def decodeFullWith (ref : Bytes → Except DecodeError (Node × Bytes)) (hash : Option Hash)
    (elems : Bytes) (cachegen : UInt16) : Except DecodeError Node :=
  match decodeChildren ref 16 0 elems with
  | .error e => .error e
  | .ok (cs, rest) =>
    match SplitString rest with
    | .error e => .error (.fail (.rlp e))
    | .ok (val, _) => .ok (.full (fullChildren cs val) ⟨hash, cachegen, false⟩)

/-- {lit}`decodeNode` with an explicit bound on the nesting of embedded nodes. -/
def decodeNodeFuel : Nat → Option Hash → Bytes → UInt16 → Except DecodeError Node
  | 0, _, _, _ => .error (.fail .outOfFuel)
  | fuel + 1, hash, buf, cachegen =>
    if buf = [] then .error (.fail .ErrUnexpectedEOF)
    else
      match SplitList buf with
      | .error e => .error (.fail (.decodeError e))
      | .ok (elems, _) =>
        let ref := decodeRefWith (fun b => decodeNodeFuel fuel none b cachegen)
        -- an error of CountValues counts zero elements
        match (CountValues elems).toOption.getD 0 with
        | 2 => (decodeShortWith ref hash elems cachegen).mapError (wrapError "short")
        | 17 => (decodeFullWith ref hash elems cachegen).mapError (wrapError "full")
        | c => .error (.fail (.invalidElemCount c))

/-- {lit}`decodeNode`: parse the RLP encoding of a trie node.  Every embedded node
is decoded from a strict suffix of the input, so fuel one above its length never
runs out. -/
def decodeNode (hash : Option Hash) (buf : Bytes) (cachegen : UInt16) :
    Except DecodeError Node :=
  decodeNodeFuel (buf.length + 1) hash buf cachegen

/-- {lit}`decodeRef` with the real decoder of embedded nodes. -/
def decodeRef (buf : Bytes) (cachegen : UInt16) : Except DecodeError (Node × Bytes) :=
  decodeRefWith (fun b => decodeNode none b cachegen) buf

/-! ## Shape of decoded nodes -/

/-- A short node that decodes is inner. -/
theorem decodeShortWith_ok {ref : Bytes → Except DecodeError (Node × Bytes)} {hash : Option Hash}
    {elems : Bytes} {cachegen : UInt16} {n : Node}
    (h : decodeShortWith ref hash elems cachegen = .ok n) : n.isInner = true := by
  unfold decodeShortWith at h
  split at h
  · cases h
  · split at h
    · cases h
    · split at h
      · split at h
        · cases h
        · cases h
          rfl
      · split at h
        · cases h
        · cases h
          rfl

/-- A full node that decodes is inner. -/
theorem decodeFullWith_ok {ref : Bytes → Except DecodeError (Node × Bytes)} {hash : Option Hash}
    {elems : Bytes} {cachegen : UInt16} {n : Node}
    (h : decodeFullWith ref hash elems cachegen = .ok n) : n.isInner = true := by
  unfold decodeFullWith at h
  split at h
  · cases h
  · split at h
    · cases h
    · cases h
      rfl

/-- Wrapping an error keeps a success as it is. -/
theorem eq_ok_of_mapError {x : Except DecodeError Node} {f : DecodeError → DecodeError}
    {n : Node} (h : x.mapError f = .ok n) : x = .ok n := by
  cases x with
  | error e => cases h
  | ok a =>
    cases h
    rfl

/-- The decoder only ever returns short and full nodes. -/
theorem decodeNode_isInner {hash : Option Hash} {buf : Bytes} {cachegen : UInt16} {n : Node}
    (h : decodeNode hash buf cachegen = .ok n) : n.isInner = true := by
  unfold decodeNode at h
  cases hf : buf.length + 1 with
  | zero => omega
  | succ fuel =>
    rw [hf] at h
    unfold decodeNodeFuel at h
    split at h
    · cases h
    · split at h
      · cases h
      · split at h
        · exact decodeShortWith_ok (eq_ok_of_mapError h)
        · exact decodeFullWith_ok (eq_ok_of_mapError h)
        · cases h

end Mtp
end Uranus
