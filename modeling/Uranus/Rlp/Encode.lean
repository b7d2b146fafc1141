import Uranus.Utils.Types

/-!
# RLP encoding (`common/rlp/encode.go`)

The Go encoder walks a value by reflection and writes strings into a buffer,
patching in list headers once their sizes are known.  Whatever the Go type, the
bytes it produces are those of an RLP item tree: a byte string gets a string
header (or none, for one byte below {lit}`0x80`), and a list gets a list header
in front of the concatenated encodings of its elements.  This module models that
tree and its encoding; a Go value is encoded by first mapping it to its item.

Main results:

- Definition {lit}`Item.encode`: the bytes {lit}`encbuf.toBytes` produces.
- Definition {lit}`putint`: sizes are written big-endian in the fewest bytes.
-/

namespace Uranus
namespace Rlp

/-- An RLP value: a byte string or a list of values. -/
inductive Item where
  | str (b : Bytes)
  | list (items : List Item)
deriving Repr

/-- {lit}`intsize`: the number of bytes of a {lit}`uint64` without its leading zero
bytes, at least one.  The Go loop shifts by a byte until nothing is left, which
takes at most eight rounds for a {lit}`uint64`. -/
def intsize (i : Nat) : Nat := go 8 i 1
where
  go : Nat → Nat → Nat → Nat
    | 0, _, size => size
    | fuel + 1, i, size => if i / 256 = 0 then size else go fuel (i / 256) (size + 1)

/-- {lit}`putint`: the big-endian bytes of a size, without leading zero bytes. -/
def putint (i : Nat) : Bytes :=
  (List.range (intsize i)).reverse.map fun k => (i / 256 ^ k % 256).toUInt8

/-- {lit}`puthead`: a one-byte header for sizes below 56, else a tag counting the
size bytes followed by the size. -/
def puthead (smalltag largetag : UInt8) (size : Nat) : Bytes :=
  if size < 56 then [smalltag + size.toUInt8]
  else (largetag + (putint size).length.toUInt8) :: putint size

/-- {lit}`encbuf.encodeString`: a single byte below {lit}`0x80` is its own encoding,
every other string gets a string header. -/
def encodeString (b : Bytes) : Bytes :=
  match b with
  | [x] => if x ≤ 0x7F then [x] else puthead 0x80 0xB7 1 ++ b
  | _ => puthead 0x80 0xB7 b.length ++ b

mutual
/-- The RLP encoding of an item. -/
def Item.encode : Item → Bytes
  | .str b => encodeString b
  | .list items =>
    let content := Item.encodeAll items
    puthead 0xC0 0xF7 content.length ++ content

/-- The concatenated encodings of a list of items. -/
def Item.encodeAll : List Item → Bytes
  | [] => []
  | item :: items => item.encode ++ Item.encodeAll items
end

/-- A string item encodes as {lit}`encodeString`. -/
@[simp]
theorem Item.encode_str (b : Bytes) : (Item.str b).encode = encodeString b := by
  simp [Item.encode]

/-- A list item encodes as a list header over its items' encodings. -/
@[simp]
theorem Item.encode_list (items : List Item) :
    (Item.list items).encode =
      puthead 0xC0 0xF7 (Item.encodeAll items).length ++ Item.encodeAll items := by
  simp [Item.encode]

/-- No items encode to no bytes. -/
@[simp]
theorem Item.encodeAll_nil : Item.encodeAll [] = [] := by simp [Item.encodeAll]

/-- Items encode one after another. -/
@[simp]
theorem Item.encodeAll_cons (item : Item) (items : List Item) :
    Item.encodeAll (item :: items) = item.encode ++ Item.encodeAll items := by
  simp [Item.encodeAll]

/-- {lit}`putint` writes {lit}`intsize` bytes. -/
theorem length_putint (i : Nat) : (putint i).length = intsize i := by
  simp [putint]

/-- The loop of {lit}`intsize` adds at most one per round. -/
theorem intsize_go_le (fuel i size : Nat) : intsize.go fuel i size ≤ fuel + size := by
  induction fuel generalizing i size with
  | zero => simp [intsize.go]
  | succ fuel ih =>
    simp only [intsize.go]
    split
    · omega
    · have := ih (i / 256) (size + 1)
      omega

/-- A size is written in at most eight bytes. -/
theorem intsize_le (i : Nat) : intsize i ≤ 9 := by
  have := intsize_go_le 8 i 1
  simpa [intsize] using this

end Rlp
end Uranus
