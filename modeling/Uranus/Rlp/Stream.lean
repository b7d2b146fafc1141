import Uranus.Rlp.Value

/-!
# The decoding stream ({lit}`rlp.Stream`)

The decoder reads its input through a {lit}`Stream`, a state machine over the bytes
left in the reader.  {lit}`Kind` reads the header of the next value once and keeps
its kind, size and error until a read consumes the value: a string's content is
read by {lit}`readFull`, which re-arms the header; a single byte below {lit}`0x80` is
its own header and is taken by whichever call clears the kept kind.  A stack of
list positions bounds every value by the list around it, and at the top level the
input limit bounds it.

The operations are {lit}`EStateM` actions: Go mutates the stream whether a call
fails or not, and the decoders that read to the end of a list go on after the
{lit}`EOL` error with the state it left.  Methods whose Go names are Lean's type
names carry the prefix {lit}`stream`; so do the others, for one naming.

Main results:

- Definitions {lit}`streamKind`, {lit}`streamBytes`, {lit}`streamUint`,
  {lit}`streamBool`, {lit}`streamList` and {lit}`streamListEnd`: the methods the
  decoders call, with their canonicity checks.
-/

namespace Uranus
namespace Rlp

/-- {lit}`listpos`: how far the current list has been read, and its size. -/
structure Listpos where
  pos : Nat
  size : Nat

/-- {lit}`Stream`.  {lit}`input` is what the reader has left; {lit}`kind` is
{lean}`none` where Go keeps {lit}`-1`, no header read ahead; the stack has the
innermost list first.  The auxiliary integer buffer holds nothing between calls and
is left out. -/
structure Stream where
  input : Bytes
  remaining : Nat
  limited : Bool
  kind : Option Kind
  size : Nat
  byteval : UInt8
  kinderr : Option CodecError
  stack : List Listpos

/-- An operation on the stream that may fail, leaving the stream as it stands. -/
abbrev StreamM := EStateM CodecError Stream

/-- {lit}`Reset` for a byte reader with an input limit of its length, as
{lit}`DecodeBytes` sets it up. -/
def Stream.reset (b : Bytes) : Stream :=
  ⟨b, b.length, true, none, 0, 0, none, []⟩

/-- Change the error a failing operation reports. -/
def mapError {α : Type} (f : CodecError → CodecError) (m : StreamM α) : StreamM α := fun s =>
  match m s with
  | .ok a s => .ok a s
  | .error e s => .error (f e) s

/-- The input limit's part of {lit}`willRead`. -/
def checkLimit (n : Nat) : StreamM Unit := fun s =>
  if s.limited then
    if n > s.remaining then .error .ErrValueTooLarge s
    else .ok () { s with remaining := s.remaining - n }
  else .ok () s

/-- {lit}`willRead`: re-arm the header, charge the read to the innermost list, and
check the input limit. -/
def streamWillRead (n : Nat) : StreamM Unit := fun s =>
  let s := { s with kind := none }
  match s.stack with
  | tos :: rest =>
    -- check list overflow
    if n > tos.size - tos.pos then .error .ErrElemTooLarge s
    else checkLimit n { s with stack := ⟨tos.pos + n, tos.size⟩ :: rest }
  | [] => checkLimit n s

/-- {lit}`readByte`; the end of the input is {lit}`io.ErrUnexpectedEOF`. -/
def streamReadByte : StreamM UInt8 := do
  streamWillRead 1
  fun s => match s.input with
    | [] => .error .ErrUnexpectedEOF s
    | b :: rest => .ok b { s with input := rest }

/-- {lit}`readFull`: read exactly {lit}`n` bytes, or fail after taking what is left. -/
def streamReadFull (n : Nat) : StreamM Bytes := do
  streamWillRead n
  fun s =>
    if n ≤ s.input.length then .ok (s.input.take n) { s with input := s.input.drop n }
    else .error .ErrUnexpectedEOF { s with input := [] }

/-- {lit}`readUint`: a big-endian integer of {lit}`size` bytes, at most eight; past
one byte a leading zero is {lit}`ErrCanonSize`. -/
def streamReadUint : Nat → StreamM Nat
  | 0 => fun s => .ok 0 { s with kind := none }
  | 1 => do
    let b ← streamReadByte
    pure b.toNat
  | size => do
    let buf ← streamReadFull size
    if buf.head? = some 0 then throw .ErrCanonSize
    pure (bigEndian buf)

/-- The long-size branch of {lit}`readKind`: a size below 56 should have had the
short form. -/
def readLongSize (k : Kind) (n : Nat) (s : Stream) : (Kind × Nat × Option CodecError) × Stream :=
  match streamReadUint n s with
  | .error e s => ((k, 0, some e), s)
  | .ok size s => ((k, size, if size < 56 then some .ErrCanonSize else none), s)

/-- {lit}`readKind`: the kind and size of the next value, with the error, which the
caller keeps.  At the top level the end of the input is {lit}`io.EOF`. -/
def streamReadKind (s : Stream) : (Kind × Nat × Option CodecError) × Stream :=
  match streamReadByte s with
  | .error err s =>
    let err := match s.stack, err with
      | [], .ErrUnexpectedEOF => .EOF
      | [], .ErrValueTooLarge => .EOF
      | _, e => e
    ((.Byte, 0, some err), s)
  | .ok b s =>
    let s := { s with byteval := 0 }
    if b < 0x80 then ((.Byte, 0, none), { s with byteval := b })
    else if b < 0xB8 then ((.String, (b - 0x80).toNat, none), s)
    else if b < 0xC0 then readLongSize .String (b - 0xB7).toNat s
    else if b < 0xF8 then ((.List, (b - 0xC0).toNat, none), s)
    else readLongSize .List (b - 0xF7).toNat s

/-- The size check {lit}`Kind` adds to a header read without error: against the input
limit at the top level, against the rest of the list inside one. -/
def sizeError (s : Stream) (size : Nat) : Option CodecError :=
  match s.stack with
  | [] => if s.limited ∧ size > s.remaining then some .ErrValueTooLarge else none
  | tos :: _ => if size > tos.size - tos.pos then some .ErrElemTooLarge else none

/-- Read a fresh header and keep it, with its error. -/
def readAhead (s : Stream) : EStateM.Result CodecError Stream (Kind × Nat) :=
  let ((k, size, err), s) := streamReadKind s
  let err := match err with
    | some e => some e
    | none => sizeError s size
  let s := { s with kind := some k, size := size, kinderr := err }
  match err with
  | none => .ok (k, size) s
  | some e => .error e s

/-- {lit}`Kind`: the kept header and its error, or a fresh one; at the end of the
innermost list, {lit}`EOL`. -/
def streamKind : StreamM (Kind × Nat) := fun s =>
  match s.kind with
  | some k =>
    match s.kinderr with
    | none => .ok (k, s.size) s
    | some e => .error e s
  | none =>
    let s := { s with kinderr := none }
    match s.stack with
    | tos :: _ => if tos.pos = tos.size then .error .EOL s else readAhead s
    | [] => readAhead s

/-- Re-arm the header. -/
def rearm : StreamM Unit := fun s => .ok () { s with kind := none }

/-- The kept single byte. -/
def getByteval : StreamM UInt8 := fun s => .ok s.byteval s

/-- {lit}`Bytes`: a single byte, or a string's content; a one-byte string below
{lit}`0x80` is not canonical. -/
def streamBytes : StreamM Bytes := do
  let (kind, size) ← streamKind
  match kind with
  | .Byte =>
    rearm
    let b ← getByteval
    pure [b]
  | .String =>
    let b ← streamReadFull size
    if size = 1 ∧ ∃ x ∈ b.head?, x < 128 then throw .ErrCanonSize
    pure b
  | .List => throw .ErrExpectedString

/-- {lit}`uint`: an integer of at most {lit}`maxbits` bits.  The zero byte is not
canonical and leaves the header kept; so does a string of one byte below 128. -/
def streamUint (maxbits : Nat) : StreamM Nat := do
  let (kind, size) ← streamKind
  match kind with
  | .Byte =>
    let b ← getByteval
    if b = 0 then throw .ErrCanonInt
    rearm
    pure b.toNat
  | .String =>
    if size > maxbits / 8 then throw .errUintOverflow
    -- a leading zero is a non-canonical integer here, not a size
    let v ← mapError (fun e => match e with | .ErrCanonSize => .ErrCanonInt | e => e) (streamReadUint size)
    if size > 0 ∧ v < 128 then throw .ErrCanonSize
    pure v
  | .List => throw .ErrExpectedString

/-- {lit}`Bool`: the integers zero and one. -/
def streamBool : StreamM Bool := do
  let num ← streamUint 8
  match num with
  | 0 => pure false
  | 1 => pure true
  | n => throw (.invalidBool n)

/-- {lit}`List`: enter a list, returning its size. -/
def streamList : StreamM Nat := do
  let (kind, size) ← streamKind
  if kind ≠ .List then throw .ErrExpectedList
  fun s => .ok size { s with stack := ⟨0, size⟩ :: s.stack, kind := none, size := 0 }

/-- {lit}`ListEnd`: leave a list read to its end, charging it to the enclosing one. -/
def streamListEnd : StreamM Unit := fun s =>
  match s.stack with
  | [] => .error .errNotInList s
  | tos :: rest =>
    if tos.pos ≠ tos.size then .error .errNotAtEOL s
    else
      let rest := match rest with
        | [] => []
        | p :: ps => ⟨p.pos + tos.size, p.size⟩ :: ps
      .ok () { s with stack := rest, kind := none, size := 0 }

end Rlp
end Uranus
