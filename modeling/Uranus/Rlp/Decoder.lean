import Uranus.Rlp.Stream

/-!
# The reflection decoder ({lit}`makeDecoder`, {lit}`DecodeBytes`)

{lit}`makeDecoder` builds, for a type and its tags, a decoder that reads one value
from the stream into a fresh value of the type.  Strings, integers and big integers
go through {lit}`Bytes` and {lit}`uint` with their canonicity checks; a byte array
checks its length, and one of length one takes a single byte through
{lit}`Uint`, ignoring its error.  Slices read elements until the end of the list,
arrays exactly their length, structs one value per field that is not ignored; a
tail slice takes the rest of the enclosing list.  A pointer decodes a new value,
and one tagged {lit}`nil` reads an empty string or list as nil.

The loop over a slice's elements stops only at {lit}`EOL`.  It is given fuel; a run
that exhausts it fails with {lit}`outOfFuel`, which a Go run that has not stopped
by then matches only if it never stops.

Main results:

- Definition {lit}`makeDecoder`.
- Definition {lit}`DecodeBytes`: one value and no trailing bytes.
-/

namespace Uranus
namespace Rlp

/-- A decoder: the type information's {lit}`decoder`, reading into a fresh value. -/
abbrev Decoder := StreamM Val

/-- {lit}`wrapStreamError`: a stream error, reported for the type being decoded. -/
def wrapStreamError (typ : Ty) : CodecError → CodecError
  | .ErrCanonInt => .decodeError "non-canonical integer (leading zero bytes)" typ []
  | .ErrCanonSize => .decodeError "non-canonical size information" typ []
  | .ErrExpectedList => .decodeError "expected input list" typ []
  | .ErrExpectedString => .decodeError "expected input string or byte" typ []
  | .errUintOverflow => .decodeError "input string too long" typ []
  | .errNotAtEOL => .decodeError "input list has too many elements" typ []
  | e => e

/-- {lit}`addErrorContext`: a field or index where a decode error was found. -/
def addErrorContext (ctx : String) : CodecError → CodecError
  | .decodeError msg typ c => .decodeError msg typ (c ++ [ctx])
  | e => e

/-- {lit}`decodeUint`. -/
def decodeUint (bits : Nat) : Decoder := do
  let num ← mapError (wrapStreamError (.uint bits)) (streamUint bits)
  pure (.uint num)

/-- {lit}`decodeBool`. -/
def decodeBool : Decoder := do
  let b ← mapError (wrapStreamError .bool) streamBool
  pure (.bool b)

/-- {lit}`decodeString`. -/
def decodeString : Decoder := do
  let b ← mapError (wrapStreamError .string) streamBytes
  pure (.string b)

/-- {lit}`decodeBigInt`: leading zero bytes are not canonical. -/
def decodeBigInt : Decoder := do
  let b ← mapError (wrapStreamError .bigInt) streamBytes
  if b.head? = some 0 then throw (wrapStreamError .bigInt .ErrCanonInt)
  pure (.bigInt (bigEndian b))

/-- {lit}`decodeByteSlice`. -/
def decodeByteSlice (typ : Ty) : Decoder := do
  let b ← mapError (wrapStreamError typ) streamBytes
  pure (.bytes b)

/-- {lit}`s.Uint()` whose error is dropped: the value is then zero, and the stream is
as the failing call left it. -/
def uintIgnoringError : StreamM Nat := fun s =>
  match streamUint 64 s with
  | .ok v s => .ok v s
  | .error _ s => .ok 0 s

/-- {lit}`decodeByteArray`: exactly {lit}`n` bytes; a single byte only for length one,
read with {lit}`Uint` whose error is dropped. -/
def decodeByteArray (n : Nat) (typ : Ty) : Decoder := do
  let (kind, size) ← streamKind
  match kind with
  | .Byte =>
    if n = 0 then throw (.decodeError "input string too long" typ [])
    if n > 1 then throw (.decodeError "input string too short" typ [])
    let bv ← uintIgnoringError
    pure (.bytes [bv.toUInt8])
  | .String =>
    if n < size then throw (.decodeError "input string too long" typ [])
    if n > size then throw (.decodeError "input string too short" typ [])
    let slice ← streamReadFull n
    -- reject cases where single byte encoding should have been used
    if size = 1 ∧ ∃ x ∈ slice.head?, x < 128 then throw (wrapStreamError typ .ErrCanonSize)
    pure (.bytes slice)
  | .List => throw (wrapStreamError typ .ErrExpectedString)

/-- The element context {lit}`[i]` of an error. -/
def indexContext (i : Nat) : String := "[" ++ toString i ++ "]"

/-- One round of a decoding loop: decode an element; at the end of the list stop as
{lit}`onEOL` says, on another error report it in context, and otherwise go on with
the element. -/
def loopStep {β : Type} (elemdec : Decoder) (onEOL : Stream → EStateM.Result CodecError Stream β)
    (ctx : CodecError → CodecError) (rest : Val → StreamM β) : StreamM β := fun s =>
  match elemdec s with
  | .error .EOL s => onEOL s
  | .error e s => .error (ctx e) s
  | .ok v s => rest v s

/-- A loop step whose element decodes goes on with that element. -/
theorem loopStep_ok {β : Type} {elemdec : Decoder} {onEOL : Stream → EStateM.Result CodecError Stream β}
    {ctx : CodecError → CodecError} {rest : Val → StreamM β} {s s' : Stream} {v : Val}
    (h : elemdec s = .ok v s') : loopStep elemdec onEOL ctx rest s = rest v s' := by
  simp [loopStep, h]

/-- A loop step whose element fails with an error other than the end of the list fails
with that error in its context. -/
theorem loopStep_error {β : Type} {elemdec : Decoder} {onEOL : Stream → EStateM.Result CodecError Stream β}
    {ctx : CodecError → CodecError} {rest : Val → StreamM β} {s s' : Stream} {e : CodecError}
    (h : elemdec s = .error e s') (he : e ≠ .EOL) :
    loopStep elemdec onEOL ctx rest s = .error (ctx e) s' := by
  unfold loopStep
  rw [h]
  split
  · rename_i heq
    cases heq
    exact absurd rfl he
  · rename_i heq
    cases heq
    rfl
  · rename_i heq
    cases heq

/-- The loop of {lit}`decodeListArray`: up to {lit}`k` more elements from index
{lit}`i`, and whether they were all there. -/
def arrayElems (elemdec : Decoder) : Nat → Nat → StreamM (List Val × Bool)
  | 0, _ => pure ([], true)
  | k + 1, i =>
    loopStep elemdec (.ok ([], false)) (addErrorContext (indexContext i)) fun v =>
      (fun r => (v :: r.1, r.2)) <$> arrayElems elemdec k (i + 1)

/-- {lit}`decodeListArray`. -/
def decodeListArray (elemdec : Decoder) (n : Nat) (typ : Ty) : Decoder := do
  let _ ← mapError (wrapStreamError typ) streamList
  let (vs, complete) ← arrayElems elemdec n 0
  if !complete then throw (.decodeError "input list has too few elements" typ [])
  mapError (wrapStreamError typ) streamListEnd
  pure (.list vs)

/-- {lit}`decodeSliceElems`: elements from index {lit}`i` until {lit}`EOL`, with fuel
for the loop. -/
def decodeSliceElems (elemdec : Decoder) : Nat → Nat → StreamM (List Val)
  | 0, _ => throw .outOfFuel
  | fuel + 1, i =>
    loopStep elemdec (.ok []) (addErrorContext (indexContext i)) fun v =>
      (v :: ·) <$> decodeSliceElems elemdec fuel (i + 1)

/-- {lit}`decodeListSlice`: an empty list is an empty slice, not nil; the end of the
list is checked without wrapping its error. -/
def decodeListSlice (elemdec : Decoder) (fuel : Nat) (typ : Ty) : Decoder := do
  let size ← mapError (wrapStreamError typ) streamList
  if size = 0 then
    streamListEnd
    pure (.list [])
  else
    let vs ← decodeSliceElems elemdec fuel 0
    streamListEnd
    pure (.list vs)

/-- The field loop of {lit}`makeStructDecoder`: ignored fields keep their zero value,
and the end of the list before a field is {lit}`too few elements`. -/
def decodeFields (typ : Ty) : List (String × Tags × Ty × Decoder) → StreamM (List Val)
  | [] => pure []
  | (name, ts, t, dec) :: fs =>
    if ts.ignored then (t.zero :: ·) <$> decodeFields typ fs
    else
      loopStep dec (.error (.decodeError "too few elements" typ [])) (addErrorContext ("." ++ name))
        fun v => (v :: ·) <$> decodeFields typ fs

section DecodeFields

variable {typ : Ty} {name : String} {ts : Tags} {t : Ty} {dec : Decoder}
  {fs : List (String × Tags × Ty × Decoder)} {s s' : Stream}

/-- A field that decodes is added to the values of the fields after it. -/
theorem decodeFields_cons_ok {v : Val} (hts : ts.ignored = false) (h : dec s = .ok v s') :
    decodeFields typ ((name, ts, t, dec) :: fs) s = ((v :: ·) <$> decodeFields typ fs) s' := by
  simp only [decodeFields, hts, Bool.false_eq_true, if_false]
  exact loopStep_ok h

/-- A field that fails stops the struct with the error, under the field's name. -/
theorem decodeFields_cons_error {e : CodecError} (hts : ts.ignored = false) (h : dec s = .error e s')
    (he : e ≠ .EOL) :
    decodeFields typ ((name, ts, t, dec) :: fs) s = .error (addErrorContext ("." ++ name) e) s' := by
  simp only [decodeFields, hts, Bool.false_eq_true, if_false]
  exact loopStep_error h he

end DecodeFields

/-- {lit}`makeStructDecoder`. -/
def makeStructDecoder (fields : List (String × Tags × Ty × Decoder)) (typ : Ty) : Decoder := do
  let _ ← mapError (wrapStreamError typ) streamList
  let vs ← decodeFields typ fields
  mapError (wrapStreamError typ) streamListEnd
  pure (.list vs)

/-- {lit}`makePtrDecoder`: decode into a new value. -/
def makePtrDecoder (elemdec : Decoder) : Decoder := do
  let v ← elemdec
  pure (.ptr v)

/-- {lit}`makeOptionalPtrDecoder`: an empty string or list is nil. -/
def makeOptionalPtrDecoder (elemdec : Decoder) : Decoder := fun s =>
  match streamKind s with
  | .error e s => .error e { s with kind := none }
  | .ok (kind, size) s =>
    if size = 0 ∧ kind ≠ .Byte then .ok .nil { s with kind := none }
    else makePtrDecoder elemdec s

/-- {lit}`makeDecoder`: the decoder of a type with the given tags; {lit}`fuel` bounds
each slice loop. -/
def makeDecoder (fuel : Nat) : Ty → Tags → Decoder
  | .uint bits, _ => decodeUint bits
  | .bool, _ => decodeBool
  | .string, _ => decodeString
  | .bigInt, _ => decodeBigInt
  | .slice elem, ts =>
    if elem.isByte then decodeByteSlice (.slice elem)
    else if ts.tail then do
      -- the struct decoder has entered the list already
      let vs ← decodeSliceElems (makeDecoder fuel elem .none) fuel 0
      pure (.list vs)
    else decodeListSlice (makeDecoder fuel elem .none) fuel (.slice elem)
  | .array n elem, _ =>
    if elem.isByte then decodeByteArray n (.array n elem)
    else decodeListArray (makeDecoder fuel elem .none) n (.array n elem)
  | .struct fields, _ => makeStructDecoder (fieldDecoders fields) (.struct fields)
  | .ptr elem, ts =>
    if ts.nilOK then makeOptionalPtrDecoder (makeDecoder fuel elem .none)
    else makePtrDecoder (makeDecoder fuel elem .none)
where
  fieldDecoders : List (String × Tags × Ty) → List (String × Tags × Ty × Decoder)
    | [] => []
    | (name, ts, t) :: fs => (name, ts, t, makeDecoder fuel t ts) :: fieldDecoders fs

/-- {lit}`Stream.Decode`: generate the type information, then decode.  The type
context Go appends to a decode error's path is left out. -/
def streamDecode (fuel : Nat) (t : Ty) : Decoder :=
  match t.check with
  | .error e => throw e
  | .ok () => makeDecoder fuel t .none

/-- {lit}`DecodeBytes`: decode one value from the bytes, which must hold nothing
after it. -/
def DecodeBytes (fuel : Nat) (t : Ty) (b : Bytes) : Except CodecError Val :=
  match streamDecode fuel t (Stream.reset b) with
  | .error e _ => .error e
  | .ok v s => if s.input ≠ [] then .error .ErrMoreThanOneValue else .ok v

end Rlp
end Uranus
