import Uranus.Rlp.Raw

/-!
# The Go types the reflection codec serialises

{lit}`makeWriter` and {lit}`makeDecoder` of {lit}`common/rlp` choose an encoder and a
decoder for a Go type by its kind.  {lit}`Ty` describes the types this development
covers: unsigned integers of a bit size, {lit}`bool`, {lit}`string`, {lit}`*big.Int`,
slices, arrays, structs whose fields carry the parsed {lit}`rlp` tags, and pointers.
A slice or array of {lit}`uint8` is the byte slice or byte array of the Go type
switch; no separate descriptor is needed for it.

{lit}`Val` is a value of such a type.  Go keeps nil apart from an empty slice and a
nil pointer apart from a pointer to a zero value, and so does {lit}`Val`: both are
{lit}`Val.nil`.  The errors the codec reports, with the texts of
{lit}`decodeError`, are {lit}`CodecError`.

Main results:

- Definition {lit}`Ty.zero`: the Go zero value of each type.
- Definition {lit}`Ty.holds`: a value has a type.
- Definition {lit}`Ty.check`: the tag checks of {lit}`structFields`.
- Instances {lit}`DecidableEq` for types and values, so that runs of the codec are
  checked by evaluation.
-/

namespace Uranus
namespace Rlp

/-- The parsed {lit}`rlp` tag of a struct field, {lit}`tags`. -/
structure Tags where
  nilOK : Bool
  tail : Bool
  ignored : Bool
deriving DecidableEq, Repr

/-- {lit}`tags{}`, the tags of every value that is not a struct field. -/
def Tags.none : Tags := ⟨false, false, false⟩

/-- A Go type the codec serialises; a struct field has a name, its tags and a type. -/
inductive Ty where
  | uint (bits : Nat)
  | bool
  | string
  | bigInt
  | slice (elem : Ty)
  | array (n : Nat) (elem : Ty)
  | struct (fields : List (String × Tags × Ty))
  | ptr (elem : Ty)

/-- {lit}`isByte`: the element type of a byte slice or a byte array. -/
def Ty.isByte : Ty → Bool
  | .uint 8 => true
  | _ => false

/-- A Go value.  {lit}`bytes` is the content of a byte slice or byte array, {lit}`list`
holds the elements of a slice or array or the fields of a struct, and {lit}`nil` is
a nil slice or pointer. -/
inductive Val where
  | uint (n : Nat)
  | bool (b : Bool)
  | string (s : Bytes)
  | bytes (b : Bytes)
  | bigInt (x : Int)
  | list (vs : List Val)
  | nil
  | ptr (v : Val)

/-! ## Deciding equality

Lean derives no equality test for types nested through lists, so each gets a
structural comparison and the proof that it decides equality; concrete runs of
the codec are then checked by evaluation. -/

/-- Structural comparison of types. -/
def Ty.beq : Ty → Ty → Bool
  | .uint a, .uint b => a == b
  | .bool, .bool => true
  | .string, .string => true
  | .bigInt, .bigInt => true
  | .slice a, .slice b => a.beq b
  | .array n a, .array m b => n == m && a.beq b
  | .struct fs, .struct gs => beqFields fs gs
  | .ptr a, .ptr b => a.beq b
  | _, _ => false
where
  beqFields : List (String × Tags × Ty) → List (String × Tags × Ty) → Bool
    | [], [] => true
    | (n, ts, t) :: fs, (m, us, u) :: gs => n == m && ts == us && t.beq u && beqFields fs gs
    | _, _ => false

/-- The equality test of types decides equality. -/
theorem Ty.beq_iff : ∀ (a b : Ty), a.beq b = true ↔ a = b
  | .uint n, b => by cases b <;> simp [Ty.beq]
  | .bool, b => by cases b <;> simp [Ty.beq]
  | .string, b => by cases b <;> simp [Ty.beq]
  | .bigInt, b => by cases b <;> simp [Ty.beq]
  | .slice x, b => by
    cases b with
    | slice y => simp only [Ty.beq, Ty.slice.injEq]; exact Ty.beq_iff x y
    | _ => simp [Ty.beq]
  | .array n x, b => by
    cases b with
    | array m y => simp only [Ty.beq, Ty.array.injEq, Bool.and_eq_true, beq_iff_eq, Ty.beq_iff x y]
    | _ => simp [Ty.beq]
  | .struct fs, b => by
    cases b with
    | struct gs => simp only [Ty.beq, Ty.struct.injEq]; exact beqFields_iff fs gs
    | _ => simp [Ty.beq]
  | .ptr x, b => by
    cases b with
    | ptr y => simp only [Ty.beq, Ty.ptr.injEq]; exact Ty.beq_iff x y
    | _ => simp [Ty.beq]
where
  beqFields_iff : ∀ (fs gs : List (String × Tags × Ty)), Ty.beq.beqFields fs gs = true ↔ fs = gs
    | [], [] => by simp [Ty.beq.beqFields]
    | [], _ :: _ => by simp [Ty.beq.beqFields]
    | _ :: _, [] => by simp [Ty.beq.beqFields]
    | (n, ts, t) :: fs, (m, us, u) :: gs => by
      simp only [Ty.beq.beqFields, Bool.and_eq_true, beq_iff_eq, List.cons.injEq, Prod.mk.injEq]
      rw [Ty.beq_iff t u, beqFields_iff fs gs]
      tauto

instance : DecidableEq Ty := fun a b => decidable_of_iff _ (Ty.beq_iff a b)

/-- Structural comparison of values. -/
def Val.beq : Val → Val → Bool
  | .uint n, .uint m => n == m
  | .bool a, .bool b => a == b
  | .string a, .string b => a == b
  | .bytes a, .bytes b => a == b
  | .bigInt a, .bigInt b => a == b
  | .list as, .list bs => beqList as bs
  | .nil, .nil => true
  | .ptr a, .ptr b => a.beq b
  | _, _ => false
where
  beqList : List Val → List Val → Bool
    | [], [] => true
    | a :: as, b :: bs => a.beq b && beqList as bs
    | _, _ => false

/-- The equality test of values decides equality. -/
theorem Val.beq_iff : ∀ (a b : Val), a.beq b = true ↔ a = b
  | .uint n, b => by cases b <;> simp [Val.beq]
  | .bool x, b => by cases b <;> simp [Val.beq]
  | .string x, b => by cases b <;> simp [Val.beq]
  | .bytes x, b => by cases b <;> simp [Val.beq]
  | .bigInt x, b => by cases b <;> simp [Val.beq]
  | .list as, b => by
    cases b with
    | list bs => simp only [Val.beq, Val.list.injEq]; exact beqList_iff as bs
    | _ => simp [Val.beq]
  | .nil, b => by cases b <;> simp [Val.beq]
  | .ptr x, b => by
    cases b with
    | ptr y => simp only [Val.beq, Val.ptr.injEq]; exact Val.beq_iff x y
    | _ => simp [Val.beq]
where
  beqList_iff : ∀ (as bs : List Val), Val.beq.beqList as bs = true ↔ as = bs
    | [], [] => by simp [Val.beq.beqList]
    | [], _ :: _ => by simp [Val.beq.beqList]
    | _ :: _, [] => by simp [Val.beq.beqList]
    | a :: as, b :: bs => by
      simp only [Val.beq.beqList, Bool.and_eq_true, List.cons.injEq]
      rw [Val.beq_iff a b, beqList_iff as bs]

instance : DecidableEq Val := fun a b => decidable_of_iff _ (Val.beq_iff a b)

/-- The Go zero value of a type: {lit}`reflect.Zero`. -/
def Ty.zero : Ty → Val
  | .uint _ => .uint 0
  | .bool => .bool false
  | .string => .string []
  | .bigInt => .nil
  | .slice _ => .nil
  | .array n elem => if elem.isByte then .bytes (List.replicate n 0) else .list (List.replicate n elem.zero)
  | .struct fields => .list (zeros fields)
  | .ptr _ => .nil
where
  zeros : List (String × Tags × Ty) → List Val
    | [] => []
    | (_, _, t) :: fs => t.zero :: zeros fs

/-- A value has a type, as reflection guarantees for every value the Go code
encodes: integers fit their size, arrays have their length, structs have a value
per field. -/
def Ty.holds : Ty → Val → Bool
  | .uint bits, .uint n => decide (n < 2 ^ bits)
  | .bool, .bool _ => true
  | .string, .string _ => true
  | .bigInt, .bigInt _ => true
  | .bigInt, .nil => true
  | .slice _, .nil => true
  | .slice elem, .bytes _ => elem.isByte
  | .slice elem, .list vs => !elem.isByte && vs.all elem.holds
  | .array n elem, .bytes b => elem.isByte && b.length == n
  | .array n elem, .list vs => !elem.isByte && vs.length == n && vs.all elem.holds
  | .struct fields, .list vs => holdsFields fields vs
  | .ptr _, .nil => true
  | .ptr elem, .ptr v => elem.holds v
  | _, _ => false
where
  holdsFields : List (String × Tags × Ty) → List Val → Bool
    | [], [] => true
    | (_, _, t) :: fs, v :: vs => t.holds v && holdsFields fs vs
    | _, _ => false

/-- The errors of the codec: the tag errors of type generation, the encoder's
refusal of a negative integer, the package's error values, {lit}`io.EOF` and
{lit}`io.ErrUnexpectedEOF`, and {lit}`decodeError` with its message, type and field
path.  {lit}`illTyped` and {lit}`outOfFuel` belong to the model: the first is a value
that does not have its type, which reflection never passes, and the second a
decoding loop that has not ended within the fuel given. -/
inductive CodecError where
  /-- {lit}`rlp: invalid struct tag "tail" for T.f (must be on last field)` -/
  | tailNotLast (field : String)
  /-- {lit}`rlp: invalid struct tag "tail" for T.f (field type is not slice)` -/
  | tailNotSlice (field : String)
  /-- {lit}`rlp: cannot encode negative *big.Int` -/
  | negativeBigInt
  | EOL
  | ErrExpectedString
  | ErrExpectedList
  | ErrCanonInt
  | ErrCanonSize
  | ErrElemTooLarge
  | ErrValueTooLarge
  | ErrMoreThanOneValue
  | errNotInList
  | errNotAtEOL
  | errUintOverflow
  | EOF
  | ErrUnexpectedEOF
  /-- {lit}`rlp: invalid boolean value: %d` -/
  | invalidBool (num : Nat)
  /-- {lit}`rlp: %s for %v`, with the path of fields and indices it was found at,
  innermost first -/
  | decodeError (msg : String) (typ : Ty) (ctx : List String)
  | illTyped
  | outOfFuel
deriving DecidableEq

/-- {lit}`parseStructTag`'s checks of the {lit}`tail` tag, field by field, and those of
the field types in turn, as {lit}`structFields` generates them: the first failure in
that order. -/
def Ty.check : Ty → Except CodecError Unit
  | .slice elem => elem.check
  | .array _ elem => elem.check
  | .struct fields => checkFields fields
  | .ptr elem => elem.check
  | _ => .ok ()
where
  checkFields : List (String × Tags × Ty) → Except CodecError Unit
    | [] => .ok ()
    | (name, ts, t) :: fs => do
      if ts.tail then
        if fs ≠ [] then throw (.tailNotLast name)
        match t with
        | .slice _ => pure ()
        | _ => throw (.tailNotSlice name)
      -- an ignored field is skipped after its tag is parsed
      if !ts.ignored then t.check
      checkFields fs

end Rlp
end Uranus
