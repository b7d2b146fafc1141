import Uranus.Utils.Types

/-!
# The arithmetic opcodes ({lit}`core/vm/instructions.go`)

Each arithmetic opcode pops its operands from the interpreter's stack of
{lit}`*big.Int` and pushes its result, or writes it in place over an operand it only
peeked at, keeping every item in {lit}`[0, 2^256)` with {lit}`math.U256`.  Here a
stack is the list of the values of its items, top first, and each opcode is a
function on it that panics ({lean}`none`) when the stack holds too few items; the
interpreter's stack check keeps that from happening.

The Yellow Paper and EIP-145 define the opcodes on 256-bit words, and {lit}`Spec`
below is that definition over {lean}`BitVec 256`.  An opcode implements its
definition when it maps the values of a stack of words to the values of the stack
the definition leaves.  {lit}`SAR` does not: for a shift of 256 or more it tests
{lit}`value.Sign() > 0`, so a zero value falls in the negative case and the opcode
pushes {lit}`2^256 - 1` where the definition gives zero.

Main results:

- Theorem {lit}`opSAR_zero_shift_out`: a zero shifted right arithmetically by 256 or
  more bits comes out as {lit}`2^256 - 1`.
- Theorem {lit}`opSAR_spec`: on every other operand pair {lit}`SAR` implements its
  definition.
- Theorem {lit}`ops_spec`: the other arithmetic, comparison, bitwise and shift
  opcodes implement theirs on every operand; {lit}`expLoop_eq` is the invariant of the
  square-and-multiply loop of {lit}`math.Exp`.
-/

namespace Uranus
namespace Vm

/-! ## Words and the stack -/

/-- A 256-bit word of the EVM. -/
abbrev Word := BitVec 256

/-- The interpreter's stack, top first, as the values of its {lit}`*big.Int` items. -/
abbrev Stack := List Int

/-- The stack of the values of some words. -/
def vals (ws : List Word) : Stack := ws.map fun w => (w.toNat : Int)

/-- The stack of a pushed word: its value in front of the rest. -/
@[simp]
theorem vals_cons (w : Word) (ws : List Word) : vals (w :: ws) = (w.toNat : Int) :: vals ws := rfl

/-- {lit}`math.U256`: the value and {lit}`2^256 - 1`, which for a value of any sign is
its residue modulo {lit}`2^256` in two's complement. -/
def U256 (x : Int) : Int := x % 2 ^ 256

/-- {lit}`math.S256`: a value of 256 bits read in two's complement. -/
def S256 (x : Int) : Int := if x < 2 ^ 255 then x else x - 2 ^ 256

/-- {lit}`big.Int.Sign`. -/
def sign (x : Int) : Int := if 0 < x then 1 else if x < 0 then -1 else 0

/-! ## The opcodes -/

/-- {lit}`opAdd`. -/
def opAdd : Stack → Option Stack
  | x :: y :: rest => some (U256 (x + y) :: rest)
  | _ => none

/-- {lit}`opSub`: the top minus the second. -/
def opSub : Stack → Option Stack
  | x :: y :: rest => some (U256 (x - y) :: rest)
  | _ => none

/-- {lit}`opMul`. -/
def opMul : Stack → Option Stack
  | x :: y :: rest => some (U256 (x * y) :: rest)
  | _ => none

/-- {lit}`opDiv`: Euclidean division, and zero for a zero divisor. -/
def opDiv : Stack → Option Stack
  | x :: y :: rest => some ((if sign y ≠ 0 then U256 (x / y) else 0) :: rest)
  | _ => none

/-- {lit}`opSdiv`: the quotient of the absolute values, negated when the signs
differ. -/
def opSdiv : Stack → Option Stack
  | x :: y :: rest =>
    let x := S256 x
    let y := S256 y
    if sign y = 0 ∨ sign x = 0 then some (0 :: rest)
    else if sign x ≠ sign y then some (U256 (-(x.natAbs / y.natAbs : Nat)) :: rest)
    else some (U256 (x.natAbs / y.natAbs : Nat) :: rest)
  | _ => none

/-- {lit}`opMod`. -/
def opMod : Stack → Option Stack
  | x :: y :: rest => some ((if sign y = 0 then 0 else U256 (x % y)) :: rest)
  | _ => none

/-- {lit}`opSmod`: the remainder of the absolute values, with the dividend's sign. -/
def opSmod : Stack → Option Stack
  | x :: y :: rest =>
    let x := S256 x
    let y := S256 y
    if sign y = 0 then some (0 :: rest)
    else if sign x < 0 then some (U256 (-(x.natAbs % y.natAbs : Nat)) :: rest)
    else some (U256 (x.natAbs % y.natAbs : Nat) :: rest)
  | _ => none

/-- The loop of {lit}`math.Exp` over the bits of the exponent, lowest first: multiply
the result by the base for each set bit, and square the base at every bit. -/
def expLoop : List Bool → Int → Int → Int
  | [], result, _ => result
  | b :: bs, result, base =>
    expLoop bs (if b then U256 (result * base) else result) (U256 (base * base))

/-- The bits {lit}`math.Exp` walks: every bit of every 64-bit word of
{lit}`exponent.Bits()`, lowest first. -/
def expBits (exponent : Int) : List Bool :=
  (List.range (64 * ((exponent.natAbs.size + 63) / 64))).map exponent.natAbs.testBit

/-- {lit}`math.Exp`: exponentiation by squaring, truncated to 256 bits. -/
def Exp (base exponent : Int) : Int := expLoop (expBits exponent) 1 base

/-- {lit}`opExp`. -/
def opExp : Stack → Option Stack
  | base :: exponent :: rest => some (Exp base exponent :: rest)
  | _ => none

/-- {lit}`opSignExtend`: from a byte index below 31, the bit {lit}`8 * back + 7` is
copied to every higher bit; otherwise the value is left as it is. -/
def opSignExtend : Stack → Option Stack
  | back :: rest =>
    if back < 31 then
      match rest with
      | num :: rest =>
        let bit := back.toNat * 8 + 7
        let mask : Int := 2 ^ bit - 1
        if num.testBit bit then some (U256 (Int.lor num (Int.lnot mask)) :: rest)
        else some (U256 (Int.land num mask) :: rest)
      | [] => none
    else some rest
  | [] => none

/-- {lit}`opNot`. -/
def opNot : Stack → Option Stack
  | x :: rest => some (U256 (Int.lnot x) :: rest)
  | [] => none

/-- {lit}`opLt`. -/
def opLt : Stack → Option Stack
  | x :: y :: rest => some ((if x < y then 1 else 0) :: rest)
  | _ => none

/-- {lit}`opGt`. -/
def opGt : Stack → Option Stack
  | x :: y :: rest => some ((if y < x then 1 else 0) :: rest)
  | _ => none

/-- {lit}`opSlt`: the two values against {lit}`2^255` first, then against each other. -/
def opSlt : Stack → Option Stack
  | x :: y :: rest =>
    if 2 ^ 255 ≤ x ∧ y < 2 ^ 255 then some (1 :: rest)
    else if x < 2 ^ 255 ∧ 2 ^ 255 ≤ y then some (0 :: rest)
    else some ((if x < y then 1 else 0) :: rest)
  | _ => none

/-- {lit}`opSgt`. -/
def opSgt : Stack → Option Stack
  | x :: y :: rest =>
    if 2 ^ 255 ≤ x ∧ y < 2 ^ 255 then some (0 :: rest)
    else if x < 2 ^ 255 ∧ 2 ^ 255 ≤ y then some (1 :: rest)
    else some ((if y < x then 1 else 0) :: rest)
  | _ => none

/-- {lit}`opEq`. -/
def opEq : Stack → Option Stack
  | x :: y :: rest => some ((if x = y then 1 else 0) :: rest)
  | _ => none

/-- {lit}`opIszero`: zero for a positive value, one otherwise. -/
def opIszero : Stack → Option Stack
  | x :: rest => some ((if sign x > 0 then 0 else 1) :: rest)
  | [] => none

/-- {lit}`opAnd`. -/
def opAnd : Stack → Option Stack
  | x :: y :: rest => some (Int.land x y :: rest)
  | _ => none

/-- {lit}`opOr`. -/
def opOr : Stack → Option Stack
  | x :: y :: rest => some (Int.lor x y :: rest)
  | _ => none

/-- {lit}`opXor`. -/
def opXor : Stack → Option Stack
  | x :: y :: rest => some (Int.xor x y :: rest)
  | _ => none

/-- {lit}`bigEndianByteAt`: the byte at position {lit}`n` from the least significant end
of the absolute value. -/
def bigEndianByteAt (x : Int) (n : Nat) : Int := ((x.natAbs >>> (8 * n)) % 256 : Nat)

/-- {lit}`math.Byte`: the byte at position {lit}`n` of the value padded to
{lit}`padlength` bytes, from the most significant end. -/
def Byte (x : Int) (padlength n : Nat) : Int :=
  if n ≥ padlength then 0 else bigEndianByteAt x (padlength - 1 - n)

/-- {lit}`opByte`. -/
def opByte : Stack → Option Stack
  | th :: val :: rest => some ((if th < 32 then Byte val 32 th.toNat else 0) :: rest)
  | _ => none

/-- {lit}`opAddmod`: the sum modulo a positive modulus, without wrapping the sum. -/
def opAddmod : Stack → Option Stack
  | x :: y :: z :: rest => some ((if 0 < z then U256 ((x + y) % z) else 0) :: rest)
  | _ => none

/-- {lit}`opMulmod`. -/
def opMulmod : Stack → Option Stack
  | x :: y :: z :: rest => some ((if 0 < z then U256 ((x * y) % z) else 0) :: rest)
  | _ => none

/-- {lit}`opSHL`: a shift of 256 or more gives zero. -/
def opSHL : Stack → Option Stack
  | shift :: value :: rest =>
    let shift := U256 shift
    let value := U256 value
    if 256 ≤ shift then some (0 :: rest)
    else some (U256 (value * 2 ^ shift.toNat) :: rest)
  | _ => none

/-- {lit}`opSHR`. -/
def opSHR : Stack → Option Stack
  | shift :: value :: rest =>
    let shift := U256 shift
    let value := U256 value
    if 256 ≤ shift then some (0 :: rest)
    else some (U256 (value / 2 ^ shift.toNat) :: rest)
  | _ => none

/-- {lit}`opSAR`: the value read in two's complement and shifted with
{lit}`big.Int.Rsh`, which rounds down.  For a shift of 256 or more the source tests
{lit}`value.Sign() > 0`, so a zero value takes the branch of the negative ones. -/
def opSAR : Stack → Option Stack
  | shift :: value :: rest =>
    let shift := U256 shift
    let value := S256 value
    if 256 ≤ shift then
      some (U256 (if sign value > 0 then 0 else -1) :: rest)
    else some (U256 (value / 2 ^ shift.toNat) :: rest)
  | _ => none

/-! ## The definitions on words -/

namespace Spec

def ADD (a b : Word) : Word := a + b
def SUB (a b : Word) : Word := a - b
def MUL (a b : Word) : Word := a * b
def DIV (a b : Word) : Word := if b = 0 then 0 else a / b
def MOD (a b : Word) : Word := if b = 0 then 0 else a % b
def SDIV (a b : Word) : Word := if b = 0 then 0 else a.sdiv b
def SMOD (a b : Word) : Word := if b = 0 then 0 else a.srem b
def ADDMOD (a b n : Word) : Word :=
  if n = 0 then 0 else BitVec.ofNat 256 ((a.toNat + b.toNat) % n.toNat)
def MULMOD (a b n : Word) : Word :=
  if n = 0 then 0 else BitVec.ofNat 256 ((a.toNat * b.toNat) % n.toNat)
def EXP (a b : Word) : Word := BitVec.ofNat 256 (a.toNat ^ b.toNat)
/-- The low {lit}`b + 1` bytes of {lit}`x` read as a signed number. -/
def SIGNEXTEND (b x : Word) : Word :=
  if b.toNat < 31 then (x.setWidth (8 * (b.toNat + 1))).signExtend 256 else x
def LT (a b : Word) : Word := if a.toNat < b.toNat then 1 else 0
def GT (a b : Word) : Word := if b.toNat < a.toNat then 1 else 0
def SLT (a b : Word) : Word := if a.toInt < b.toInt then 1 else 0
def SGT (a b : Word) : Word := if b.toInt < a.toInt then 1 else 0
def EQ (a b : Word) : Word := if a = b then 1 else 0
def ISZERO (a : Word) : Word := if a = 0 then 1 else 0
def AND (a b : Word) : Word := a &&& b
def OR (a b : Word) : Word := a ||| b
def XOR (a b : Word) : Word := a ^^^ b
def NOT (a : Word) : Word := ~~~a
/-- The byte {lit}`i` of a word, counted from the most significant end. -/
def BYTE (i x : Word) : Word :=
  if i.toNat < 32 then (x >>> (248 - 8 * i.toNat)) &&& 0xFF else 0
def SHL (shift value : Word) : Word := value <<< shift.toNat
def SHR (shift value : Word) : Word := value >>> shift.toNat
/-- The arithmetic shift, which fills with the sign bit: a shift of 256 or more
gives zero for a non-negative value and all ones for a negative one. -/
def SAR (shift value : Word) : Word := value.sshiftRight shift.toNat

end Spec

/-! ## Shifting a zero out -/

/-- A zero shifted right arithmetically by 256 bits or more: the definition gives
zero, and {lit}`opSAR` pushes {lit}`2^256 - 1`. -/
theorem opSAR_zero_shift_out (shift : Word) (hs : 256 ≤ shift.toNat) (rest : List Word) :
    opSAR (vals (shift :: 0 :: rest)) = some ((2 ^ 256 - 1) :: vals rest) ∧
      vals (Spec.SAR shift 0 :: rest) = 0 :: vals rest := by
  have hshift : U256 (shift.toNat : Int) = shift.toNat := by
    have := shift.isLt
    unfold U256
    omega
  have hzero : ((0 : Word).toNat : Int) = 0 := rfl
  have hS : S256 0 = 0 := by
    unfold S256
    rw [if_pos (by norm_num)]
  -- the branch of the negative values, taken for zero
  have hneg : U256 (if sign 0 > 0 then 0 else -1) = 2 ^ 256 - 1 := by
    unfold sign U256
    norm_num
  refine ⟨?_, ?_⟩
  · rw [vals_cons, vals_cons, hzero]
    unfold opSAR
    simp only [hshift, hS]
    rw [if_pos (by exact_mod_cast hs), hneg]
  · have h0 : (0 : Word).sshiftRight shift.toNat = 0 := BitVec.zero_sshiftRight
    rw [Spec.SAR, h0, vals_cons, hzero]

/-- {lit}`SAR` of zero by 256 bits, alone on the stack. -/
theorem opSAR_zero_shift_out_by_256 :
    256 ≤ (256 : Word).toNat ∧
      opSAR (vals [256, 0]) = some [2 ^ 256 - 1] ∧ vals [Spec.SAR 256 0] = [0] :=
  have hs : 256 ≤ (256 : Word).toNat := by decide
  ⟨hs, opSAR_zero_shift_out 256 hs []⟩

/-! ## The opcodes that implement their definition -/

/-- {lit}`math.U256` leaves a value below {lit}`2^256` unchanged. -/
theorem U256_natCast_of_lt {m : Nat} (h : m < 2 ^ 256) : U256 m = m := by
  unfold U256
  omega

/-- {lit}`math.U256` of a natural number is its remainder modulo {lit}`2^256`. -/
theorem U256_natCast (m : Nat) : U256 m = ((m % 2 ^ 256 : Nat) : Int) := by
  unfold U256
  omega

/-- The sign of a value that is a natural number. -/
theorem sign_natCast (m : Nat) : sign m = if m = 0 then 0 else 1 := by
  unfold sign
  by_cases h : m = 0
  · simp [h]
  · rw [if_pos (by omega), if_neg h]

/-- A word's value is zero exactly for the zero word. -/
theorem toNat_eq_zero_iff (w : Word) : w.toNat = 0 ↔ w = 0 := by
  rw [← BitVec.toNat_inj]
  rfl

/-- The value of a comparison's result. -/
theorem toNat_ite (p : Prop) [Decidable p] :
    ((if p then (1 : Word) else 0).toNat : Int) = if p then 1 else 0 := by
  by_cases hp : p <;> simp [hp]

/-- Go's {lit}`big.Int.And` of two non-negative values is the bitwise and of the naturals. -/
theorem Int.land_natCast (m n : Nat) : Int.land m n = ((m &&& n : Nat) : Int) := rfl

/-- Go's {lit}`big.Int.Or` of two non-negative values is the bitwise or of the naturals. -/
theorem Int.lor_natCast (m n : Nat) : Int.lor m n = ((m ||| n : Nat) : Int) := rfl

/-- Go's {lit}`big.Int.Xor` of two non-negative values is the bitwise xor of the naturals. -/
theorem Int.xor_natCast (m n : Nat) : Int.xor m n = ((m ^^^ n : Nat) : Int) := rfl

/-- Go's {lit}`big.Int.Not` is {lit}`-x - 1`. -/
theorem Int.lnot_natCast (m : Nat) : Int.lnot m = -(m : Int) - 1 := by
  show Int.negSucc m = _
  rw [Int.negSucc_eq]
  ring

section Spec

variable (a b n : Word) (rest : List Word)

/-- {lit}`opAdd` computes ADD, the sum modulo {lit}`2^256` on words. -/
theorem opAdd_spec : opAdd (vals (a :: b :: rest)) = some (vals (Spec.ADD a b :: rest)) := by
  simp only [vals_cons, opAdd, Spec.ADD, BitVec.toNat_add]
  rw [← Nat.cast_add, U256_natCast]

/-- {lit}`opSub` computes SUB, the difference modulo {lit}`2^256` on words. -/
theorem opSub_spec : opSub (vals (a :: b :: rest)) = some (vals (Spec.SUB a b :: rest)) := by
  have ha := a.isLt
  have hb := b.isLt
  simp only [vals_cons, opSub, Spec.SUB, BitVec.toNat_sub, Option.some.injEq, List.cons.injEq,
    and_true]
  unfold U256
  omega

/-- {lit}`opMul` computes MUL, the product modulo {lit}`2^256` on words. -/
theorem opMul_spec : opMul (vals (a :: b :: rest)) = some (vals (Spec.MUL a b :: rest)) := by
  simp only [vals_cons, opMul, Spec.MUL, BitVec.toNat_mul]
  rw [← Nat.cast_mul, U256_natCast]

/-- {lit}`opDiv` computes DIV, the unsigned quotient, zero for a zero divisor on words. -/
theorem opDiv_spec : opDiv (vals (a :: b :: rest)) = some (vals (Spec.DIV a b :: rest)) := by
  simp only [vals_cons, opDiv, Spec.DIV, sign_natCast]
  by_cases hb : b = 0
  · simp [hb]
  · have hb' : b.toNat ≠ 0 := fun h => hb ((toNat_eq_zero_iff b).mp h)
    have hlt : a.toNat / b.toNat < 2 ^ 256 := lt_of_le_of_lt (Nat.div_le_self _ _) a.isLt
    rw [if_neg hb', if_pos (by simp), if_neg hb, BitVec.toNat_udiv, ← Int.natCast_ediv,
      U256_natCast_of_lt hlt]

/-- {lit}`opMod` computes MOD, the unsigned remainder, zero for a zero divisor on words. -/
theorem opMod_spec : opMod (vals (a :: b :: rest)) = some (vals (Spec.MOD a b :: rest)) := by
  simp only [vals_cons, opMod, Spec.MOD, sign_natCast]
  by_cases hb : b = 0
  · simp [hb]
  · have hb' : b.toNat ≠ 0 := fun h => hb ((toNat_eq_zero_iff b).mp h)
    have hlt : a.toNat % b.toNat < 2 ^ 256 := lt_of_le_of_lt (Nat.mod_le _ _) a.isLt
    rw [if_neg hb', if_neg one_ne_zero, if_neg hb, BitVec.toNat_umod, ← Int.natCast_emod,
      U256_natCast_of_lt hlt]

/-- A residue below a positive word's value is its own word's value. -/
theorem toNat_ofNat_mod {k : Nat} (hn : n ≠ 0) :
    (BitVec.ofNat 256 (k % n.toNat)).toNat = k % n.toNat := by
  have hpos : 0 < n.toNat := Nat.pos_of_ne_zero fun h => hn ((toNat_eq_zero_iff n).mp h)
  rw [BitVec.toNat_ofNat]
  exact Nat.mod_eq_of_lt (lt_trans (Nat.mod_lt _ hpos) n.isLt)

/-- {lit}`opAddmod` computes ADDMOD, the sum modulo the third word, zero for a zero modulus on words. -/
theorem opAddmod_spec :
    opAddmod (vals (a :: b :: n :: rest)) = some (vals (Spec.ADDMOD a b n :: rest)) := by
  simp only [vals_cons, opAddmod, Spec.ADDMOD]
  by_cases hn : n = 0
  · simp [hn]
  · have hn' : 0 < n.toNat := Nat.pos_of_ne_zero fun h => hn ((toNat_eq_zero_iff n).mp h)
    have hlt : (a.toNat + b.toNat) % n.toNat < 2 ^ 256 := lt_trans (Nat.mod_lt _ hn') n.isLt
    rw [if_pos (by exact_mod_cast hn'), if_neg hn, toNat_ofNat_mod n hn, ← Nat.cast_add,
      ← Int.natCast_emod, U256_natCast_of_lt hlt]

/-- {lit}`opMulmod` computes MULMOD, the product modulo the third word, zero for a zero modulus on words. -/
theorem opMulmod_spec :
    opMulmod (vals (a :: b :: n :: rest)) = some (vals (Spec.MULMOD a b n :: rest)) := by
  simp only [vals_cons, opMulmod, Spec.MULMOD]
  by_cases hn : n = 0
  · simp [hn]
  · have hn' : 0 < n.toNat := Nat.pos_of_ne_zero fun h => hn ((toNat_eq_zero_iff n).mp h)
    have hlt : (a.toNat * b.toNat) % n.toNat < 2 ^ 256 := lt_trans (Nat.mod_lt _ hn') n.isLt
    rw [if_pos (by exact_mod_cast hn'), if_neg hn, toNat_ofNat_mod n hn, ← Nat.cast_mul,
      ← Int.natCast_emod, U256_natCast_of_lt hlt]

/-- {lit}`opLt` computes LT, the unsigned comparison on words. -/
theorem opLt_spec : opLt (vals (a :: b :: rest)) = some (vals (Spec.LT a b :: rest)) := by
  simp only [vals_cons, opLt, Spec.LT, toNat_ite, Nat.cast_lt]

/-- {lit}`opGt` computes GT, the unsigned comparison on words. -/
theorem opGt_spec : opGt (vals (a :: b :: rest)) = some (vals (Spec.GT a b :: rest)) := by
  simp only [vals_cons, opGt, Spec.GT, toNat_ite, Nat.cast_lt]

/-- {lit}`opEq` computes EQ on words. -/
theorem opEq_spec : opEq (vals (a :: b :: rest)) = some (vals (Spec.EQ a b :: rest)) := by
  simp only [vals_cons, opEq, Spec.EQ, toNat_ite, Nat.cast_inj, BitVec.toNat_inj]

/-- {lit}`opIszero` computes ISZERO on words. -/
theorem opIszero_spec : opIszero (vals (a :: rest)) = some (vals (Spec.ISZERO a :: rest)) := by
  simp only [vals_cons, opIszero, Spec.ISZERO, toNat_ite, sign_natCast]
  by_cases ha : a = 0
  · subst ha
    rfl
  · have ha' : a.toNat ≠ 0 := fun h => ha ((toNat_eq_zero_iff a).mp h)
    rw [if_neg ha', if_pos one_pos, if_neg ha]

/-- {lit}`opAnd` computes AND on words. -/
theorem opAnd_spec : opAnd (vals (a :: b :: rest)) = some (vals (Spec.AND a b :: rest)) := by
  simp only [vals_cons, opAnd, Spec.AND, BitVec.toNat_and, Int.land_natCast]

/-- {lit}`opOr` computes OR on words. -/
theorem opOr_spec : opOr (vals (a :: b :: rest)) = some (vals (Spec.OR a b :: rest)) := by
  simp only [vals_cons, opOr, Spec.OR, BitVec.toNat_or, Int.lor_natCast]

/-- {lit}`opXor` computes XOR on words. -/
theorem opXor_spec : opXor (vals (a :: b :: rest)) = some (vals (Spec.XOR a b :: rest)) := by
  simp only [vals_cons, opXor, Spec.XOR, BitVec.toNat_xor, Int.xor_natCast]

/-- {lit}`opNot` computes NOT, the complement of the word on words. -/
theorem opNot_spec : opNot (vals (a :: rest)) = some (vals (Spec.NOT a :: rest)) := by
  have ha := a.isLt
  simp only [vals_cons, opNot, Spec.NOT, BitVec.toNat_not, Int.lnot_natCast, Option.some.injEq,
    List.cons.injEq, and_true]
  unfold U256
  omega

/-- A shift amount below {lit}`2^256` is its own {lit}`U256`. -/
theorem U256_toNat (w : Word) : U256 w.toNat = w.toNat := U256_natCast_of_lt w.isLt

/-- {lit}`S256` reads a word's value as the word's two's-complement integer. -/
theorem S256_toNat (w : Word) : S256 w.toNat = w.toInt := by
  have hw := w.isLt
  rw [BitVec.toInt_eq_toNat_cond]
  unfold S256
  split_ifs <;> omega

/-- A word's value is {lit}`U256` of its two's-complement integer. -/
theorem toNat_eq_U256_toInt (w : Word) : (w.toNat : Int) = U256 w.toInt := by
  have hw := w.isLt
  rw [BitVec.toInt_eq_toNat_cond]
  unfold U256
  split_ifs <;> omega

/-- {lit}`opSHL` computes SHL, the left shift on words. -/
theorem opSHL_spec : opSHL (vals (n :: a :: rest)) = some (vals (Spec.SHL n a :: rest)) := by
  simp only [vals_cons, opSHL, Spec.SHL, U256_toNat, BitVec.toNat_shiftLeft, Nat.shiftLeft_eq,
    Int.toNat_natCast]
  by_cases hn : 256 ≤ n.toNat
  · -- every bit is shifted out
    have hdvd : 2 ^ 256 ∣ a.toNat * 2 ^ n.toNat := Dvd.dvd.mul_left (Nat.pow_dvd_pow 2 hn) _
    rw [if_pos (by exact_mod_cast hn), Nat.mod_eq_zero_of_dvd hdvd, Nat.cast_zero]
  · have hcast : (a.toNat : Int) * 2 ^ n.toNat = ((a.toNat * 2 ^ n.toNat : Nat) : Int) := by
      push_cast
      rfl
    rw [if_neg (by exact_mod_cast hn), hcast, U256_natCast]

/-- {lit}`opSHR` computes SHR, the logical right shift on words. -/
theorem opSHR_spec : opSHR (vals (n :: a :: rest)) = some (vals (Spec.SHR n a :: rest)) := by
  simp only [vals_cons, opSHR, Spec.SHR, U256_toNat, BitVec.toNat_ushiftRight,
    Nat.shiftRight_eq_div_pow, Int.toNat_natCast]
  have hcast : (a.toNat : Int) / 2 ^ n.toNat = ((a.toNat / 2 ^ n.toNat : Nat) : Int) := by
    push_cast
    rfl
  by_cases hn : 256 ≤ n.toNat
  · -- every bit is shifted out
    have hlt : a.toNat < 2 ^ n.toNat := lt_of_lt_of_le a.isLt (Nat.pow_le_pow_right two_pos hn)
    rw [if_pos (by exact_mod_cast hn), Nat.div_eq_of_lt hlt, Nat.cast_zero]
  · have hlt : a.toNat / 2 ^ n.toNat < 2 ^ 256 := lt_of_le_of_lt (Nat.div_le_self _ _) a.isLt
    rw [if_neg (by exact_mod_cast hn), hcast, U256_natCast_of_lt hlt]

/-- Off zero, the sign of a word's integer tells a shift of 256 or more bits what to
fill with. -/
theorem toInt_div_two_pow_of_le (a : Word) (ha : a ≠ 0) {k : Nat} (hk : 256 ≤ k) :
    U256 (if sign a.toInt > 0 then 0 else -1) = U256 (a.toInt / 2 ^ k) := by
  have hlo := BitVec.le_toInt a
  have hhi := BitVec.toInt_lt (x := a)
  have hP : (2 : Int) ^ 256 ≤ 2 ^ k := pow_le_pow_right₀ (by norm_num) hk
  have hne : a.toInt ≠ 0 := fun h => ha (BitVec.toInt_inj.mp (by rw [h]; rfl))
  simp only [Nat.add_one_sub_one] at hlo hhi
  unfold sign
  by_cases hpos : 0 < a.toInt
  · rw [if_pos hpos, if_pos one_pos, Int.ediv_eq_zero_of_lt hpos.le (by omega)]
  · -- a negative integer above {lit}`-2^k` rounds down to {lit}`-1`
    have hdiv : a.toInt / 2 ^ k = -1 :=
      ((@Int.ediv_emod_unique a.toInt (2 ^ k) (a.toInt + 2 ^ k) (-1) (by positivity)).mpr
        ⟨by ring, by omega, by omega⟩).1
    have hneg : a.toInt < 0 := by omega
    rw [if_neg hpos, if_pos hneg, if_neg (by norm_num), hdiv]

/-- {lit}`opSAR` pushes the arithmetic shift of the word, unless the shift is 256 or more and the value is zero (the case of the bug). -/
theorem opSAR_spec (h : n.toNat < 256 ∨ a ≠ 0) :
    opSAR (vals (n :: a :: rest)) = some (vals (Spec.SAR n a :: rest)) := by
  simp only [vals_cons, opSAR, Spec.SAR, U256_toNat, S256_toNat, Int.toNat_natCast]
  rw [toNat_eq_U256_toInt (a.sshiftRight n.toNat), BitVec.toInt_sshiftRight, Int.shiftRight_eq_div_pow, Nat.cast_pow,
    Nat.cast_ofNat]
  by_cases hn : 256 ≤ n.toNat
  · have ha : a ≠ 0 := h.resolve_left (by omega)
    rw [if_pos (by exact_mod_cast hn), toInt_div_two_pow_of_le a ha hn]
  · rw [if_neg (by exact_mod_cast hn)]

/-- The signed comparisons read both operands in two's complement. -/
theorem toInt_lt_iff (a b : Word) :
    a.toInt < b.toInt ↔
      (2 ^ 255 ≤ (a.toNat : Int) ∧ (b.toNat : Int) < 2 ^ 255) ∨
        ¬(2 ^ 255 ≤ (b.toNat : Int) ∧ (a.toNat : Int) < 2 ^ 255) ∧
          ((2 ^ 255 ≤ (a.toNat : Int)) ↔ 2 ^ 255 ≤ (b.toNat : Int)) ∧ a.toNat < b.toNat := by
  have ha := a.isLt
  have hb := b.isLt
  rw [BitVec.toInt_eq_toNat_cond, BitVec.toInt_eq_toNat_cond]
  split_ifs <;> omega

/-- {lit}`opSlt` computes SLT, the signed comparison on words. -/
theorem opSlt_spec : opSlt (vals (a :: b :: rest)) = some (vals (Spec.SLT a b :: rest)) := by
  simp only [vals_cons, opSlt, Spec.SLT, toNat_ite]
  have := toInt_lt_iff a b
  split_ifs <;> first | rfl | omega

/-- {lit}`opSgt` computes SGT, the signed comparison on words. -/
theorem opSgt_spec : opSgt (vals (a :: b :: rest)) = some (vals (Spec.SGT a b :: rest)) := by
  simp only [vals_cons, opSgt, Spec.SGT, toNat_ite]
  have := toInt_lt_iff b a
  split_ifs <;> first | rfl | omega

/-- {lit}`opByte` computes BYTE, the byte at the index from the most significant end on words. -/
theorem opByte_spec : opByte (vals (n :: a :: rest)) = some (vals (Spec.BYTE n a :: rest)) := by
  simp only [vals_cons, opByte, Spec.BYTE, Int.toNat_natCast]
  by_cases hn : n.toNat < 32
  · have hshift : 248 - 8 * n.toNat = 8 * (32 - 1 - n.toNat) := by omega
    have hmask : (0xFF : Word).toNat = 2 ^ 8 - 1 := rfl
    rw [if_pos (by exact_mod_cast hn), if_pos hn, Byte, if_neg (by omega), bigEndianByteAt,
      BitVec.toNat_and, BitVec.toNat_ushiftRight, hmask, Nat.and_two_pow_sub_one_eq_mod, hshift,
      Int.natAbs_natCast]
  · rw [if_neg (by exact_mod_cast hn), if_neg hn]
    rfl

/-- Truncated division, as {lit}`opSdiv` computes it: the quotient of the absolute values,
negated when the signs differ. -/
theorem tdiv_eq_natAbs_div (x y : Int) :
    x.tdiv y = if (x < 0 ↔ y < 0) then ((x.natAbs / y.natAbs : Nat) : Int)
      else -((x.natAbs / y.natAbs : Nat) : Int) := by
  rcases x with m | m <;> rcases y with n | n
  · rw [if_pos (by simp only [Int.ofNat_eq_natCast]; omega)]
    rfl
  all_goals simp [Int.tdiv, Int.negSucc_lt_zero]

/-- Truncated remainder, as {lit}`opSmod` computes it: the remainder of the absolute
values, with the dividend's sign. -/
theorem tmod_eq_natAbs_mod (x y : Int) :
    x.tmod y = if x < 0 then -((x.natAbs % y.natAbs : Nat) : Int)
      else ((x.natAbs % y.natAbs : Nat) : Int) := by
  rcases x with m | m <;> rcases y with n | n
  all_goals simp [Int.tmod, Int.negSucc_lt_zero]

/-- The signs {lit}`opSdiv` compares: they differ exactly when one operand is negative
and the other not. -/
theorem sign_ne_iff {x y : Int} (hx : x ≠ 0) (hy : y ≠ 0) :
    sign x ≠ sign y ↔ ¬(x < 0 ↔ y < 0) := by
  unfold sign
  split_ifs <;> omega

/-- A word's signed value is zero only for the zero word. -/
theorem toInt_eq_zero_iff (w : Word) : w.toInt = 0 ↔ w = 0 := by
  rw [← BitVec.toInt_inj]
  rfl

/-- {lit}`big.Int.Sign` is zero only at zero. -/
theorem sign_eq_zero_iff (x : Int) : sign x = 0 ↔ x = 0 := by
  unfold sign
  split_ifs <;> simp <;> omega

/-- {lit}`opSdiv` computes SDIV, the signed quotient truncated toward zero, zero for a zero divisor, on words. -/
theorem opSdiv_spec : opSdiv (vals (a :: b :: rest)) = some (vals (Spec.SDIV a b :: rest)) := by
  simp only [vals_cons, opSdiv, Spec.SDIV, S256_toNat, sign_eq_zero_iff, toInt_eq_zero_iff]
  by_cases hb : b = 0
  · simp [hb]
  by_cases ha : a = 0
  · subst ha
    have h0 : (0 : Word).sdiv b = 0 := BitVec.zero_sdiv
    rw [if_pos (Or.inr rfl), if_neg hb, h0]
    rfl
  have ha' : a.toInt ≠ 0 := fun h => ha ((toInt_eq_zero_iff a).mp h)
  have hb' : b.toInt ≠ 0 := fun h => hb ((toInt_eq_zero_iff b).mp h)
  -- the word of the quotient is {lit}`U256` of the truncated quotient
  have hq : ((a.sdiv b).toNat : Int) = U256 (a.toInt.tdiv b.toInt) := by
    rw [toNat_eq_U256_toInt, BitVec.toInt_sdiv]
    exact Int.bmod_emod
  rw [if_neg (by tauto), if_neg hb, hq, tdiv_eq_natAbs_div]
  by_cases hs : (a.toInt < 0 ↔ b.toInt < 0)
  · rw [if_neg (by rw [sign_ne_iff ha' hb']; tauto), if_pos hs]
  · rw [if_pos (by rw [sign_ne_iff ha' hb']; exact hs), if_neg hs]

/-- {lit}`opSmod` computes SMOD, the signed remainder with the sign of the dividend, zero for a zero divisor, on words. -/
theorem opSmod_spec : opSmod (vals (a :: b :: rest)) = some (vals (Spec.SMOD a b :: rest)) := by
  simp only [vals_cons, opSmod, Spec.SMOD, S256_toNat, sign_eq_zero_iff, toInt_eq_zero_iff]
  by_cases hb : b = 0
  · simp [hb]
  have hr : ((a.srem b).toNat : Int) = U256 (a.toInt.tmod b.toInt) := by
    rw [toNat_eq_U256_toInt, BitVec.toInt_srem]
  rw [if_neg hb, if_neg hb, hr, tmod_eq_natAbs_mod]
  -- {lit}`opSmod` reads the dividend's sign off {lit}`Sign()`
  have hsign : sign a.toInt < 0 ↔ a.toInt < 0 := by
    unfold sign
    split_ifs <;> simp <;> omega
  by_cases hneg : a.toInt < 0
  · rw [if_pos (hsign.mpr hneg), if_pos hneg]
  · rw [if_neg (mt hsign.mp hneg), if_neg hneg]


/-! ### Exponentiation by squaring -/

/-- The number a list of bits stands for, lowest bit first. -/
def bitsValue : List Bool → Nat
  | [] => 0
  | c :: cs => c.toNat + 2 * bitsValue cs

/-- The loop of {lit}`math.Exp` keeps {lit}`result * base ^ k` fixed modulo {lit}`2^256`,
where {lit}`k` is the number the bits still to walk stand for. -/
theorem expLoop_eq (bs : List Bool) (r b : Int) :
    expLoop bs (U256 r) b = U256 (r * b ^ bitsValue bs) := by
  induction bs generalizing r b with
  | nil => simp [expLoop, bitsValue]
  | cons c cs ih =>
    -- the squared base stands for the base squared, modulo {lit}`2^256`
    have hsq : ∀ x : Int, U256 (x * U256 (b * b) ^ bitsValue cs) = U256 (x * b ^ (2 * bitsValue cs)) := by
      intro x
      have h : x * U256 (b * b) ^ bitsValue cs ≡ x * (b * b) ^ bitsValue cs [ZMOD 2 ^ 256] :=
        ((Int.mod_modEq _ _).pow _).mul_left x
      rw [U256, h, ← U256, pow_mul, sq]
    cases c
    · rw [expLoop, if_neg Bool.false_ne_true, ih, hsq, bitsValue, Bool.toNat_false, zero_add]
    · have h : U256 r * b * b ^ (2 * bitsValue cs) ≡ r * b * b ^ (2 * bitsValue cs) [ZMOD 2 ^ 256] :=
        ((Int.mod_modEq r _).mul_right b).mul_right _
      rw [expLoop, if_pos rfl, ih, hsq, bitsValue, Bool.toNat_true, pow_add, pow_one, U256, h,
        ← U256, mul_assoc]

/-- The bits of a number from position {lit}`i` on, taken {lit}`N` at a time. -/
theorem bitsValue_range' (n i N : Nat) :
    bitsValue ((List.range' i N).map n.testBit) = n / 2 ^ i % 2 ^ N := by
  induction N generalizing i with
  | zero => rw [List.range'_zero, List.map_nil, bitsValue, pow_zero, Nat.mod_one]
  | succ N ih =>
    rw [List.range'_succ, List.map_cons, bitsValue, ih, Nat.toNat_testBit, pow_succ 2 i,
      ← Nat.div_div_eq_div_mul, pow_succ' 2 N, Nat.mod_mul]

/-- {lit}`exponent.Bits()` walked in 64-bit words stands for the exponent. -/
theorem bitsValue_expBits (e : Int) : bitsValue (expBits e) = e.natAbs := by
  rw [expBits, List.range_eq_range', bitsValue_range', pow_zero, Nat.div_one]
  apply Nat.mod_eq_of_lt
  calc e.natAbs < 2 ^ e.natAbs.size := Nat.lt_size_self _
    _ ≤ 2 ^ (64 * ((e.natAbs.size + 63) / 64)) := Nat.pow_le_pow_right two_pos (by omega)

/-- {lit}`opExp` computes EXP, the power modulo {lit}`2^256` on words. -/
theorem opExp_spec : opExp (vals (a :: b :: rest)) = some (vals (Spec.EXP a b :: rest)) := by
  have h1 : (1 : Int) = U256 1 := rfl
  simp only [vals_cons, opExp, Spec.EXP, Exp, BitVec.toNat_ofNat]
  rw [h1, expLoop_eq, bitsValue_expBits, Int.natAbs_natCast, one_mul, ← Nat.cast_pow, U256_natCast]

/-! ### Sign extension -/

/-- The bits of {lit}`2^k - 1` that {lit}`x` lacks. -/
theorem ldiff_two_pow_sub_one (k x : Nat) : Nat.ldiff (2 ^ k - 1) x = 2 ^ k - (x % 2 ^ k + 1) := by
  apply Nat.eq_of_testBit_eq
  intro i
  rw [Nat.testBit_ldiff, Nat.testBit_two_pow_sub_one,
    Nat.testBit_two_pow_sub_succ (Nat.mod_lt _ (Nat.two_pow_pos k)), Nat.testBit_mod_two_pow]
  cases decide (i < k) <;> simp

/-- With its bit set, {lit}`opSignExtend` fills every bit above it: the low bits less the
bit's weight. -/
theorem lor_lnot_two_pow_sub_one (k x : Nat) :
    Int.lor x (Int.lnot (2 ^ k - 1)) = ((x % 2 ^ k : Nat) : Int) - 2 ^ k := by
  have hk := Nat.two_pow_pos k
  have hmask : (2 : Int) ^ k - 1 = ((2 ^ k - 1 : Nat) : Int) := by
    rw [Nat.cast_sub hk, Nat.cast_pow, Nat.cast_ofNat, Nat.cast_one]
  have hlt := Nat.mod_lt x hk
  have hlor : Int.lor x (Int.lnot ((2 ^ k - 1 : Nat) : Int)) = Int.negSucc (Nat.ldiff (2 ^ k - 1) x) :=
    rfl
  rw [hmask, hlor, ldiff_two_pow_sub_one, Int.negSucc_eq]
  push_cast [Nat.cast_sub (by omega : x % 2 ^ k + 1 ≤ 2 ^ k)]
  ring

/-- With its bit clear, {lit}`opSignExtend` keeps the low bits. -/
theorem land_two_pow_sub_one (k x : Nat) : Int.land x (2 ^ k - 1) = ((x % 2 ^ k : Nat) : Int) := by
  have hmask : (2 : Int) ^ k - 1 = ((2 ^ k - 1 : Nat) : Int) := by
    rw [Nat.cast_sub (Nat.two_pow_pos k), Nat.cast_pow, Nat.cast_ofNat, Nat.cast_one]
  rw [hmask, Int.land_natCast, Nat.and_two_pow_sub_one_eq_mod]

/-- The low {lit}`bit + 1` bits of a word read as a signed number, split at their top bit. -/
theorem toInt_setWidth_succ (x : Word) (bit : Nat) :
    (x.setWidth (bit + 1)).toInt =
      if x.toNat.testBit bit then ((x.toNat % 2 ^ bit : Nat) : Int) - 2 ^ bit
      else ((x.toNat % 2 ^ bit : Nat) : Int) := by
  have hsplit : x.toNat % 2 ^ (bit + 1) = x.toNat % 2 ^ bit + 2 ^ bit * (x.toNat / 2 ^ bit % 2) := by
    rw [pow_succ, Nat.mod_mul]
  have hlt := Nat.mod_lt x.toNat (Nat.two_pow_pos bit)
  rw [BitVec.toInt_eq_toNat_cond, BitVec.toNat_setWidth, hsplit, Nat.testBit_eq_decide_div_mod_eq,
    pow_succ']
  -- the top bit decides which half the low bits fall in
  rcases Nat.mod_two_eq_zero_or_one (x.toNat / 2 ^ bit) with h | h
  · rw [h, mul_zero, add_zero, if_pos (by omega)]
    simp
  · rw [h, mul_one, if_neg (by omega)]
    simp only [decide_true, if_true]
    push_cast
    ring

/-- {lit}`opSignExtend` computes SIGNEXTEND, the sign extension from the given byte on words. -/
theorem opSignExtend_spec :
    opSignExtend (vals (b :: a :: rest)) = some (vals (Spec.SIGNEXTEND b a :: rest)) := by
  simp only [vals_cons, opSignExtend, Spec.SIGNEXTEND, Int.toNat_natCast]
  by_cases hb : b.toNat < 31
  · have hw : 8 * (b.toNat + 1) = b.toNat * 8 + 7 + 1 := by omega
    -- the extended word is {lit}`U256` of the low bytes read as a signed number
    have hv : (((a.setWidth (8 * (b.toNat + 1))).signExtend 256).toNat : Int) =
        U256 (a.setWidth (b.toNat * 8 + 7 + 1)).toInt := by
      rw [toNat_eq_U256_toInt, BitVec.toInt_signExtend_of_le (by omega), hw]
    have htb : Int.testBit (a.toNat : Int) (b.toNat * 8 + 7) = a.toNat.testBit (b.toNat * 8 + 7) :=
      rfl
    rw [if_pos (by exact_mod_cast hb), if_pos hb, hv, toInt_setWidth_succ, htb]
    by_cases hbit : a.toNat.testBit (b.toNat * 8 + 7)
    · rw [if_pos hbit, if_pos hbit, lor_lnot_two_pow_sub_one]
    · rw [if_neg hbit, if_neg hbit, land_two_pow_sub_one]
  · rw [if_neg (by exact_mod_cast hb), if_neg hb]

end Spec

/-- Every arithmetic, comparison, bitwise and shift opcode but {lit}`SAR` pops its operands
and pushes the word its definition gives, on every stack of words. -/
theorem ops_spec :
    (∀ a b rest, opAdd (vals (a :: b :: rest)) = some (vals (Spec.ADD a b :: rest))) ∧
    (∀ a b rest, opSub (vals (a :: b :: rest)) = some (vals (Spec.SUB a b :: rest))) ∧
    (∀ a b rest, opMul (vals (a :: b :: rest)) = some (vals (Spec.MUL a b :: rest))) ∧
    (∀ a b rest, opDiv (vals (a :: b :: rest)) = some (vals (Spec.DIV a b :: rest))) ∧
    (∀ a b rest, opSdiv (vals (a :: b :: rest)) = some (vals (Spec.SDIV a b :: rest))) ∧
    (∀ a b rest, opMod (vals (a :: b :: rest)) = some (vals (Spec.MOD a b :: rest))) ∧
    (∀ a b rest, opSmod (vals (a :: b :: rest)) = some (vals (Spec.SMOD a b :: rest))) ∧
    (∀ a b n rest, opAddmod (vals (a :: b :: n :: rest)) = some (vals (Spec.ADDMOD a b n :: rest))) ∧
    (∀ a b n rest, opMulmod (vals (a :: b :: n :: rest)) = some (vals (Spec.MULMOD a b n :: rest))) ∧
    (∀ a b rest, opExp (vals (a :: b :: rest)) = some (vals (Spec.EXP a b :: rest))) ∧
    (∀ b x rest, opSignExtend (vals (b :: x :: rest)) = some (vals (Spec.SIGNEXTEND b x :: rest))) ∧
    (∀ a b rest, opLt (vals (a :: b :: rest)) = some (vals (Spec.LT a b :: rest))) ∧
    (∀ a b rest, opGt (vals (a :: b :: rest)) = some (vals (Spec.GT a b :: rest))) ∧
    (∀ a b rest, opSlt (vals (a :: b :: rest)) = some (vals (Spec.SLT a b :: rest))) ∧
    (∀ a b rest, opSgt (vals (a :: b :: rest)) = some (vals (Spec.SGT a b :: rest))) ∧
    (∀ a b rest, opEq (vals (a :: b :: rest)) = some (vals (Spec.EQ a b :: rest))) ∧
    (∀ a rest, opIszero (vals (a :: rest)) = some (vals (Spec.ISZERO a :: rest))) ∧
    (∀ a b rest, opAnd (vals (a :: b :: rest)) = some (vals (Spec.AND a b :: rest))) ∧
    (∀ a b rest, opOr (vals (a :: b :: rest)) = some (vals (Spec.OR a b :: rest))) ∧
    (∀ a b rest, opXor (vals (a :: b :: rest)) = some (vals (Spec.XOR a b :: rest))) ∧
    (∀ a rest, opNot (vals (a :: rest)) = some (vals (Spec.NOT a :: rest))) ∧
    (∀ i x rest, opByte (vals (i :: x :: rest)) = some (vals (Spec.BYTE i x :: rest))) ∧
    (∀ s v rest, opSHL (vals (s :: v :: rest)) = some (vals (Spec.SHL s v :: rest))) ∧
    (∀ s v rest, opSHR (vals (s :: v :: rest)) = some (vals (Spec.SHR s v :: rest))) :=
  ⟨opAdd_spec, opSub_spec, opMul_spec, opDiv_spec, opSdiv_spec, opMod_spec, opSmod_spec,
    opAddmod_spec, opMulmod_spec, opExp_spec, fun b x r => opSignExtend_spec x b r, opLt_spec,
    opGt_spec, opSlt_spec, opSgt_spec, opEq_spec, opIszero_spec, opAnd_spec, opOr_spec, opXor_spec,
    opNot_spec, fun i x r => opByte_spec x i r, fun s v r => opSHL_spec v s r,
    fun s v r => opSHR_spec v s r⟩

/-- A negative value shifted right arithmetically by 256 bits comes out as all ones, as
its definition gives. -/
theorem opSAR_spec_all_ones :
    ((256 : Word).toNat < 256 ∨ (-1 : Word) ≠ 0) ∧
      opSAR (vals [256, -1]) = some (vals [Spec.SAR 256 (-1)]) :=
  ⟨Or.inr (by decide), opSAR_spec (-1) 256 [] (Or.inr (by decide))⟩

end Vm
end Uranus
