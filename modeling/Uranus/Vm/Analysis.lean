import Uranus.Utils.Types

/-!
# Jump destination analysis ({lit}`core/vm/analysis.go`)

A {lit}`JUMP` may only land on a {lit}`JUMPDEST` that is an instruction, not a byte of
some {lit}`PUSH`'s immediate data.  {lit}`codeBitmap` walks the code once and marks, one
bit per byte from the most significant bit of each byte of the bitmap, the bytes
that are push data: a {lit}`PUSHn` marks its {lit}`n` data bytes eight at a time with
{lit}`set8`, which spills into the next byte of the bitmap, and the rest one by one.
The bitmap has four bytes more than the code needs, for the data of a {lit}`PUSH32`
that runs past the end.

The definition the analysis is checked against is the linear decode: the
instructions start at zero, and each one starts where the one before it and its
immediate data end.  Every index {lit}`codeBitmap` writes is inside the bitmap, the
clear bits below the code's length are exactly the starts of instructions, and
{lit}`destinations.has` answers yes exactly for a {lit}`JUMPDEST` that starts an
instruction.

Main results:

- Theorem {lit}`Start.chain`: no instruction starts inside another one.
- Theorem {lit}`codeBitmapLoop_spec`: the loop invariant of {lit}`codeBitmap`.
- Theorem {lit}`codeBitmap_spec`: {lit}`codeBitmap` never indexes outside its buffer, and
  {lit}`codeSegment` holds below the code's length exactly at instruction starts.
- Theorem {lit}`has_iff`: with a cache that holds the code's own bitmap, if any,
  {lit}`has` holds exactly for a {lit}`JUMPDEST` at an instruction start.
-/

namespace Uranus
namespace Vm

/-! ## The model -/

def PUSH1 : UInt8 := 0x60
def PUSH32 : UInt8 := 0x7f
def JUMPDEST : UInt8 := 0x5b

/-- {lit}`bitvec`: a set bit marks a byte of push data. -/
abbrev bitvec := List UInt8

/-- {lit}`bits[i] |= m`; an index past the end panics. -/
def bitvec.orAt (bits : bitvec) (i : Nat) (m : UInt8) : Option bitvec :=
  if h : i < bits.length then some (bits.set i (bits[i] ||| m)) else none

/-- {lit}`bitvec.set`: the bit of one position. -/
def bitvec.set (bits : bitvec) (pos : Nat) : Option bitvec :=
  bitvec.orAt bits (pos / 8) (0x80 >>> (pos % 8).toUInt8)

/-- {lit}`bitvec.set8`: the bits of eight positions from {lit}`pos`, the low ones of
{lit}`pos`'s byte and the high ones of the next. -/
def bitvec.set8 (bits : bitvec) (pos : Nat) : Option bitvec := do
  let bits ← bitvec.orAt bits (pos / 8) (0xFF >>> (pos % 8).toUInt8)
  bitvec.orAt bits (pos / 8 + 1) (~~~(0xFF >>> (pos % 8).toUInt8))

/-- {lit}`bitvec.codeSegment`: the bit of the position is clear. -/
def bitvec.codeSegment (bits : bitvec) (pos : Nat) : Option Bool :=
  bits[pos / 8]?.map fun b => (b &&& (0x80 >>> (pos % 8).toUInt8)) == 0

/-- The loop {lit}`for ; numbits >= 8; numbits -= 8 { bits.set8(pc); pc += 8 }`, run
{lit}`k` times from {lit}`pc`. -/
def set8Loop : Nat → Nat → bitvec → Option bitvec
  | 0, _, bits => some bits
  | k + 1, pc, bits => do
    let bits ← bitvec.set8 bits pc
    set8Loop k (pc + 8) bits

/-- The loop {lit}`for ; numbits > 0; numbits-- { bits.set(pc); pc++ }`, run {lit}`k`
times from {lit}`pc`. -/
def setLoop : Nat → Nat → bitvec → Option bitvec
  | 0, _, bits => some bits
  | k + 1, pc, bits => do
    let bits ← bitvec.set bits pc
    setLoop k (pc + 1) bits

/-- The loop of {lit}`codeBitmap` from {lit}`pc`.  After a {lit}`PUSHn` the two inner
loops leave {lit}`pc` past the {lit}`n` data bytes, where the model resumes. -/
def codeBitmapLoop (code : List UInt8) (pc : Nat) (bits : bitvec) : Option bitvec :=
  if h : pc < code.length then
    let op := code[pc]
    if op ≥ PUSH1 ∧ op ≤ PUSH32 then
      let numbits := (op - PUSH1 + 1).toNat
      do
        let bits ← set8Loop (numbits / 8) (pc + 1) bits
        let bits ← setLoop (numbits % 8) (pc + 1 + 8 * (numbits / 8)) bits
        codeBitmapLoop code (pc + 1 + numbits) bits
    else codeBitmapLoop code (pc + 1) bits
  else some bits
termination_by code.length - pc

/-- {lit}`codeBitmap`. -/
def codeBitmap (code : List UInt8) : Option bitvec :=
  codeBitmapLoop code 0 (List.replicate (code.length / 8 + 1 + 4) 0)

/-- {lit}`destinations`: the bitmaps analysed so far, by code hash. -/
abbrev destinations := Hash → Option bitvec

/-- {lit}`destinations.has`, with the cache it fills.  {lit}`dest` is the stack item, a
value below {lit}`2^256`; the byte is compared before the bitmap is read. -/
def has (d : destinations) (codehash : Hash) (code : List UInt8) (dest : Nat) :
    Option (Bool × destinations) :=
  let udest := dest % 2 ^ 64
  if dest.size ≥ 63 ∨ udest ≥ code.length then some (false, d)
  else do
    let (m, d) ← match d codehash with
      | some m => some (m, d)
      | none => (codeBitmap code).map fun m => (m, Function.update d codehash (some m))
    if code[udest]? = some JUMPDEST then
      let seg ← bitvec.codeSegment m udest
      pure (seg, d)
    else pure (false, d)

/-! ## The linear decode -/

/-- The bytes of immediate data after an opcode: {lit}`n` after {lit}`PUSHn`. -/
def immediates (op : UInt8) : Nat :=
  if 0x60 ≤ op.toNat ∧ op.toNat ≤ 0x7f then op.toNat - 0x5f else 0

/-- The instructions of a linear decode from zero: the first starts at zero, and the
next one after the immediate data of each. -/
inductive Start (code : List UInt8) : Nat → Prop
  | zero : Start code 0
  | next {p : Nat} (hp : Start code p) (h : p < code.length) :
      Start code (p + 1 + immediates code[p])

/-- The data length {lit}`codeBitmap` reads for a push is its number of immediate bytes. -/
theorem numbits_of_push {op : UInt8} (h : op ≥ PUSH1 ∧ op ≤ PUSH32) :
    (op - PUSH1 + 1).toNat = immediates op := by
  have h₁ := UInt8.le_iff_toNat_le.mp h.1
  have h₂ := UInt8.le_iff_toNat_le.mp h.2
  have hp1 : PUSH1.toNat = 0x60 := rfl
  have hp32 : PUSH32.toNat = 0x7f := rfl
  rw [UInt8.toNat_add, UInt8.toNat_sub_of_le _ _ h.1, immediates, if_pos (by omega)]
  simp only [hp1, UInt8.toNat_one]
  omega

/-- Every opcode but the pushes has no immediate data. -/
theorem immediates_of_not_push {op : UInt8} (h : ¬(op ≥ PUSH1 ∧ op ≤ PUSH32)) : immediates op = 0 := by
  have hp1 : PUSH1.toNat = 0x60 := rfl
  have hp32 : PUSH32.toNat = 0x7f := rfl
  simp only [ge_iff_le, UInt8.le_iff_toNat_le, hp1, hp32] at h
  rw [immediates, if_neg h]
/-- An instruction has at most 32 bytes of immediate data. -/
theorem immediates_le (op : UInt8) : immediates op ≤ 32 := by
  unfold immediates
  split <;> omega

/-- No instruction starts inside another one: the next start after {lit}`p` is past
{lit}`p`'s immediate data. -/
theorem Start.chain {code : List UInt8} :
    ∀ q, Start code q → ∀ p, Start code p → p < q → (hp : p < code.length) →
      p + 1 + immediates code[p] ≤ q := by
  intro q
  -- strong induction on the later start: the case below swaps the two starts
  induction q using Nat.strong_induction_on with
  | _ q ih =>
    intro hq p hp hpq hpl
    cases hq with
    | zero => omega
    | next hq₀ hl₀ =>
      rename_i q₀
      rcases lt_trichotomy p q₀ with hlt | rfl | hgt
      · have := ih q₀ (by omega) hq₀ p hp hlt hpl
        omega
      · exact le_rfl
      · have := ih p hpq hp q₀ hq₀ hgt hl₀
        omega

/-- No instruction starts inside the immediate data of another. -/
theorem Start.not_inside {code : List UInt8} {p q : Nat} (hp : Start code p) (hpl : p < code.length)
    (hpq : p < q) (hq : q < p + 1 + immediates code[p]) : ¬Start code q := fun hs =>
  absurd (Start.chain q hs p hp hpq hpl) (by omega)

/-! ## Bits of the bitmap -/

/-- The bit of a position, the {lit}`7 - pos % 8`-th of its byte; past the end, clear. -/
def bitOf (bits : bitvec) (q : Nat) : Bool := (bits.getD (q / 8) 0).toNat.testBit (7 - q % 8)

/-- The masks of one byte, as bits from the most significant one. -/
theorem testBit_mask_one : ∀ r i : Fin 8,
    ((0x80 : UInt8) >>> r.val.toUInt8).toNat.testBit (7 - i) = decide (i = r) := by decide

/-- The mask {lit}`0xFF >> r` sets the bits from {lit}`r` on, counted from the most significant one. -/
theorem testBit_mask_low : ∀ r i : Fin 8,
    ((0xFF : UInt8) >>> r.val.toUInt8).toNat.testBit (7 - i) = decide (r ≤ i) := by decide

/-- The complement of {lit}`0xFF >> r` sets the bits before {lit}`r`. -/
theorem testBit_mask_high : ∀ r i : Fin 8,
    (~~~((0xFF : UInt8) >>> r.val.toUInt8)).toNat.testBit (7 - i) = decide (i < r) := by decide

/-- The mask {lit}`0x80 >> r` is the power of two of bit {lit}`7 - r`. -/
theorem mask_one_toNat : ∀ r : Fin 8, ((0x80 : UInt8) >>> r.val.toUInt8).toNat = 2 ^ (7 - r.val) := by
  decide

section Bits

variable {bits bits' : bitvec} {i pos q : Nat} {m : UInt8}

/-- {lit}`orAt` inside the bitmap succeeds. -/
theorem orAt_of_lt (h : i < bits.length) : ∃ bits', bitvec.orAt bits i m = some bits' := by
  simp [bitvec.orAt, h]

/-- {lit}`orAt` keeps the length of the bitmap. -/
theorem length_orAt (h : bitvec.orAt bits i m = some bits') : bits'.length = bits.length := by
  unfold bitvec.orAt at h
  split at h
  · cases h
    simp
  · cases h

/-- The bits after {lit}`orAt`: those before, and the mask's bits in the byte it writes. -/
theorem bitOf_orAt (h : bitvec.orAt bits i m = some bits') (q : Nat) :
    bitOf bits' q = (bitOf bits q || (decide (q / 8 = i) && m.toNat.testBit (7 - q % 8))) := by
  unfold bitvec.orAt at h
  split at h
  · next hi =>
    cases h
    unfold bitOf
    by_cases hq : q / 8 = i
    · subst hq
      simp [List.getD_eq_getElem?_getD, hi, UInt8.toNat_or, Nat.testBit_or]
    · simp [List.getD_eq_getElem?_getD, Ne.symm hq, hq]
  · cases h

/-- {lit}`set` marks its position. -/
theorem bitOf_set (h : bitvec.set bits pos = some bits') (q : Nat) :
    bitOf bits' q = (bitOf bits q || decide (q = pos)) := by
  rw [bitOf_orAt h]
  have hmask := testBit_mask_one ⟨pos % 8, Nat.mod_lt _ (by decide)⟩ ⟨q % 8, Nat.mod_lt _ (by decide)⟩
  simp only [Fin.mk.injEq] at hmask
  -- a position is its byte and its place in the byte
  have key : (decide (q / 8 = pos / 8) && decide (q % 8 = pos % 8)) = decide (q = pos) := by
    rw [← Bool.decide_and]
    exact decide_eq_decide.mpr (by omega)
  rw [hmask, key]

/-- {lit}`set8` marks the eight positions from its position. -/
theorem bitOf_set8 (h : bitvec.set8 bits pos = some bits') (q : Nat) :
    bitOf bits' q = (bitOf bits q || decide (pos ≤ q ∧ q < pos + 8)) := by
  unfold bitvec.set8 at h
  obtain ⟨bits₁, h₁, h₂⟩ := Option.bind_eq_some_iff.mp h
  rw [bitOf_orAt h₂, bitOf_orAt h₁]
  have hlow := testBit_mask_low ⟨pos % 8, Nat.mod_lt _ (by decide)⟩ ⟨q % 8, Nat.mod_lt _ (by decide)⟩
  have hhigh := testBit_mask_high ⟨pos % 8, Nat.mod_lt _ (by decide)⟩ ⟨q % 8, Nat.mod_lt _ (by decide)⟩
  simp only [Fin.mk_le_mk, Fin.mk_lt_mk] at hlow hhigh
  -- the low bits of one byte and the high bits of the next are the eight positions
  have key : ((decide (q / 8 = pos / 8) && decide (pos % 8 ≤ q % 8)) ||
      (decide (q / 8 = pos / 8 + 1) && decide (q % 8 < pos % 8))) =
      decide (pos ≤ q ∧ q < pos + 8) := by
    rw [← Bool.decide_and, ← Bool.decide_and, ← Bool.decide_or]
    exact decide_eq_decide.mpr (by omega)
  rw [hlow, hhigh, Bool.or_assoc, key]

/-- {lit}`set8` succeeds when the two bytes it writes are inside the bitmap, and keeps the length. -/
theorem set8_of_lt (h : pos / 8 + 1 < bits.length) :
    ∃ bits', bitvec.set8 bits pos = some bits' ∧ bits'.length = bits.length := by
  obtain ⟨bits₁, h₁⟩ := orAt_of_lt (m := 0xFF >>> (pos % 8).toUInt8) (by omega : pos / 8 < bits.length)
  have hl₁ := length_orAt h₁
  obtain ⟨bits₂, h₂⟩ := orAt_of_lt (m := ~~~(0xFF >>> (pos % 8).toUInt8))
    (by omega : pos / 8 + 1 < bits₁.length)
  refine ⟨bits₂, ?_, by rw [length_orAt h₂, hl₁]⟩
  rw [bitvec.set8, h₁]
  exact h₂

/-- The {lit}`set8` loop marks {lit}`8 * k` positions from {lit}`pc`, inside a bitmap whose
last byte it touches is {lit}`(pc + 8 * k) / 8`. -/
theorem set8Loop_spec : ∀ (k pc : Nat) (bits : bitvec), (k = 0 ∨ (pc + 8 * k) / 8 < bits.length) →
    ∃ bits', set8Loop k pc bits = some bits' ∧ bits'.length = bits.length ∧
      ∀ q, bitOf bits' q = (bitOf bits q || decide (pc ≤ q ∧ q < pc + 8 * k))
  | 0, pc, bits, _ => ⟨bits, rfl, rfl, fun q => by simp⟩
  | k + 1, pc, bits, hk => by
    obtain ⟨bits₁, h₁, hl₁⟩ := set8_of_lt (by omega : pc / 8 + 1 < bits.length)
    obtain ⟨bits₂, h₂, hl₂, hb₂⟩ := set8Loop_spec k (pc + 8) bits₁ (by omega)
    refine ⟨bits₂, by rw [set8Loop, h₁]; exact h₂, by rw [hl₂, hl₁], fun q => ?_⟩
    -- the first eight positions, then the rest
    have key : (decide (pc ≤ q ∧ q < pc + 8) || decide (pc + 8 ≤ q ∧ q < pc + 8 + 8 * k)) =
        decide (pc ≤ q ∧ q < pc + 8 * (k + 1)) := by
      rw [← Bool.decide_or]
      exact decide_eq_decide.mpr (by omega)
    rw [hb₂, bitOf_set8 h₁, Bool.or_assoc, key]

/-- The {lit}`set` loop marks {lit}`k` positions from {lit}`pc`. -/
theorem setLoop_spec : ∀ (k pc : Nat) (bits : bitvec), (k = 0 ∨ (pc + k - 1) / 8 < bits.length) →
    ∃ bits', setLoop k pc bits = some bits' ∧ bits'.length = bits.length ∧
      ∀ q, bitOf bits' q = (bitOf bits q || decide (pc ≤ q ∧ q < pc + k))
  | 0, pc, bits, _ => ⟨bits, rfl, rfl, fun q => by simp⟩
  | k + 1, pc, bits, hk => by
    obtain ⟨bits₁, h₁⟩ := orAt_of_lt (m := 0x80 >>> (pc % 8).toUInt8)
      (by omega : pc / 8 < bits.length)
    have hl₁ := length_orAt h₁
    obtain ⟨bits₂, h₂, hl₂, hb₂⟩ := setLoop_spec k (pc + 1) bits₁ (by omega)
    refine ⟨bits₂, by rw [setLoop, bitvec.set, h₁]; exact h₂, by rw [hl₂, hl₁], fun q => ?_⟩
    have key : (decide (q = pc) || decide (pc + 1 ≤ q ∧ q < pc + 1 + k)) =
        decide (pc ≤ q ∧ q < pc + (k + 1)) := by
      rw [← Bool.decide_or]
      exact decide_eq_decide.mpr (by omega)
    rw [hb₂, bitOf_set h₁, Bool.or_assoc, key]

/-- {lit}`codeSegment` reads the bit of its position. -/
theorem codeSegment_eq (h : pos / 8 < bits.length) :
    bitvec.codeSegment bits pos = some (!bitOf bits pos) := by
  have hmask := mask_one_toNat ⟨pos % 8, Nat.mod_lt _ (by decide)⟩
  simp only at hmask
  unfold bitvec.codeSegment bitOf
  rw [List.getD_eq_getElem?_getD, List.getElem?_eq_getElem h, Option.map_some, Option.getD_some]
  congr 1
  generalize bits[pos / 8] = b
  rw [Bool.eq_iff_iff, beq_iff_eq, ← UInt8.toNat_inj, UInt8.toNat_and, hmask, Nat.and_two_pow]
  cases b.toNat.testBit (7 - pos % 8) <;> simp

end Bits

/-! ## The loop of {lit}`codeBitmap` -/

/-- The bitmap marks, below {lit}`pc`, exactly the positions that start no instruction. -/
def Marked (code : List UInt8) (pc : Nat) (bits : bitvec) : Prop :=
  ∀ q, bitOf bits q = true ↔ q < pc ∧ ¬Start code q

/-- A clear bitmap marks nothing below zero. -/
theorem marked_zero (code : List UInt8) (n : Nat) : Marked code 0 (List.replicate n 0) := by
  intro q
  simp [bitOf]

/-- Marking the data of the instruction at {lit}`pc` moves the mark bound past it, to the
next instruction. -/
theorem marked_step {code : List UInt8} {pc : Nat} {bits bits' : bitvec} (hs : Start code pc)
    (hpc : pc < code.length)
    (h : ∀ q, bitOf bits' q = (bitOf bits q ||
      decide (pc + 1 ≤ q ∧ q < pc + 1 + immediates code[pc])))
    (hm : Marked code pc bits) : Marked code (pc + 1 + immediates code[pc]) bits' := by
  intro q
  rw [h, Bool.or_eq_true, hm, decide_eq_true_iff]
  constructor
  · rintro (⟨hq, hns⟩ | ⟨hq₁, hq₂⟩)
    · exact ⟨by omega, hns⟩
    · exact ⟨hq₂, Start.not_inside hs hpc (by omega) hq₂⟩
  · rintro ⟨hq, hns⟩
    rcases lt_trichotomy q pc with hlt | rfl | hgt
    · exact Or.inl ⟨hlt, hns⟩
    · exact absurd hs hns
    · exact Or.inr ⟨hgt, hq⟩

/-- The loop of {lit}`codeBitmap`, from an instruction start with the positions below marked, marks exactly the data positions and keeps the length. -/
theorem codeBitmapLoop_spec (code : List UInt8) (pc : Nat) (bits : bitvec) (hs : Start code pc)
    (hl : bits.length = code.length / 8 + 1 + 4) (hm : Marked code pc bits) :
    ∃ bits', codeBitmapLoop code pc bits = some bits' ∧
      bits'.length = code.length / 8 + 1 + 4 ∧ ∀ q < code.length, (bitOf bits' q = true ↔ ¬Start code q) := by
  rw [codeBitmapLoop]
  split
  · next hpc =>
    have hs' := Start.next hs hpc
    have hle := immediates_le code[pc]
    dsimp only
    split
    · next hpush =>
      rw [numbits_of_push hpush]
      obtain ⟨bits₁, h₁, hl₁, hb₁⟩ := set8Loop_spec (immediates code[pc] / 8) (pc + 1) bits (by omega)
      obtain ⟨bits₂, h₂, hl₂, hb₂⟩ := setLoop_spec (immediates code[pc] % 8)
        (pc + 1 + 8 * (immediates code[pc] / 8)) bits₁ (by omega)
      have hm₂ : Marked code (pc + 1 + immediates code[pc]) bits₂ := by
        refine marked_step hs hpc (fun q => ?_) hm
        have key : (decide (pc + 1 ≤ q ∧ q < pc + 1 + 8 * (immediates code[pc] / 8)) ||
            decide (pc + 1 + 8 * (immediates code[pc] / 8) ≤ q ∧
              q < pc + 1 + 8 * (immediates code[pc] / 8) + immediates code[pc] % 8)) =
            decide (pc + 1 ≤ q ∧ q < pc + 1 + immediates code[pc]) := by
          rw [← Bool.decide_or]
          exact decide_eq_decide.mpr (by omega)
        rw [hb₂, hb₁, Bool.or_assoc, key]
      obtain ⟨bits₃, h₃, hl₃, hb₃⟩ := codeBitmapLoop_spec code _ bits₂ hs' (by omega) hm₂
      refine ⟨bits₃, ?_, hl₃, hb₃⟩
      rw [h₁]
      show (setLoop _ _ bits₁ >>= fun bits => codeBitmapLoop code _ bits) = some bits₃
      rw [h₂]
      exact h₃
    · next hpush =>
      have hm' : Marked code (pc + 1 + immediates code[pc]) bits :=
        marked_step hs hpc (fun q => by simp [immediates_of_not_push hpush]) hm
      rw [immediates_of_not_push hpush] at hs' hm'
      exact codeBitmapLoop_spec code (pc + 1) bits hs' hl hm'
  · next hpc =>
    exact ⟨bits, rfl, hl, fun q hq => by rw [hm q]; exact and_iff_right (by omega)⟩
termination_by code.length - pc
decreasing_by all_goals omega

/-- {lit}`codeBitmap` marks, at every position of the code, whether it is code or data of a linear decode. -/
theorem codeBitmap_spec (code : List UInt8) :
    ∃ bits, codeBitmap code = some bits ∧ bits.length = code.length / 8 + 1 + 4 ∧
      ∀ p < code.length, ∃ seg, bitvec.codeSegment bits p = some seg ∧ (seg = true ↔ Start code p) := by
  obtain ⟨bits, h, hl, hb⟩ := codeBitmapLoop_spec code 0 (List.replicate (code.length / 8 + 1 + 4) 0)
    Start.zero List.length_replicate (marked_zero code _)
  refine ⟨bits, h, hl, fun p hp => ⟨_, codeSegment_eq (by omega), ?_⟩⟩
  rw [Bool.not_eq_true', Bool.eq_false_iff, ne_eq, hb p hp, not_not]

/-! ## {lit}`has` -/

/-- The cache entry of {lit}`codehash`, if there is one, is the bitmap of {lit}`code`. -/
def Analysed (d : destinations) (codehash : Hash) (code : List UInt8) : Prop :=
  ∀ m, d codehash = some m → codeBitmap code = some m

/-- The guard of {lit}`has`: {lit}`dest.BitLen() >= 63 || udest >= len(code)`. -/
theorem has_guard_iff (dest len : Nat) :
    ¬(dest.size ≥ 63 ∨ dest % 2 ^ 64 ≥ len) ↔ dest < 2 ^ 62 ∧ dest < len := by
  have hsize : dest.size < 63 ↔ dest < 2 ^ 62 := Nat.lt_succ_iff.trans Nat.size_le
  rw [not_or, not_le, not_le, hsize]
  constructor
  · rintro ⟨h62, hlt⟩
    exact ⟨h62, by rwa [Nat.mod_eq_of_lt (by omega)] at hlt⟩
  · rintro ⟨h62, hlt⟩
    exact ⟨h62, by rwa [Nat.mod_eq_of_lt (by omega)]⟩

/-- The last step of {lit}`has`: the byte, then the bitmap. -/
theorem has_lookup {code : List UInt8} {dest : Nat} {bits : bitvec} {seg : Bool}
    (hseg : bits.codeSegment dest = some seg) (d : destinations) :
    (if code[dest]? = some JUMPDEST then do
        let seg ← bits.codeSegment dest
        pure (seg, d)
      else pure (false, d)) = some (decide (code[dest]? = some JUMPDEST) && seg, d) := by
  split
  · next hj => simp [hseg, hj]
  · next hj => simp [hj]

/-- {lit}`has` answers whether the destination is a {lit}`JUMPDEST` at an instruction start of a linear decode, below {lit}`2^62`, and caches the bitmap under the code hash. -/
theorem has_spec (d : destinations) (codehash : Hash) (code : List UInt8) (dest : Nat)
    (hd : Analysed d codehash code) :
    ∃ b d', has d codehash code dest = some (b, d') ∧
      (b = true ↔ dest < 2 ^ 62 ∧ dest < code.length ∧ code[dest]? = some JUMPDEST ∧ Start code dest) ∧
      Analysed d' codehash code ∧ ∀ h ≠ codehash, d' h = d h := by
  obtain ⟨bits, hbits, hl, hseg⟩ := codeBitmap_spec code
  unfold has
  by_cases hg : dest.size ≥ 63 ∨ dest % 2 ^ 64 ≥ code.length
  · rw [if_pos hg]
    refine ⟨false, d, rfl, ?_, hd, fun _ _ => rfl⟩
    simp only [Bool.false_eq_true, false_iff]
    rintro ⟨h62, hlt, -⟩
    exact (has_guard_iff dest code.length).mpr ⟨h62, hlt⟩ hg
  · rw [if_neg hg]
    obtain ⟨h62, hlt⟩ := (has_guard_iff dest code.length).mp hg
    obtain ⟨seg, hseg₁, hseg₂⟩ := hseg dest hlt
    rw [Nat.mod_eq_of_lt (by omega : dest < 2 ^ 64)]
    -- the answer, once the bitmap is found, whether it was cached or not
    have hb : (decide (code[dest]? = some JUMPDEST) && seg) = true ↔
        dest < 2 ^ 62 ∧ dest < code.length ∧ code[dest]? = some JUMPDEST ∧ Start code dest := by
      rw [Bool.and_eq_true, decide_eq_true_iff, hseg₂]
      exact ⟨fun h => ⟨h62, hlt, h⟩, fun h => h.2.2⟩
    rcases hc : d codehash with _ | m
    · refine ⟨_, Function.update d codehash (some bits), ?_, hb, fun m hm => ?_, fun h hne => ?_⟩
      · simp only [hbits, Option.map_some]
        exact has_lookup hseg₁ _
      · rw [Function.update_self, Option.some.injEq] at hm
        rw [hbits, hm]
      · exact Function.update_of_ne hne _ _
    · have hm : m = bits := Option.some.inj ((hd m hc).symm.trans hbits)
      subst hm
      exact ⟨_, d, has_lookup hseg₁ d, hb, hd, fun _ _ => rfl⟩

/-- The analysis against the linear decode: {lit}`codeBitmap` stays inside its buffer and
its clear bits below the code's length are the instruction starts; with a cache that
agrees with the code, {lit}`has` answers yes exactly for a {lit}`JUMPDEST` that starts an
instruction (below {lit}`2^62`, the source's {lit}`BitLen` guard) and keeps the cache
agreeing. -/
theorem codeBitmap_agrees_linear_decode (code : List UInt8) :
    (∃ bits, codeBitmap code = some bits ∧ bits.length = code.length / 8 + 1 + 4 ∧
      ∀ p < code.length, ∃ seg, bitvec.codeSegment bits p = some seg ∧ (seg = true ↔ Start code p)) ∧
    ∀ d codehash dest, Analysed d codehash code →
      ∃ b d', has d codehash code dest = some (b, d') ∧
        (b = true ↔ dest < 2 ^ 62 ∧ dest < code.length ∧ code[dest]? = some JUMPDEST ∧
          Start code dest) ∧
        Analysed d' codehash code := by
  refine ⟨codeBitmap_spec code, fun d codehash dest hd => ?_⟩
  obtain ⟨b, d', h, hb, hd', -⟩ := has_spec d codehash code dest hd
  exact ⟨b, d', h, hb, hd'⟩

/-- A {lit}`JUMPDEST` that is the data of a {lit}`PUSH1` is no destination. -/
theorem codeBitmap_agrees_push_data :
    Analysed (fun _ => none) Hash.zero [PUSH1, JUMPDEST, JUMPDEST] ∧
      ∃ d', has (fun _ => none) Hash.zero [PUSH1, JUMPDEST, JUMPDEST] 1 = some (false, d') := by
  have hd : Analysed (fun _ => none) Hash.zero [PUSH1, JUMPDEST, JUMPDEST] := fun _ h => by cases h
  obtain ⟨b, d', h, hb, -⟩ := (codeBitmap_agrees_linear_decode _).2 _ _ 1 hd
  have hdata : ¬Start [PUSH1, JUMPDEST, JUMPDEST] 1 :=
    Start.not_inside Start.zero (by decide) (by decide) (by decide)
  have hfalse : b = false := Bool.eq_false_iff.mpr fun hb₁ => hdata (hb.mp hb₁).2.2.2
  exact ⟨hd, d', hfalse ▸ h⟩

end Vm
end Uranus
