import Uranus.Lib.FoldM

/-!
# Memory expansion gas ({lit}`core/vm/gas_table.go`, {lit}`core/vm/memory.go`)

An EVM frame's memory grows in words of 32 bytes, and each expansion is charged
the difference of the quadratic fee {lit}`3 * w + w * w / 512` between the new
and the old word count.  {lit}`memoryGasCost` computes the fee of the new size in
{lit}`uint64` and subtracts the fee it charged last, which it keeps in the memory
as {lit}`lastGasCost`.  {lit}`Interpreter.Run` rounds every size to whole words,
charges the operation's gas and then resizes the memory to that size.

Its guard admits sizes up to {lit}`0xffffffffe0`, about {lit}`2^35` words, but the
square of the word count stays below {lit}`2^64` only below {lit}`2^32` words.  At
{lit}`2^37` bytes the square wraps to zero and the quadratic part of the fee,
{lit}`2^55`, is never charged.  Below {lit}`2^32` words nothing wraps: each charge is
the difference of the fees, {lit}`lastGasCost` is the fee of the memory's words,
and the gas a run of steps charges for memory is the fee of its last size.

Main results:

- Theorem {lit}`memoryGasCost_square_wraps`: at {lit}`2^37` bytes a fresh memory is
  charged {lit}`3 * 2^32` instead of {lit}`3 * 2^32 + 2^55`, inside the guard, and an
  {lit}`MLOAD` step of a frame charges that.
- Theorem {lit}`memoryGasCost_exact`: below {lit}`2^32` words every charge is the
  difference of the fees, and resizing keeps {lit}`lastGasCost` the fee of the
  memory's words.
- Theorem {lit}`memorySteps_gas`: over every run of memory steps below
  {lit}`2^32` words, the gas spent is the operations' constant gas plus the growth
  of the fee.
-/

namespace Uranus
namespace Vm

/-! ## The model -/

/-- The errors of the interpreter that memory sizing raises. -/
inductive VmError
  | errGasUintOverflow
  | ErrOutOfGas
  deriving DecidableEq, Repr

def MaxUint64 : UInt64 := 18446744073709551615
def MemoryGas : UInt64 := 3
def QuadCoeffDiv : UInt64 := 512
def GasFastestStep : UInt64 := 3

/-- {lit}`vm.Memory`: the bytes of a frame's memory and the fee charged last. -/
structure Memory where
  store : List UInt8
  lastGasCost : UInt64
  deriving DecidableEq, Repr

def NewMemory : Memory := ⟨[], 0⟩

def Memory.Len (m : Memory) : Nat := m.store.length

/-- {lit}`Memory.Resize`: zero bytes appended up to {lit}`size`. -/
def Memory.Resize (m : Memory) (size : UInt64) : Memory :=
  if m.Len.toUInt64 < size then
    { m with store := m.store ++ List.replicate (size - m.Len.toUInt64).toNat 0 }
  else m

/-- {lit}`toWordSize`: the words that hold {lit}`size` bytes, rounded up. -/
def toWordSize (size : UInt64) : UInt64 :=
  if size > MaxUint64 - 31 then MaxUint64 / 32 + 1 else (size + 31) / 32

/-- {lit}`memoryGasCost`: the fee of the new size less the fee charged last, with
{lit}`lastGasCost` set to the new fee; the memory is passed back for the pointer the
source writes through. -/
def memoryGasCost (mem : Memory) (newMemSize : UInt64) : Except VmError (UInt64 × Memory) :=
  if newMemSize = 0 then .ok (0, mem)
  else if newMemSize > 0xffffffffe0 then .error .errGasUintOverflow
  else
    let newMemSizeWords := toWordSize newMemSize
    let newMemSize := newMemSizeWords * 32
    if newMemSize > mem.Len.toUInt64 then
      let square := newMemSizeWords * newMemSizeWords
      let linCoef := newMemSizeWords * MemoryGas
      let quadCoef := square / QuadCoeffDiv
      let newTotalFee := linCoef + quadCoef
      let fee := newTotalFee - mem.lastGasCost
      .ok (fee, { mem with lastGasCost := newTotalFee })
    else .ok (0, mem)

/-- {lit}`math.SafeAdd`: the wrapped sum and whether it wrapped. -/
def SafeAdd (x y : UInt64) : UInt64 × Bool := (x + y, y > MaxUint64 - x)

/-- {lit}`math.SafeMul`: the wrapped product and whether it wrapped. -/
def SafeMul (x y : UInt64) : UInt64 × Bool :=
  if x = 0 ∨ y = 0 then (0, false) else (x * y, y > MaxUint64 / x)

/-- {lit}`bigUint64`: the low 64 bits of a non-negative value and whether it needs more. -/
def bigUint64 (v : Nat) : UInt64 × Bool := (v.toUInt64, v.size > 64)

/-- The gas functions of the operations that only touch memory ({lit}`gasMLoad`,
{lit}`gasMStore`, {lit}`gasMStore8`): the memory fee plus a constant. -/
def gasMemory (c : UInt64) (mem : Memory) (memorySize : UInt64) :
    Except VmError (UInt64 × Memory) :=
  match memoryGasCost mem memorySize with
  | .error _ => .error .errGasUintOverflow
  | .ok (gas, mem) =>
    let (gas, overflow) := SafeAdd gas c
    if overflow then .error .errGasUintOverflow else .ok (gas, mem)

def gasMLoad : Memory → UInt64 → Except VmError (UInt64 × Memory) := gasMemory GasFastestStep

def gasMStore : Memory → UInt64 → Except VmError (UInt64 × Memory) := gasMemory GasFastestStep

def gasMStore8 : Memory → UInt64 → Except VmError (UInt64 × Memory) := gasMemory GasFastestStep

/-- The part of a frame that memory sizing reads and writes: the memory and the
contract's gas. -/
structure Frame where
  mem : Memory
  gas : UInt64

/-- The memory sizing of one iteration of {lit}`Interpreter.Run`, for an operation with
gas function {lit}`gasCost` that needs {lit}`memSize` bytes: the size rounded to words,
the operation's gas taken with {lit}`UseGas`, and the memory resized.  The result is
the gas charged and the frame after. -/
def memoryStep (gasCost : Memory → UInt64 → Except VmError (UInt64 × Memory)) (f : Frame)
    (memSize : Nat) : Except VmError (UInt64 × Frame) :=
  let (memSize, overflow) := bigUint64 memSize
  if overflow then .error .errGasUintOverflow
  else
    let (memorySize, overflow) := SafeMul (toWordSize memSize) 32
    if overflow then .error .errGasUintOverflow
    else
      match gasCost f.mem memorySize with
      | .error _ => .error .ErrOutOfGas
      | .ok (cost, mem) =>
        if f.gas < cost then .error .ErrOutOfGas
        else .ok (cost, ⟨if memorySize > 0 then mem.Resize memorySize else mem, f.gas - cost⟩)

/-- Steps of one frame through operations with the gas function {lit}`gasMemory c`. -/
def memorySteps (c : UInt64) (f : Frame) (sizes : List Nat) : Except VmError Frame :=
  sizes.foldlM (fun f s => Prod.snd <$> memoryStep (gasMemory c) f s) f

/-! ## The fee -/

/-- The fee of a memory of {lit}`w` words, computed without wrapping. -/
def memCost (w : Nat) : Nat := w * 3 + w * w / 512

/-- The memory cost grows with the number of words. -/
theorem memCost_mono {w w' : Nat} (h : w ≤ w') : memCost w ≤ memCost w' := by
  unfold memCost
  have := Nat.div_le_div_right (c := 512) (Nat.mul_le_mul h h)
  omega

/-! ## The square that wraps -/

/-- At {lit}`2^37` bytes, inside the guard, the square of the {lit}`2^32` words wraps to
zero: a fresh memory is charged {lit}`3 * 2^32`, while the growth of the fee is
{lit}`3 * 2^32 + 2^55`.  An {lit}`MLOAD` that needs the {lit}`2^37` bytes, first in a
frame with {lit}`2^40` gas, is charged that fee and leaves it as {lit}`lastGasCost`. -/
theorem memoryGasCost_square_wraps :
    ¬(2 ^ 37 : UInt64) > 0xffffffffe0 ∧
      memoryGasCost NewMemory (2 ^ 37) = .ok (3 * 2 ^ 32, ⟨[], 3 * 2 ^ 32⟩) ∧
      memCost ((2 ^ 37 + 31) / 32) - memCost (NewMemory.Len / 32) = 3 * 2 ^ 32 + 2 ^ 55 ∧
      (memoryStep gasMLoad ⟨NewMemory, 2 ^ 40⟩ (2 ^ 37)).map
          (fun r => (r.1, r.2.gas, r.2.mem.lastGasCost)) =
        .ok (3 * 2 ^ 32 + 3, 2 ^ 40 - (3 * 2 ^ 32 + 3), 3 * 2 ^ 32) :=
  ⟨by decide, rfl, rfl, rfl⟩

/-! ## What nothing wraps below {lit}`2^32` words -/

/-- A memory whose size is whole words, below {lit}`2^32` of them, with the fee of its
words recorded as the fee charged last. -/
def MemInv (m : Memory) : Prop :=
  m.Len % 32 = 0 ∧ m.Len / 32 < 2 ^ 32 ∧ m.lastGasCost.toNat = memCost (m.Len / 32)

/-- A natural number below {lit}`2^64` survives the cast to {lit}`uint64`. -/
theorem toNat_toUInt64 {n : Nat} (h : n < 2 ^ 64) : n.toUInt64.toNat = n := by
  rw [Nat.toUInt64, UInt64.toNat_ofNat', Nat.mod_eq_of_lt h]

/-- {lit}`toWordSize` rounds up to words when the sum does not wrap. -/
theorem toWordSize_toNat {s : UInt64} (h : s.toNat + 31 < 2 ^ 64) :
    (toWordSize s).toNat = (s.toNat + 31) / 32 := by
  have hle : ¬s > MaxUint64 - 31 := by
    rw [gt_iff_lt, UInt64.lt_iff_toNat_lt, UInt64.toNat_sub_of_le _ _ (by decide)]
    simp only [MaxUint64, UInt64.reduceToNat]
    omega
  rw [toWordSize, if_neg hle, UInt64.toNat_div, UInt64.toNat_add, Nat.mod_eq_of_lt (by simpa using h)]
  rfl

/-- The new fee, computed in {lit}`uint64` from fewer than {lit}`2^32` words, is
{lit}`memCost` of them. -/
theorem newTotalFee_toNat {w : UInt64} (hw : w.toNat < 2 ^ 32) :
    (w * MemoryGas + w * w / QuadCoeffDiv).toNat = memCost w.toNat := by
  have hsq : w.toNat * w.toNat < 2 ^ 64 := by
    calc w.toNat * w.toNat < 2 ^ 32 * 2 ^ 32 := Nat.mul_lt_mul'' hw hw
      _ = 2 ^ 64 := by norm_num
  have hmul : (w * w).toNat = w.toNat * w.toNat := by
    rw [UInt64.toNat_mul, Nat.mod_eq_of_lt hsq]
  have hlin : (w * MemoryGas).toNat = w.toNat * 3 := by
    rw [UInt64.toNat_mul, Nat.mod_eq_of_lt (by simp only [MemoryGas, UInt64.reduceToNat]; omega)]
    rfl
  have hquad : (w * w / QuadCoeffDiv).toNat = w.toNat * w.toNat / 512 := by
    rw [UInt64.toNat_div, hmul]
    rfl
  have hbound : w.toNat * 3 + w.toNat * w.toNat / 512 < 2 ^ 64 := by
    have := Nat.div_le_div_right (c := 512) hsq.le
    omega
  rw [UInt64.toNat_add, hlin, hquad, Nat.mod_eq_of_lt hbound]
  rfl

/-- {lit}`memoryGasCost` on a memory of whole words below {lit}`2^32` and a size below
{lit}`2^32` words: the fee is the growth of {lit}`memCost` up to the larger of the two
word counts, which {lit}`lastGasCost` records after, and the bytes are untouched. -/
theorem memoryGasCost_exact {m : Memory} (hm : MemInv m) {s : UInt64}
    (hs : s.toNat + 31 < 2 ^ 37) :
    ∃ fee m', memoryGasCost m s = .ok (fee, m') ∧ m'.store = m.store ∧
      fee.toNat = memCost (max (m.Len / 32) ((s.toNat + 31) / 32)) - memCost (m.Len / 32) ∧
      m'.lastGasCost.toNat = memCost (max (m.Len / 32) ((s.toNat + 31) / 32)) := by
  obtain ⟨hLen, hwords, hlast⟩ := hm
  have hLenU : m.Len.toUInt64.toNat = m.Len := toNat_toUInt64 (by omega)
  by_cases hs0 : s = 0
  · -- a zero size charges nothing
    subst hs0
    refine ⟨0, m, by rw [memoryGasCost, if_pos rfl], rfl, ?_, ?_⟩ <;>
      simp [hlast]
  have hguard : ¬s > 0xffffffffe0 := by
    rw [gt_iff_lt, UInt64.lt_iff_toNat_lt]
    simp only [UInt64.reduceToNat]
    omega
  have hw := toWordSize_toNat (s := s) (by omega)
  have hsize : (toWordSize s * 32).toNat = (s.toNat + 31) / 32 * 32 := by
    rw [UInt64.toNat_mul, hw, Nat.mod_eq_of_lt (by simp only [UInt64.reduceToNat]; omega)]
    rfl
  by_cases hgrow : toWordSize s * 32 > m.Len.toUInt64
  · -- the memory grows: the new fee, less the one recorded
    rw [gt_iff_lt, UInt64.lt_iff_toNat_lt, hsize, hLenU] at hgrow
    have hfee := newTotalFee_toNat (w := toWordSize s) (by omega)
    have hmax : max (m.Len / 32) ((s.toNat + 31) / 32) = (s.toNat + 31) / 32 := by omega
    have hmono : memCost (m.Len / 32) ≤ memCost ((s.toNat + 31) / 32) := memCost_mono (by omega)
    refine ⟨toWordSize s * MemoryGas + toWordSize s * toWordSize s / QuadCoeffDiv - m.lastGasCost,
      { m with lastGasCost := toWordSize s * MemoryGas + toWordSize s * toWordSize s / QuadCoeffDiv },
      ?_, rfl, ?_, ?_⟩
    · rw [memoryGasCost, if_neg hs0, if_neg hguard, if_pos (by
        rw [gt_iff_lt, UInt64.lt_iff_toNat_lt, hsize, hLenU]; exact hgrow)]
    · rw [UInt64.toNat_sub_of_le _ _ (by rw [UInt64.le_iff_toNat_le, hfee, hlast, hw]; exact hmono),
        hfee, hlast, hw, hmax]
    · rw [hfee, hw, hmax]
  · -- the memory holds the size already: nothing is charged
    have hmax : max (m.Len / 32) ((s.toNat + 31) / 32) = m.Len / 32 := by
      rw [gt_iff_lt, UInt64.lt_iff_toNat_lt, hsize, hLenU] at hgrow
      omega
    refine ⟨0, m, ?_, rfl, ?_, ?_⟩
    · rw [memoryGasCost, if_neg hs0, if_neg hguard, if_neg hgrow]
    · rw [hmax]
      simp
    · rw [hmax, hlast]

/-! ## One step of a frame -/

/-- {lit}`Resize` grows the memory to the size asked for, and never shrinks it. -/
theorem Resize_Len (m : Memory) (size : UInt64) (h : m.Len < 2 ^ 64) :
    (m.Resize size).Len = max m.Len size.toNat := by
  have hLenU : m.Len.toUInt64.toNat = m.Len := toNat_toUInt64 h
  unfold Memory.Resize
  split_ifs with hlt
  · rw [UInt64.lt_iff_toNat_lt, hLenU] at hlt
    simp only [Memory.Len, List.length_append, List.length_replicate] at hlt hLenU ⊢
    rw [UInt64.toNat_sub_of_le _ _ (by rw [UInt64.le_iff_toNat_le, hLenU]; omega), hLenU]
    omega
  · rw [UInt64.lt_iff_toNat_lt, hLenU] at hlt
    omega

/-- {lit}`Resize` keeps the last gas cost. -/
@[simp]
theorem Resize_lastGasCost (m : Memory) (size : UInt64) :
    (m.Resize size).lastGasCost = m.lastGasCost := by
  unfold Memory.Resize
  split_ifs <;> rfl

/-- {lit}`bigUint64` of a value below {lit}`2^64` is the value, without overflow. -/
theorem bigUint64_of_lt {v : Nat} (h : v < 2 ^ 64) : bigUint64 v = (v.toUInt64, false) := by
  have : ¬v.size > 64 := not_lt.mpr (Nat.size_le.mpr h)
  simp [bigUint64, this]

/-- Rounding to words never overflows below {lit}`2^59` words. -/
theorem SafeMul_words {w : UInt64} (hw : w.toNat < 2 ^ 59) :
    (SafeMul w 32).2 = false ∧ (SafeMul w 32).1.toNat = w.toNat * 32 := by
  have hmul : (w * 32).toNat = w.toNat * 32 := by
    rw [UInt64.toNat_mul, Nat.mod_eq_of_lt (by simp only [UInt64.reduceToNat]; omega)]
    rfl
  unfold SafeMul
  by_cases hw0 : w = 0
  · subst hw0
    simp
  · have hpos : 0 < w.toNat := by
      rw [Nat.pos_iff_ne_zero]
      exact fun h => hw0 (UInt64.toNat_inj.mp (by rw [h]; rfl))
    have hdiv : ¬(32 : UInt64) > MaxUint64 / w := by
      rw [gt_iff_lt, UInt64.lt_iff_toNat_lt, UInt64.toNat_div]
      simp only [MaxUint64, UInt64.reduceToNat, not_lt]
      rw [Nat.le_div_iff_mul_le hpos]
      omega
    rw [if_neg (by simpa using hw0)]
    exact ⟨by simpa using hdiv, hmul⟩

/-- {lit}`SafeAdd` without overflow is the sum. -/
theorem SafeAdd_toNat {x y : UInt64} (h : (SafeAdd x y).2 = false) :
    (SafeAdd x y).1.toNat = x.toNat + y.toNat := by
  simp only [SafeAdd, decide_eq_false_iff_not, gt_iff_lt] at h ⊢
  rw [UInt64.lt_iff_toNat_lt, UInt64.toNat_sub_of_le _ _ (UInt64.le_iff_toNat_le.mpr
    (by simp only [MaxUint64, UInt64.reduceToNat]; exact Nat.le_of_lt_succ x.toNat_lt))] at h
  simp only [MaxUint64, UInt64.reduceToNat] at h
  have hx := x.toNat_lt
  rw [UInt64.toNat_add, Nat.mod_eq_of_lt (by omega)]

/-- A gas function of {lit}`gasMemory` that succeeds added its constant to the memory
fee without wrapping. -/
theorem gasMemory_ok {c cost : UInt64} {m m' : Memory} {s : UInt64}
    (h : gasMemory c m s = .ok (cost, m')) :
    ∃ fee, memoryGasCost m s = .ok (fee, m') ∧ cost.toNat = fee.toNat + c.toNat := by
  unfold gasMemory at h
  cases hm : memoryGasCost m s with
  | error e => simp [hm] at h
  | ok r =>
    obtain ⟨fee, m₁⟩ := r
    simp only [hm] at h
    by_cases hov : (SafeAdd fee c).2 = true
    · simp [hov] at h
    · simp only [Bool.not_eq_true] at hov
      simp only [hov, Bool.false_eq_true, if_false, Except.ok.injEq, Prod.mk.injEq] at h
      obtain ⟨rfl, rfl⟩ := h
      exact ⟨fee, rfl, SafeAdd_toNat hov⟩

/-- A step of {lit}`Interpreter.Run` that succeeds, for a size below {lit}`2^64`: the
gas function ran at the size rounded to words, the gas was there, and the memory was
resized to that size. -/
theorem memoryStep_ok {g : Memory → UInt64 → Except VmError (UInt64 × Memory)} {f f' : Frame}
    {memSize : Nat} {cost : UInt64} (hs : memSize + 31 < 2 ^ 64)
    (h : memoryStep g f memSize = .ok (cost, f')) :
    ∃ mem, g f.mem (toWordSize memSize.toUInt64 * 32) = .ok (cost, mem) ∧ cost ≤ f.gas ∧
      f'.gas = f.gas - cost ∧
      f'.mem = if toWordSize memSize.toUInt64 * 32 > 0 then mem.Resize (toWordSize memSize.toUInt64 * 32)
        else mem := by
  have hU : memSize.toUInt64.toNat = memSize := toNat_toUInt64 (by omega)
  have hw := toWordSize_toNat (s := memSize.toUInt64) (by omega)
  obtain ⟨hov, hmul⟩ := SafeMul_words (w := toWordSize memSize.toUInt64) (by omega)
  have hmul' : (SafeMul (toWordSize memSize.toUInt64) 32).1 = toWordSize memSize.toUInt64 * 32 := by
    apply UInt64.toNat_inj.mp
    rw [hmul, UInt64.toNat_mul, Nat.mod_eq_of_lt (by simp only [UInt64.reduceToNat]; omega)]
    rfl
  unfold memoryStep at h
  rw [bigUint64_of_lt (by omega)] at h
  simp only [Bool.false_eq_true, if_false] at h
  rw [hov, hmul'] at h
  simp only [Bool.false_eq_true, if_false] at h
  cases hg : g f.mem (toWordSize memSize.toUInt64 * 32) with
  | error e => simp [hg] at h
  | ok r =>
    obtain ⟨cost₁, mem⟩ := r
    simp only [hg] at h
    by_cases hlt : f.gas < cost₁
    · simp [hlt] at h
    · simp only [hlt, if_false, Except.ok.injEq, Prod.mk.injEq] at h
      obtain ⟨rfl, rfl⟩ := h
      rw [UInt64.lt_iff_toNat_lt] at hlt
      exact ⟨mem, rfl, UInt64.le_iff_toNat_le.mpr (by omega), rfl, rfl⟩

/-- One step of a frame through an operation of {lit}`gasMemory c`, below {lit}`2^32`
words: the memory grows to the step's words, stays an invariant memory, and the step
is charged the growth of the fee and the constant. -/
theorem memoryStep_gasMemory {c cost : UInt64} {f f' : Frame} {memSize : Nat}
    (hm : MemInv f.mem) (hs : memSize + 31 < 2 ^ 37)
    (h : memoryStep (gasMemory c) f memSize = .ok (cost, f')) :
    MemInv f'.mem ∧ f'.mem.Len / 32 = max (f.mem.Len / 32) ((memSize + 31) / 32) ∧
      cost.toNat = memCost (f'.mem.Len / 32) - memCost (f.mem.Len / 32) + c.toNat ∧
      f'.gas.toNat + cost.toNat = f.gas.toNat := by
  obtain ⟨mem, hg, hle, hgas, hmem⟩ := memoryStep_ok (by omega) h
  have hU : memSize.toUInt64.toNat = memSize := toNat_toUInt64 (by omega)
  have hw := toWordSize_toNat (s := memSize.toUInt64) (by omega)
  -- the size the interpreter rounds to, which {lit}`memoryGasCost` rounds to the same words
  have hS : (toWordSize memSize.toUInt64 * 32).toNat = (memSize + 31) / 32 * 32 := by
    rw [UInt64.toNat_mul, hw, hU, Nat.mod_eq_of_lt (by simp only [UInt64.reduceToNat]; omega)]
    rfl
  obtain ⟨fee, hfee, hcost⟩ := gasMemory_ok hg
  obtain ⟨fee', mem', hfee', hstore, hfeeval, hlast⟩ :=
    memoryGasCost_exact hm (s := toWordSize memSize.toUInt64 * 32) (by rw [hS]; omega)
  rw [hfee'] at hfee
  obtain ⟨rfl, rfl⟩ := Prod.mk.inj (Except.ok.inj hfee)
  rw [hS, show ((memSize + 31) / 32 * 32 + 31) / 32 = (memSize + 31) / 32 by omega] at hfeeval hlast
  have hLen : mem'.Len = f.mem.Len := by rw [Memory.Len, hstore]; rfl
  obtain ⟨hmod, hwords, -⟩ := hm
  -- the memory after the step holds the larger of the two sizes
  have hLen' : f'.mem.Len = max f.mem.Len ((memSize + 31) / 32 * 32) := by
    rw [hmem]
    split_ifs with hpos
    · rw [Resize_Len _ _ (by omega), hLen, hS]
    · rw [gt_iff_lt, UInt64.lt_iff_toNat_lt, hS] at hpos
      simp only [UInt64.reduceToNat] at hpos
      rw [hLen]
      omega
  have hlast' : f'.mem.lastGasCost = mem'.lastGasCost := by
    rw [hmem]
    split_ifs <;> simp
  have hdiv : f'.mem.Len / 32 = max (f.mem.Len / 32) ((memSize + 31) / 32) := by
    rw [hLen']
    omega
  refine ⟨⟨by rw [hLen']; omega, by rw [hdiv]; omega, by rw [hlast', hlast, hdiv]⟩, hdiv, ?_, ?_⟩
  · rw [hcost, hfeeval, hdiv]
  · rw [hgas, UInt64.toNat_sub_of_le _ _ hle]
    have := UInt64.le_iff_toNat_le.mp hle
    omega

/-- Over every run of memory steps of one frame below {lit}`2^32` words, from an
invariant memory: the memory stays invariant, and the gas spent is the growth of the
fee plus the constant of each step. -/
theorem memorySteps_gas {c : UInt64} {f f' : Frame} {sizes : List Nat} (hm : MemInv f.mem)
    (hs : ∀ s ∈ sizes, s + 31 < 2 ^ 37) (h : memorySteps c f sizes = .ok f') :
    MemInv f'.mem ∧
      f'.gas.toNat + memCost (f'.mem.Len / 32) + sizes.length * c.toNat =
        f.gas.toNat + memCost (f.mem.Len / 32) := by
  -- the invariant of the fold: an invariant memory, and the gas spent so far accounted for
  have := Lib.foldlM_except_inv (fun f s => Prod.snd <$> memoryStep (gasMemory c) f s)
    (fun done g => MemInv g.mem ∧
      g.gas.toNat + memCost (g.mem.Len / 32) + done.length * c.toNat =
        f.gas.toNat + memCost (f.mem.Len / 32))
    sizes [] f f' ⟨hm, by simp⟩ ?_ h
  · simpa using this
  intro done s rest g₁ g₂ heq ⟨hg₁, hacc⟩ hstep
  have hsmem : s ∈ sizes := by
    rw [List.nil_append] at heq
    rw [← heq]
    simp
  cases hr : memoryStep (gasMemory c) g₁ s with
  | error e => simp [hr] at hstep
  | ok r =>
    obtain ⟨cost, g⟩ := r
    simp only [hr, Functor.map, Except.map, Except.ok.injEq] at hstep
    subst hstep
    obtain ⟨hinv, hdiv, hcost, hgas⟩ := memoryStep_gasMemory hg₁ (hs s hsmem) hr
    have hmono : memCost (g₁.mem.Len / 32) ≤ memCost (g.mem.Len / 32) :=
      memCost_mono (by rw [hdiv]; exact le_max_left _ _)
    refine ⟨hinv, ?_⟩
    rw [List.length_append, List.length_singleton, Nat.add_mul, one_mul]
    omega

/-- Two steps from a fresh memory, to two words and back to one: nine and three gas, the
fee of two words and the constants. -/
theorem memorySteps_gas_two_words :
    MemInv NewMemory ∧ (∀ s ∈ [64, 32], s + 31 < 2 ^ 37) ∧
      memorySteps 3 ⟨NewMemory, 1000⟩ [64, 32] = .ok ⟨⟨List.replicate 64 0, 6⟩, 988⟩ ∧
      MemInv (⟨List.replicate 64 0, 6⟩ : Memory) ∧
      (988 : UInt64).toNat + memCost ((⟨List.replicate 64 0, 6⟩ : Memory).Len / 32) + 2 * 3 =
        (1000 : UInt64).toNat + memCost (NewMemory.Len / 32) := by
  have hinv : MemInv NewMemory := ⟨rfl, by decide, rfl⟩
  have hs : ∀ s ∈ [64, 32], s + 31 < 2 ^ 37 := by decide
  have hrun : memorySteps 3 ⟨NewMemory, 1000⟩ [64, 32] = .ok ⟨⟨List.replicate 64 0, 6⟩, 988⟩ := rfl
  exact ⟨hinv, hs, hrun, memorySteps_gas hinv hs hrun⟩

end Vm
end Uranus
