import Gem5.Lib.Check

/-!
# Machine arithmetic

Addresses, ticks and counters are the 64-bit unsigned integers of
`base/types.hh`. They are natural numbers here; an operation that can wrap
says so with `wrap64`.
-/

namespace Gem5

def wrap64 (n : Nat) : Nat := n % 2 ^ 64

def int32 (n : Nat) : Int := (BitVec.ofNat 32 n).toInt

def unsigned32 (n : Int) : Nat := (n % 2 ^ 32).toNat

theorem unsigned32_natCast {n : Nat} (h : n < 2 ^ 32) : unsigned32 n = n := by
  rw [unsigned32]
  omega

theorem int32_of_lt (h : n < 2 ^ 31) : int32 n = n := by
  rw [int32, BitVec.toInt_eq_toNat_of_lt (by rw [BitVec.toNat_ofNat]; omega), BitVec.toNat_ofNat]
  omega

def lastByte (start size : Nat) : Nat := wrap64 (start + size + (2 ^ 64 - 1))

theorem lastByte_eq (h : start + size ≤ 2 ^ 64) (hs : 1 ≤ size) :
    lastByte start size = start + size - 1 := by
  simp only [lastByte, wrap64]
  omega

/-- The cycle of the first clock edge at or after `now` (`ClockedObject::curCycle`). -/
def curCycle (clock now : Nat) : Nat := (now + clock - 1) / clock

/-- The tick of the clock edge `cycles` after that one (`ClockedObject::clockEdge`). -/
def clockEdge (clock now cycles : Nat) : Nat := curCycle clock now * clock + clock * cycles

theorem le_clockEdge (h : 0 < clock) : now ≤ clockEdge clock now cycles := by
  have hm := Nat.div_add_mod (now + clock - 1) clock
  have hl := Nat.mod_lt (now + clock - 1) h
  have hc : (now + clock - 1) / clock * clock = clock * ((now + clock - 1) / clock) := Nat.mul_comm ..
  simp only [clockEdge, curCycle]
  omega

theorem clockEdge_pos (h : 0 < clock) (hlater : 0 < cycles ∨ 0 < now) :
    0 < clockEdge clock now cycles := by
  rcases hlater with hcycles | hnow
  · exact Nat.add_pos_right _ (Nat.mul_pos h hcycles)
  · exact hnow.trans_le (le_clockEdge h)

/-- `n & ~(n - 1)` on an `unsigned` (`base/intmath.hh`). -/
def leastSigBit (n : Nat) : Nat := n &&& (2 ^ 32 - 1 - (n - 1))

def isPowerOf2 (n : Nat) : Bool := n != 0 && leastSigBit n == n

theorem isPowerOf2_spec (h : isPowerOf2 n = true) (hn : n < 2 ^ 32) : ∃ k, n = 2 ^ k := by
  simp only [isPowerOf2, Bool.and_eq_true, bne_iff_ne, ne_eq, beq_iff_eq] at h
  obtain ⟨h0, hbit⟩ := h
  refine (Nat.and_sub_one_eq_zero_iff_isPowerOfTwo h0).mp (Nat.eq_of_testBit_eq fun i => ?_)
  have hmask : 2 ^ 32 - 1 - (n - 1) = 2 ^ 32 - (n - 1 + 1) := by omega
  have hi := congrArg (·.testBit i) hbit
  simp only [leastSigBit, hmask, Nat.testBit_and,
    Nat.testBit_two_pow_sub_succ (show n - 1 < 2 ^ 32 by omega)] at hi
  rw [Nat.testBit_and, Nat.zero_testBit]
  revert hi
  cases n.testBit i <;> cases (n - 1).testBit i <;> simp

theorem isPowerOf2_log2 (h : isPowerOf2 n = true) (hn : n < 2 ^ 32) : n = 2 ^ n.log2 := by
  obtain ⟨k, rfl⟩ := isPowerOf2_spec h hn
  rw [Nat.log2_two_pow]

theorem and_not_lowBits (hk : k ≤ 64) (h : addr < 2 ^ 64) :
    addr &&& (2 ^ 64 - 1 - (2 ^ k - 1)) = addr >>> k <<< k := by
  have hpow : 2 ^ k ≤ 2 ^ 64 := Nat.pow_le_pow_right (by decide) hk
  have hmask : 2 ^ 64 - 1 - (2 ^ k - 1) = 2 ^ 64 - (2 ^ k - 1 + 1) := by omega
  refine Nat.eq_of_testBit_eq fun i => ?_
  rw [hmask, Nat.testBit_and, Nat.testBit_two_pow_sub_succ (by omega), Nat.testBit_two_pow_sub_one,
    Nat.testBit_shiftLeft, Nat.testBit_shiftRight]
  by_cases hi : k ≤ i
  · by_cases hi' : i < 64
    · simp [hi, hi', Nat.not_lt.mpr hi]
    · have hbit : addr.testBit i = false := Nat.testBit_lt_two_pow
        (h.trans_le (Nat.pow_le_pow_right (by decide) (by omega)))
      simp [hi, hbit]
  · simp [hi, Nat.lt_of_not_le hi]

theorem shiftRight_shiftLeft_inj {a b k : Nat} :
    a >>> k <<< k = b >>> k <<< k ↔ a >>> k = b >>> k := by
  rw [Nat.shiftLeft_eq, Nat.shiftLeft_eq, Nat.mul_left_inj (Nat.two_pow_pos k).ne']

def memcpy (dst : Nat → UInt8) (o : Nat) (src : Nat → UInt8) (n : Nat) : Nat → UInt8 :=
  fun i => if o ≤ i ∧ i < o + n then src (i - o) else dst i

theorem memcpy_of_mem (h : o ≤ i) (h' : i < o + n) : memcpy dst o src n i = src (i - o) :=
  if_pos ⟨h, h'⟩

theorem memcpy_of_notMem (h : i < o ∨ o + n ≤ i) : memcpy dst o src n i = dst i :=
  if_neg (by omega)

open Lib in
/-- `EventQueue::schedule` on an event that is described by its tick. -/
def scheduleAt (event : Option Nat) (now tick : Nat) : Chk (Option Nat) := do
  ensure (now ≤ tick) "when >= curTick()"
  ensure event.isNone "!event->scheduled()"
  return some tick

open Lib in
theorem scheduleAt_none (h : now ≤ tick) : scheduleAt none now tick = .ok (some tick) := by
  simp only [scheduleAt, ensure, h, decide_true, Option.isNone_none, if_true, ok_bind]
  rfl

end Gem5
