import Gem5.Base.Types
import Mathlib.Data.Nat.Bitwise

/-!
# Chunks of a memory region

`ChunkGenerator` cuts a region into pieces that do not cross the border of a block.
-/

namespace Gem5

open Lib Nat

/-- `roundUp` on an address; the alignment is an `int` (`base/intmath.hh`). -/
def roundUp (val : Nat) (align : Int) : Nat :=
  let mask := ((align - 1) % 2 ^ 64).toNat
  wrap64 (val + mask) &&& (2 ^ 64 - 1 - mask)

structure ChunkGenerator where
  curAddr : Nat
  nextAddr : Nat
  curSize : Nat
  sizeLeft : Nat
  startAddr : Nat
  chunkSize : Nat

structure Chunk where
  addr : Nat
  size : Nat
  complete : Nat
  deriving DecidableEq

namespace ChunkGenerator

def firstNext (startAddr totalSize chunkSize : Nat) : Nat :=
  if chunkSize = 0 then wrap64 (startAddr + totalSize)
  else
    let nextAddr := roundUp startAddr (int32 chunkSize)
    if startAddr = nextAddr then wrap64 (nextAddr + chunkSize) else nextAddr

def create (startAddr totalSize chunkSize : Nat) : Chk ChunkGenerator := do
  ensure (chunkSize == 0 || isPowerOf2 chunkSize) "chunkSize == 0 || isPowerOf2(chunkSize)"
  let nextAddr := firstNext startAddr totalSize chunkSize
  let leftInChunk := unsigned32 (nextAddr - startAddr)
  let curSize := min totalSize leftInChunk
  return { curAddr := startAddr, nextAddr, curSize, sizeLeft := totalSize - curSize,
           startAddr, chunkSize }

def complete (g : ChunkGenerator) : Nat := unsigned32 (g.curAddr - g.startAddr)

def done (g : ChunkGenerator) : Bool := g.curSize == 0

def next (g : ChunkGenerator) : ChunkGenerator :=
  if g.sizeLeft = 0 then { g with curSize := 0 }
  else
    let curSize := min g.sizeLeft g.chunkSize
    { g with curAddr := g.nextAddr, curSize, sizeLeft := g.sizeLeft - curSize,
             nextAddr := wrap64 (g.nextAddr + curSize) }

/-- The chunks of the rounds of `for (; !gen.done(); gen.next())`, at most so many. -/
def chunks : Nat → ChunkGenerator → List Chunk
  | 0, _ => []
  | fuel + 1, g => if g.done then [] else ⟨g.curAddr, g.curSize, g.complete⟩ :: chunks fuel g.next

end ChunkGenerator

/-- The chunks of a region from an offset on: they follow each other to the end of the
region, and none crosses the border of a block. -/
def CoversRange (startAddr totalSize block : Nat) : Nat → List Chunk → Prop
  | offset, [] => offset = totalSize
  | offset, c :: cs => c.addr = wrap64 (startAddr + offset) ∧ c.complete = offset ∧ 0 < c.size ∧
      c.addr % block + c.size ≤ block ∧
      CoversRange startAddr totalSize block (offset + c.size) cs

namespace ChunkGenerator

variable {startAddr totalSize k offset : Nat} {g : ChunkGenerator}

theorem wrap64_of_lt (h : n < 2 ^ 64) : wrap64 n = n := mod_eq_of_lt h

theorem wrap64_mod (hk : k ≤ 64) (n : Nat) : wrap64 n % 2 ^ k = n % 2 ^ k :=
  mod_mod_of_dvd n (pow_dvd_pow 2 hk)

theorem roundUp_two_pow (hk : k ≤ 30) (val : Nat) :
    roundUp val (int32 (2 ^ k)) = wrap64 (val + (2 ^ k - 1)) / 2 ^ k * 2 ^ k := by
  have hpos := Nat.two_pow_pos k
  have hsmall : 2 ^ k ≤ 2 ^ 30 := Nat.pow_le_pow_right (by decide) hk
  have hmask : (((2 ^ k : Nat) - 1 : Int) % 2 ^ 64).toNat = 2 ^ k - 1 := by omega
  rw [int32_of_lt (by omega), roundUp, hmask,
    and_not_lowBits (by omega) (show wrap64 _ < 2 ^ 64 from Nat.mod_lt _ (by decide)),
    Nat.shiftLeft_eq, Nat.shiftRight_eq_div_pow]

theorem firstNext_eq (hk : k ≤ 30) (hstart : startAddr < 2 ^ 64) :
    firstNext startAddr totalSize (2 ^ k) = wrap64 (startAddr + (2 ^ k - startAddr % 2 ^ k)) := by
  have hpos := Nat.two_pow_pos k
  rw [firstNext, if_neg hpos.ne', roundUp_two_pow hk]
  obtain ⟨M, hM⟩ : ∃ M, 2 ^ 64 = 2 ^ k * M := Nat.pow_dvd_pow 2 (by omega)
  obtain ⟨q, r, hr, rfl⟩ : ∃ q r, r < 2 ^ k ∧ startAddr = 2 ^ k * q + r :=
    ⟨_, _, Nat.mod_lt startAddr hpos, (Nat.div_add_mod startAddr (2 ^ k)).symm⟩
  generalize 2 ^ k = B at *
  have hq : q < M := by
    by_contra hle
    have := Nat.mul_le_mul_left B (not_lt.mp hle)
    omega
  have hsucc : B * (q + 1) ≤ 2 ^ 64 := hM ▸ Nat.mul_le_mul_left B hq
  rw [Nat.mul_succ] at hsucc
  rw [Nat.mul_add_mod, Nat.mod_eq_of_lt hr]
  by_cases hzero : r = 0
  · have hdiv : (B * q + (B - 1)) / B = q := by
      rw [Nat.mul_add_div hpos, Nat.div_eq_of_lt (by omega), Nat.add_zero]
    rw [hzero, Nat.add_zero, wrap64_of_lt (show B * q + (B - 1) < 2 ^ 64 by omega), hdiv,
      Nat.mul_comm q B, if_pos rfl, Nat.sub_zero]
  · have hround : B * q + r + (B - 1) = B * (q + 1) + (r - 1) := by
      rw [Nat.mul_succ]
      omega
    have hnext : B * q + r + (B - r) = B * (q + 1) := by
      rw [Nat.mul_succ]
      omega
    rw [hround, hnext]
    rcases Nat.lt_or_eq_of_le (Nat.succ_le_of_lt hq) with hlt | heq
    · have hless : B * (q + 2) ≤ 2 ^ 64 := hM ▸ Nat.mul_le_mul_left B hlt
      rw [Nat.mul_add] at hless
      have hdiv : (B * (q + 1) + (r - 1)) / B = q + 1 := by
        rw [Nat.mul_add_div hpos, Nat.div_eq_of_lt (by omega), Nat.add_zero]
      rw [wrap64_of_lt (show B * (q + 1) + (r - 1) < 2 ^ 64 by omega), hdiv, Nat.mul_comm (q + 1) B,
        if_neg (by omega), wrap64_of_lt (show B * (q + 1) < 2 ^ 64 by omega)]
    · have hwrap : wrap64 (2 ^ 64 + (r - 1)) = r - 1 := by
        rw [wrap64]
        omega
      rw [show q + 1 = M from heq, ← hM, hwrap, Nat.div_eq_of_lt (show r - 1 < B by omega),
        Nat.zero_mul, if_neg (by omega)]
      rfl

structure At (g : ChunkGenerator) (startAddr totalSize k offset : Nat) : Prop where
  start : g.startAddr = startAddr
  block : g.chunkSize = 2 ^ k
  cur : g.curAddr = wrap64 (startAddr + offset)
  total : offset + g.curSize + g.sizeLeft = totalSize
  pos : 0 < g.curSize
  inside : g.curAddr % 2 ^ k + g.curSize ≤ 2 ^ k
  next : 0 < g.sizeLeft → g.nextAddr = wrap64 (startAddr + (offset + g.curSize)) ∧
    g.nextAddr % 2 ^ k = 0

theorem create_eq (startAddr totalSize : Nat) (hk : k < 32) :
    create startAddr totalSize (2 ^ k) = .ok {
      curAddr := startAddr, nextAddr := firstNext startAddr totalSize (2 ^ k),
      curSize := min totalSize (unsigned32 (firstNext startAddr totalSize (2 ^ k) - startAddr)),
      sizeLeft := totalSize -
        min totalSize (unsigned32 (firstNext startAddr totalSize (2 ^ k) - startAddr)),
      startAddr, chunkSize := 2 ^ k } := by
  have hpow : ∀ k < 32, isPowerOf2 (2 ^ k) = true := by decide
  rw [create, ensure_of (by rw [hpow k hk, Bool.or_true]), ok_bind]
  rfl

structure Finds (startAddr totalSize k : Nat) : Prop where
  left : unsigned32 (firstNext startAddr totalSize (2 ^ k) - startAddr) = 2 ^ k - startAddr % 2 ^ k
  next : 2 ^ k - startAddr % 2 ^ k < totalSize →
    firstNext startAddr totalSize (2 ^ k) = wrap64 (startAddr + (2 ^ k - startAddr % 2 ^ k))

theorem finds_small (hk : k ≤ 30) (hstart : startAddr < 2 ^ 64) : Finds startAddr totalSize k where
  left := by
    have hsmall : 2 ^ k ≤ 2 ^ 30 := Nat.pow_le_pow_right (by decide) hk
    rw [firstNext_eq hk hstart, wrap64, unsigned32]
    omega
  next _ := firstNext_eq hk hstart

theorem Finds.create (h : Finds startAddr totalSize k) (hk : k < 32) (hstart : startAddr < 2 ^ 64)
    (htotal : 1 ≤ totalSize) :
    ∃ g, create startAddr totalSize (2 ^ k) = .ok g ∧ g.At startAddr totalSize k 0 := by
  have hcreate := create_eq startAddr totalSize hk
  rw [h.left] at hcreate
  refine ⟨_, hcreate, rfl, rfl, ?_, ?_, ?_, ?_, fun hmore => ?_⟩
  all_goals dsimp only
  · rw [Nat.add_zero, wrap64, Nat.mod_eq_of_lt hstart]
  · omega
  · omega
  · omega
  · dsimp only at hmore
    rw [h.next (by omega), min_eq_right (by omega), Nat.zero_add]
    refine ⟨rfl, ?_⟩
    have hdiv := Nat.div_add_mod startAddr (2 ^ k)
    have hblocks : startAddr + (2 ^ k - startAddr % 2 ^ k) = 2 ^ k * (startAddr / 2 ^ k + 1) := by
      rw [Nat.mul_succ]
      omega
    rw [wrap64_mod (by omega), hblocks, Nat.mul_mod_right]

theorem next_spec (hk : k < 32) (h : g.At startAddr totalSize k offset) (hmore : 0 < g.sizeLeft) :
    g.next.At startAddr totalSize k (offset + g.curSize) ∧
      g.next.curSize + g.next.sizeLeft = g.sizeLeft := by
  obtain ⟨hnext, haligned⟩ := h.next hmore
  have htotal := h.total
  rw [ChunkGenerator.next, if_neg hmore.ne', h.block]
  refine ⟨⟨h.start, rfl, hnext, ?_, ?_, ?_, fun hmore' => ?_⟩, ?_⟩
  all_goals dsimp only
  · omega
  · omega
  · omega
  · dsimp only at hmore'
    rw [min_eq_right (by omega), hnext]
    refine ⟨?_, ?_⟩
    · rw [wrap64, wrap64, wrap64, Nat.mod_add_mod, Nat.add_assoc]
    · rw [wrap64_mod (by omega), Nat.add_mod_right, ← hnext, haligned]
  · omega

theorem complete_eq (h : g.At startAddr totalSize k offset) (htotal : totalSize < 2 ^ 32) :
    g.complete = offset := by
  have hsum := h.total
  rw [complete, h.cur, h.start, wrap64, unsigned32]
  omega

theorem done_iterate (hsize : g.curSize = 0) (hleft : g.sizeLeft = 0) (n : Nat) :
    (next^[n] g).done = true := by
  induction n generalizing g with
  | zero => simp [done, hsize]
  | succ n ih => exact ih (by rw [next, if_pos hleft]) (by rw [next, if_pos hleft, hleft])

theorem chunks_next_nil (hlast : g.sizeLeft = 0) : ∀ fuel, chunks fuel g.next = []
  | 0 => rfl
  | fuel + 1 => by rw [chunks, next, if_pos hlast]; rfl

theorem chunks_cover (hk : k < 32) (htotal : totalSize < 2 ^ 32) :
    ∀ (fuel : Nat) (g : ChunkGenerator) (offset : Nat), g.At startAddr totalSize k offset →
      g.curSize + g.sizeLeft < fuel →
      (next^[fuel] g).done = true ∧ CoversRange startAddr totalSize (2 ^ k) offset
      (chunks fuel g) := by
  intro fuel
  induction fuel with
  | zero =>
    intro g offset _ hfuel
    exact absurd hfuel (Nat.not_lt_zero _)
  | succ fuel ih =>
    intro g offset h hfuel
    have hpos := h.pos
    have hdone : g.done = false := by simpa [done] using hpos.ne'
    rw [chunks, hdone]
    suffices hrest : (next^[fuel] g.next).done = true ∧
        CoversRange startAddr totalSize (2 ^ k) (offset + g.curSize) (chunks fuel g.next) from
      ⟨hrest.1, h.cur, complete_eq h htotal, hpos, h.inside, hrest.2⟩
    rcases Nat.eq_zero_or_pos g.sizeLeft with hlast | hmore
    · have hsum := h.total
      rw [chunks_next_nil hlast]
      refine ⟨done_iterate (by rw [next, if_pos hlast]) (by rw [next, if_pos hlast, hlast]) fuel, ?_⟩
      show offset + g.curSize = totalSize
      omega
    · obtain ⟨hnext, hsum⟩ := next_spec hk h hmore
      exact ih g.next _ hnext (by omega)

theorem length_chunks (hk : k < 32) :
    ∀ (fuel : Nat) (g : ChunkGenerator) (offset : Nat), g.At startAddr totalSize k offset →
      g.curSize + g.sizeLeft < fuel → (chunks fuel g).length =
        (g.curAddr % 2 ^ k + (g.curSize + g.sizeLeft) + (2 ^ k - 1)) / 2 ^ k := by
  intro fuel
  induction fuel with
  | zero =>
    intro g offset _ hfuel
    exact absurd hfuel (Nat.not_lt_zero _)
  | succ fuel ih =>
    intro g offset h hfuel
    have hpos := h.pos
    have hinside := h.inside
    have hblock := Nat.two_pow_pos k
    have hdone : g.done = false := by simpa [done] using hpos.ne'
    rw [chunks, hdone, if_neg Bool.false_ne_true, List.length_cons]
    rcases Nat.eq_zero_or_pos g.sizeLeft with hlast | hmore
    · rw [chunks_next_nil hlast, hlast, List.length_nil, eq_comm, Nat.div_eq_iff hblock]
      omega
    · obtain ⟨hnext, hsum⟩ := next_spec hk h hmore
      obtain ⟨haddr, haligned⟩ := h.next hmore
      have hstart : g.next.curAddr % 2 ^ k = 0 := by
        rwa [next, if_neg hmore.ne']
      have hborder : (g.curAddr % 2 ^ k + g.curSize) % 2 ^ k = 0 := by
        rw [Nat.mod_add_mod, ← haligned, haddr, h.cur, wrap64_mod (by omega), Nat.add_mod,
          wrap64_mod (by omega), ← Nat.add_mod, Nat.add_assoc]
      have hfull : g.curAddr % 2 ^ k + g.curSize = 2 ^ k := by
        obtain ⟨m, hm⟩ := Nat.dvd_of_mod_eq_zero hborder
        rcases Nat.lt_or_ge m 2 with hlt | hge
        · interval_cases m <;> omega
        · have := Nat.mul_le_mul_left (2 ^ k) hge
          omega
      rw [ih g.next _ hnext (by omega), hstart, hsum, Nat.zero_add, ← Nat.add_assoc, hfull,
        Nat.add_assoc, Nat.add_div_left _ hblock]

/-! ### Every chunk size an `unsigned` can have

`roundUp` takes the alignment as an `int`, in which the largest power of two of an `unsigned` is
negative. -/

/-- The loop over the chunks ends, and they are the region cut at the borders of its blocks. A
chunk size of 0 leaves the region whole. -/
def Exact (startAddr totalSize chunkSize : Nat) : Prop :=
  ∃ g n, create startAddr totalSize chunkSize = .ok g ∧ (next^[n] g).done = true ∧
    if chunkSize = 0 then chunks n g = if totalSize = 0 then [] else [⟨startAddr, totalSize, 0⟩]
    else CoversRange startAddr totalSize chunkSize 0 (chunks n g)

/-- Blocks of half the range of an `unsigned` are found from their first border on only; beyond
it a region has to end in the block it begins in, and not begin with it. -/
def Reachable (startAddr totalSize : Nat) : Prop :=
  totalSize = 0 ∨ startAddr ≤ 2 ^ 31 ∨ startAddr % 2 ^ 31 ≠ 0 ∧ startAddr % 2 ^ 31 + totalSize ≤ 2 ^ 31

instance (startAddr totalSize : Nat) : Decidable (Reachable startAddr totalSize) :=
  inferInstanceAs (Decidable (_ ∨ _ ∨ _))

theorem roundUp_top (startAddr : Nat) :
    roundUp startAddr (int32 (2 ^ 31)) =
      if 0 < startAddr % 2 ^ 32 ∧ startAddr % 2 ^ 32 ≤ 2 ^ 31 then 2 ^ 31 else 0 := by
  have hmask : ((int32 (2 ^ 31) - 1) % 2 ^ 64).toNat = 2 ^ 64 - 1 - 2 ^ 31 := by decide
  rw [roundUp, hmask, show 2 ^ 64 - 1 - (2 ^ 64 - 1 - 2 ^ 31) = 2 ^ 31 from rfl, and_two_pow,
    testBit_eq_decide_div_mod_eq, wrap64]
  split <;> rename_i hcond
  · rw [decide_eq_true (by omega)]
    rfl
  · rw [decide_eq_false (by omega)]
    rfl

theorem firstNext_top (startAddr totalSize : Nat) :
    firstNext startAddr totalSize (2 ^ 31) = if startAddr = 0 ∨ startAddr = 2 ^ 31 then
      startAddr + 2 ^ 31
      else if 0 < startAddr % 2 ^ 32 ∧ startAddr % 2 ^ 32 ≤ 2 ^ 31 then 2 ^ 31 else 0 := by
  rw [firstNext, if_neg (Nat.two_pow_pos 31).ne', roundUp_top]
  by_cases hcond : 0 < startAddr % 2 ^ 32 ∧ startAddr % 2 ^ 32 ≤ 2 ^ 31
  · simp only [if_pos hcond]
    by_cases hmid : startAddr = 2 ^ 31
    · rw [if_pos hmid, if_pos (.inr hmid), hmid]
      rfl
    · rw [if_neg hmid, if_neg (by omega)]
  · simp only [if_neg hcond]
    by_cases hzero : startAddr = 0
    · rw [if_pos hzero, if_pos (.inl hzero), hzero]
      rfl
    · rw [if_neg hzero, if_neg (by omega)]

theorem finds_top (hstart : startAddr < 2 ^ 64) (hpos : 1 ≤ totalSize)
    (h : Reachable startAddr totalSize) :
    Finds startAddr totalSize 31 := by
  simp only [Reachable] at h
  constructor <;> rw [firstNext_top] <;> simp only [unsigned32, wrap64] <;> split_ifs <;> omega

theorem finds (hk : k < 32) (hstart : startAddr < 2 ^ 64) (hpos : 1 ≤ totalSize)
    (h : 2 ^ k = 2 ^ 31 → Reachable startAddr totalSize) : Finds startAddr totalSize k := by
  rcases Nat.lt_or_eq_of_le (Nat.le_of_lt_succ hk) with hlt | rfl
  · exact finds_small (Nat.le_of_lt_succ hlt) hstart
  · exact finds_top hstart hpos (h rfl)

theorem covers_head {n : Nat} (h : CoversRange startAddr totalSize block offset (chunks n g))
    (hne : offset ≠ totalSize) :
    g.curAddr = wrap64 (startAddr + offset) ∧ g.curSize ≠ 0 ∧
      ∃ m, CoversRange startAddr totalSize block (offset + g.curSize) (chunks m g.next) := by
  cases n with
  | zero => exact absurd h hne
  | succ n =>
    rw [chunks] at h
    split at h
    · exact absurd h hne
    · exact ⟨h.1, h.2.2.1.ne', n, h.2.2.2.2⟩

theorem Exact.reachable (h : Exact startAddr totalSize (2 ^ 31)) (hstart : startAddr < 2 ^ 64)
    (hend : startAddr + totalSize ≤ 2 ^ 64) : Reachable startAddr totalSize := by
  obtain ⟨g, n, hg, -, hcovers⟩ := h
  rw [if_neg (Nat.two_pow_pos 31).ne'] at hcovers
  rw [create_eq _ _ (by decide)] at hg
  cases hg
  have hnext := firstNext_top startAddr totalSize
  generalize firstNext startAddr totalSize (2 ^ 31) = second at hcovers hnext
  by_contra hnot
  simp only [Reachable] at hnot
  -- the first chunk is not empty, so the region does not begin with a block
  obtain ⟨-, hsize, m, hrest⟩ := covers_head hcovers (by omega)
  dsimp only at hsize hrest
  have hborder : startAddr % 2 ^ 31 ≠ 0 := by
    rw [unsigned32, hnext] at hsize
    split_ifs at hsize <;> omega
  -- it does not reach the end, so the second is looked for at the wrong address
  have hleft : unsigned32 (second - startAddr) = 2 ^ 31 - startAddr % 2 ^ 31 := by
    rw [unsigned32, hnext]
    split_ifs <;> omega
  rw [hleft] at hrest
  obtain ⟨haddr, -⟩ := covers_head hrest (by omega)
  rw [next, if_neg (by dsimp only; omega)] at haddr
  dsimp only [wrap64] at haddr
  rw [hnext] at haddr
  split_ifs at haddr <;> omega

theorem exact_zero (htotal : totalSize < 2 ^ 32) : Exact startAddr totalSize 0 := by
  have hsize : min totalSize (unsigned32 (firstNext startAddr totalSize 0 - startAddr)) =
      totalSize := by
    rw [firstNext, if_pos rfl, wrap64, unsigned32]
    omega
  refine ⟨⟨startAddr, firstNext startAddr totalSize 0, totalSize, 0, startAddr, 0⟩, 1, ?_, rfl, ?_⟩
  · rw [create, ensure_of (by simp), ok_bind]
    dsimp only
    rw [hsize, Nat.sub_self]
    rfl
  · rw [if_pos rfl, chunks, chunks, done, complete]
    split_ifs <;> simp_all [unsigned32]

/-- The chunks are exact for each chunk size but the largest, and for that one where the blocks
are reachable. -/
theorem exact_iff {chunkSize : Nat} (hstart : startAddr < 2 ^ 64) (htotal : totalSize < 2 ^ 32)
    (hend : startAddr + totalSize ≤ 2 ^ 64) (hchunk : chunkSize = 0 ∨ ∃ k < 32, chunkSize = 2 ^ k) :
    Exact startAddr totalSize chunkSize ↔ (chunkSize = 2 ^ 31 → Reachable startAddr totalSize) := by
  refine ⟨fun h hc => Exact.reachable (hc ▸ h) hstart hend, fun h => ?_⟩
  rcases hchunk with rfl | ⟨k, hk, rfl⟩
  · exact exact_zero htotal
  · rcases Nat.eq_zero_or_pos totalSize with rfl | hpos
    · refine ⟨_, 0, create_eq _ _ hk, by simp [done], ?_⟩
      rw [if_neg (Nat.two_pow_pos k).ne']
      rfl
    · obtain ⟨g, hg, hat⟩ := (finds hk hstart hpos h).create hk hstart hpos
      obtain ⟨hdone, hcovers⟩ := chunks_cover hk htotal _ g 0 hat (Nat.lt_succ_self _)
      exact ⟨g, _, hg, hdone, by rwa [if_neg (Nat.two_pow_pos k).ne']⟩

/-- A region that begins with a block beyond the second gets no chunk, and one that goes on from
the second block to the third goes on at address 0. -/
theorem largest_chunk_fails :
    ¬ Exact (2 ^ 32) 1 (2 ^ 31) ∧ (create (2 ^ 32) 1 (2 ^ 31)).toOption.any (·.done) ∧
    (create (2 ^ 31 + 1) (2 ^ 31) (2 ^ 31)).toOption.map (chunks 3) =
      some [⟨2 ^ 31 + 1, 2 ^ 31 - 1, 0⟩, ⟨0, 1, 2 ^ 31 - 1⟩] := by
  refine ⟨fun h => ?_, by decide +kernel, by decide +kernel⟩
  have hreachable := h.reachable (by decide) (by decide)
  simp [Reachable] at hreachable

theorem second_block_exact : Exact (2 ^ 31) (2 ^ 32 - 1) (2 ^ 31) :=
  (exact_iff (by decide) (by decide) (by decide) (.inr ⟨31, by decide, rfl⟩)).mpr fun _ =>
    .inr (.inl le_rfl)

end ChunkGenerator

end Gem5
