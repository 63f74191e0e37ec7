import Gem5.Lib.Run
import Gem5.Mem.Packet

/-!
# Functional accesses

`Packet::checkFunctional` of `mem/packet.cc`. A functional access is checked
against every value on its way: queued packets, cache blocks, buffers. A read
collects the bytes it finds; `[bytesValidStart, bytesValidEnd)` records which
packet offsets it has. Both fields have 16 bits. The other numbers involved
are offsets and lengths of one object, and fit their types.
-/

namespace Gem5

open Lib Packet

def uint16 (x : Int) : Nat := (x % 65536).toNat

structure PartialOverlap where
  funcOffset : Int
  valOffset : Int
  overlapSize : Int

def partialOverlap (funcStart funcEnd valStart valEnd size : Nat) : Chk PartialOverlap :=
  if valStart < funcStart ∧ valEnd ≤ funcEnd then
    return ⟨0, funcStart - valStart, valEnd - funcStart⟩
  else if valStart ≥ funcStart ∧ valEnd > funcEnd then
    return ⟨valStart - funcStart, 0, funcEnd - valStart⟩
  else if valStart ≥ funcStart ∧ valEnd ≤ funcEnd then
    return ⟨valStart - funcStart, 0, size⟩
  else
    .error (.panic "BUG: Missed a case for a partial functional request")

namespace Packet

/-- `memcpy` of `n` bytes from a value of `size` bytes into the packet. A copy
out of bounds is undefined. -/
def copyIn (p : Packet) (data : Nat → UInt8) (size : Nat) (o : PartialOverlap) : Chk Packet := do
  ensure p.allocated "null_ok || flags.isSet(STATIC_DATA|DYNAMIC_DATA)"
  if 0 ≤ o.funcOffset ∧ 0 ≤ o.valOffset ∧ 0 ≤ o.overlapSize ∧
      o.funcOffset + o.overlapSize ≤ p.size ∧ o.valOffset + o.overlapSize ≤ size then
    let src i := data (o.valOffset.toNat + i)
    return { p with data := memcpy p.data o.funcOffset.toNat src o.overlapSize.toNat }
  else
    .error (.undefined "memcpy out of bounds")

/-- How much of the overlap is to be copied so as not to overwrite bytes found
before; moves the recorded range. -/
def extendRange (p : Packet) (data : Nat → UInt8) (size : Nat) (o : PartialOverlap) :
    Chk (Packet × PartialOverlap) :=
  let start : Int := p.bytesValidStart
  let stop : Int := p.bytesValidEnd
  let foundEnd := o.funcOffset + o.overlapSize
  if start = 0 ∧ stop = 0 then
    return ({ p with bytesValidStart := uint16 o.funcOffset, bytesValidEnd := uint16 foundEnd }, o)
  else
    let a := o.funcOffset - start
    let b := foundEnd - stop
    let c := o.funcOffset - stop
    let d := foundEnd - start
    if a ≥ 0 ∧ b ≤ 0 then
      return (p, { o with overlapSize := 0 })
    else if a < 0 ∧ d ≥ 0 ∧ b ≤ 0 then
      return ({ p with bytesValidStart := uint16 o.funcOffset },
        { o with overlapSize := start - o.funcOffset })
    else if b > 0 ∧ c ≤ 0 ∧ a ≥ 0 then
      return ({ p with bytesValidEnd := uint16 (stop + b) },
        ⟨stop, o.valOffset + (stop - o.funcOffset), b⟩)
    else if a < 0 ∧ b > 0 then do
      -- the part before the recorded range is copied here, the part after it by the caller
      let p ← p.copyIn data size { o with overlapSize := start - o.funcOffset }
      return ({ p with bytesValidStart := uint16 o.funcOffset, bytesValidEnd := uint16 (stop + b) },
        ⟨stop, o.valOffset + (stop - o.funcOffset), b⟩)
    else if (c > 0 ∧ b > 0) ∨ (a < 0 ∧ d < 0) then
      .error (.panic "BUG: Discontiguous bytes foundfor functional copying!")
    else
      return (p, o)

def fillPartial (p : Packet) (data : Nat → UInt8) (size : Nat) (o : PartialOverlap) :
    Chk (Packet × Bool) := do
  let (p, o) ← p.extendRange data size o
  ensure (p.bytesValidEnd ≤ p.size) "bytesValidEnd <= getSize()"
  let p ← p.copyIn data size o
  return (p, p.bytesValidStart == 0 && p.bytesValidEnd == p.size)

/-- The packet, the value's bytes and the result after the check against a
value of `size` bytes at `addr`; `none` is a value without data. What a print
request prints is left out. -/
def checkFunctional (p : Packet) (addr size : Nat) (data : Option (Nat → UInt8)) :
    Chk (Packet × Option (Nat → UInt8) × Bool) :=
  let funcStart := p.addr
  let funcEnd := lastByte p.addr p.size
  let valStart := addr
  let valEnd := lastByte addr size
  if funcStart > valEnd ∨ valStart > funcEnd then
    return (p, data, false)
  else if p.cmd.isPrint then
    return (p, data, false)
  else match data with
  | none => return (p, data, false)
  | some bytes =>
    if p.isRead then
      if funcStart ≥ valStart ∧ funcEnd ≤ valEnd then
        let filled := memcpy p.data 0 (fun i => bytes (funcStart - valStart + i)) p.size
        return ({ p with allocated := true, data := filled }, data, true)
      else do
        let o ← partialOverlap funcStart funcEnd valStart valEnd size
        let (p, done) ← p.fillPartial bytes size o
        return (p, data, done)
    else if p.isWrite then do
      ensure p.allocated "null_ok || flags.isSet(STATIC_DATA|DYNAMIC_DATA)"
      let n := min funcEnd valEnd - max funcStart valStart + 1
      if valStart ≤ funcStart then
        return (p, some (memcpy bytes (funcStart - valStart) p.data n), false)
      else
        return (p, some (memcpy bytes 0 (fun i => p.data (valStart - funcStart + i)) n), false)
    else
      .error (.panic "Don't know how to handle command %s\n")

variable {p : Packet} {data : Nat → UInt8} {size l u v : Nat}

theorem uint16_natCast {n : Nat} (h : n < 65536) : uint16 (n : Int) = n := by
  simp only [uint16]
  omega

theorem copyIn_eq (ha : p.allocated = true) (hp : l + n ≤ p.size) (hv : v + n ≤ size) :
    p.copyIn data size ⟨l, v, n⟩ = .ok
      { p with data := memcpy p.data l (fun i => data (v + i)) n } := by
  have hcond : (0 : Int) ≤ l ∧ (0 : Int) ≤ v ∧ (0 : Int) ≤ n ∧ (l : Int) + n ≤ p.size ∧
      (v : Int) + n ≤ size := by omega
  simp only [copyIn, ha, ensure_true, ok_bind, hcond, and_self, if_true, Int.toNat_natCast]
  rfl

def Extends (p : Packet) (l u : Nat) : Prop :=
  p.bytesValidStart = 0 ∧ p.bytesValidEnd = 0 ∨
    p.bytesValidStart < p.bytesValidEnd ∧ l ≤ p.bytesValidEnd ∧ p.bytesValidStart ≤ u

def newStart (p : Packet) (l : Nat) : Nat :=
  if p.bytesValidEnd = 0 then l else min p.bytesValidStart l

def withRange (p : Packet) (d : Nat → UInt8) (l u : Nat) : Packet :=
  { p with data := d, bytesValidStart := p.newStart l, bytesValidEnd := max p.bytesValidEnd u }

@[simp] theorem withRange_data : (p.withRange d l u).data = d := rfl

def Fills (p : Packet) (data : Nat → UInt8) (l u v : Nat) (d : Nat → UInt8) : Prop :=
  (∀ i, p.bytesValidStart ≤ i → i < p.bytesValidEnd → d i = p.data i) ∧
  ∀ i, l ≤ i → i < u → (i < p.bytesValidStart ∨ p.bytesValidEnd ≤ i) → d i = data (v + (i - l))

theorem extendRange_copyIn (ha : p.allocated = true) (hl : l ≤ u) (hu : u ≤ p.size)
    (hv : v + (u - l) ≤ size) (he : p.bytesValidEnd ≤ p.size) (hmax : max p.bytesValidEnd u < 65536)
    (hx : p.Extends l u) :
    ∃ q o, p.extendRange data size ⟨l, v, (u - l : Nat)⟩ = .ok (q, o) ∧ q = p.withRange q.data l u ∧
      ∃ d, q.copyIn data size o = .ok (p.withRange d l u) ∧ Fills p data l u v d := by
  have hul : (l : Int) + (u - l : Nat) = u := by omega
  have hl16 := uint16_natCast (show l < 65536 by omega)
  have hu16 := uint16_natCast (show u < 65536 by omega)
  have hue : (p.bytesValidEnd : Int) + ((u : Int) - p.bytesValidEnd) = u := by omega
  rcases hx with ⟨hs, he'⟩ | ⟨hse, hle, hsu⟩
  · -- nothing recorded yet
    refine ⟨p.withRange p.data l u, ⟨l, v, (u - l : Nat)⟩, ?_, rfl, _,
      copyIn_eq ha (by simp only [withRange]; omega) hv, ?_, ?_⟩
    · simp only [extendRange, hs, he', Nat.cast_zero, and_self, if_true, hul, hl16, hu16,
        withRange, newStart, Nat.zero_max]
      rfl
    · intro i _ hi
      omega
    · intro i hi hiu _
      exact memcpy_of_mem hi (by omega)
  · have hne : ¬((p.bytesValidStart : Int) = 0 ∧ (p.bytesValidEnd : Int) = 0) := by omega
    have hne' : p.bytesValidEnd ≠ 0 := by omega
    simp only [extendRange, hne, if_false, hul, hl16, hue]
    by_cases hla : p.bytesValidStart ≤ l <;> by_cases hub : u ≤ p.bytesValidEnd
    · -- the recorded bytes are a superset
      refine ⟨p.withRange p.data l u, ⟨l, v, (0 : Nat)⟩, ?_, rfl, _,
        copyIn_eq ha (by simp only [withRange]; omega) (by omega), ?_, ?_⟩
      · rw [if_pos (by omega)]
        simp only [withRange, newStart, hne', if_false, Nat.min_eq_left hla, Nat.max_eq_left hub]
        rfl
      · intro i _ _
        exact memcpy_of_notMem (by omega)
      · intro i _ _ _
        omega
    · -- the range grows at its end
      refine ⟨p.withRange p.data l u, ⟨p.bytesValidEnd, (v + (p.bytesValidEnd - l) : Nat),
        (u - p.bytesValidEnd : Nat)⟩, ?_, rfl, _,
          copyIn_eq ha (by simp only [withRange]; omega) (by omega), ?_, ?_⟩
      · rw [if_neg (by omega), if_neg (by omega), if_pos (by omega)]
        simp only [withRange, newStart, hne', if_false, Nat.min_eq_left hla,
          Nat.max_eq_right (Nat.le_of_not_le hub), hu16]
        congr 4 <;> omega
      · intro i _ hi
        exact memcpy_of_notMem (by omega)
      · intro i hi hiu _
        rw [memcpy_of_mem (by omega) (by omega)]
        congr 1
        omega
    · -- the range grows at its start
      refine ⟨p.withRange p.data l u, ⟨l, v, (p.bytesValidStart - l : Nat)⟩, ?_, rfl, _,
        copyIn_eq ha (by simp only [withRange]; omega) (by omega), ?_, ?_⟩
      · rw [if_neg (by omega), if_pos (by omega)]
        simp only [withRange, newStart, hne', if_false, Nat.min_eq_right (Nat.le_of_not_le hla),
          Nat.max_eq_left hub]
        congr 4
        omega
      · intro i _ hi
        exact memcpy_of_notMem (by omega)
      · intro i hi hiu _
        rw [memcpy_of_mem (by omega) (by omega)]
    · -- both ends grow, in two copies
      have hfirst : p.copyIn data size ⟨l, v, (p.bytesValidStart - l : Nat)⟩ = _ :=
        copyIn_eq ha (by omega) (by omega)
      refine ⟨p.withRange (memcpy p.data l (fun i => data (v + i)) (p.bytesValidStart - l)) l u,
        ⟨p.bytesValidEnd, (v + (p.bytesValidEnd - l) : Nat), (u - p.bytesValidEnd : Nat)⟩, ?_, rfl,
        _, copyIn_eq ha (by simp only [withRange]; omega) (by omega), ?_, ?_⟩
      · have hcast : (p.bytesValidStart : Int) - l = (p.bytesValidStart - l : Nat) := by omega
        rw [if_neg (by omega), if_neg (by omega), if_neg (by omega), if_pos (by omega), hcast, hfirst]
        simp only [ok_bind, withRange, newStart, hne', if_false,
          Nat.min_eq_right (Nat.le_of_not_le hla), Nat.max_eq_right (Nat.le_of_not_le hub), hu16]
        congr 4 <;> omega
      · intro i _ hi
        rw [memcpy_of_notMem (.inl hi), withRange_data]
        exact memcpy_of_notMem (by omega)
      · intro i hi hiu hout
        rcases hout with hout | hout
        · rw [memcpy_of_notMem (.inl (by omega)), withRange_data]
          exact memcpy_of_mem hi (by omega)
        · rw [memcpy_of_mem hout (by omega)]
          congr 1
          omega

theorem fillPartial_eq (ha : p.allocated = true) (hl : l ≤ u) (hu : u ≤ p.size)
    (hv : v + (u - l) ≤ size) (he : p.bytesValidEnd ≤ p.size) (hmax : max p.bytesValidEnd u < 65536)
    (hx : p.Extends l u) :
    ∃ d, p.fillPartial data size ⟨l, v, (u - l : Nat)⟩ =
        .ok (p.withRange d l u, p.newStart l == 0 && max p.bytesValidEnd u == p.size) ∧
          Fills p data l u v d := by
  obtain ⟨q, o, hrange, hq, d, hcopy, hfills⟩ := extendRange_copyIn ha hl hu hv he hmax hx
  refine ⟨d, ?_, hfills⟩
  have hle : (q.bytesValidEnd ≤ q.size) = True := by
    rw [hq]
    exact eq_true (Nat.max_le.mpr ⟨he, hu⟩)
  simp only [fillPartial, hrange, ok_bind, hle, decide_true, ensure_true, hcopy]
  rfl

theorem copyIn_ok (h : p.copyIn data size o = .ok p') :
    p.allocated = true ∧ ∃ d, p' = { p with data := d } := by
  simp only [copyIn, bind_eq_ok, ensure_eq_ok] at h
  obtain ⟨_, ha, h⟩ := h
  split at h
  · exact ⟨ha, _, (pure_eq_ok.mp h).symm⟩
  · cases h

theorem uint16_le {x : Int} (h0 : 0 ≤ x) (hu : x ≤ (u : Nat)) : uint16 x ≤ u ∧ uint16 x < 65536 := by
  simp only [uint16]
  omega

theorem extendRange_end_le (h : p.extendRange data size o = .ok (q, o'))
    (h16 : p.bytesValidEnd < 65536) (h0 : 0 ≤ o.funcOffset + o.overlapSize)
    (hu : o.funcOffset + o.overlapSize ≤ (u : Nat)) :
    q.allocated = p.allocated ∧ q.size = p.size ∧
      q.bytesValidEnd ≤ max p.bytesValidEnd u ∧ q.bytesValidEnd < 65536 := by
  have hstep : (p.bytesValidEnd : Int) + (o.funcOffset + o.overlapSize - p.bytesValidEnd) =
      o.funcOffset + o.overlapSize := by omega
  have hle := uint16_le h0 hu
  simp only [extendRange, hstep] at h
  split at h
  · cases h
    exact ⟨rfl, rfl, le_max_of_le_right hle.1, hle.2⟩
  split at h
  · cases h
    exact ⟨rfl, rfl, Nat.le_max_left .., h16⟩
  split at h
  · cases h
    exact ⟨rfl, rfl, Nat.le_max_left .., h16⟩
  split at h
  · cases h
    exact ⟨rfl, rfl, le_max_of_le_right hle.1, hle.2⟩
  split at h
  · obtain ⟨r, hr, h⟩ := bind_eq_ok.mp h
    obtain ⟨-, d, rfl⟩ := copyIn_ok hr
    cases h
    exact ⟨rfl, rfl, le_max_of_le_right hle.1, hle.2⟩
  split at h
  · cases h
  · cases h
    exact ⟨rfl, rfl, Nat.le_max_left .., h16⟩

theorem fillPartial_end_le (h : p.fillPartial data size o = .ok (p', r))
    (h16 : p.bytesValidEnd < 65536) (h0 : 0 ≤ o.funcOffset + o.overlapSize)
    (hu : o.funcOffset + o.overlapSize ≤ (u : Nat)) :
    p.allocated = true ∧ p'.bytesValidEnd ≤ max p.bytesValidEnd u ∧ p'.bytesValidEnd < 65536 ∧
      (r = true → p'.bytesValidEnd = p.size) := by
  simp only [fillPartial, bind_eq_ok, ensure_eq_ok, pure_eq_ok] at h
  obtain ⟨⟨q, o'⟩, hrange, _, -, p2, hcopy, hres⟩ := h
  obtain ⟨hq, hsize, hend⟩ := extendRange_end_le hrange h16 h0 hu
  obtain ⟨ha, d, rfl⟩ := copyIn_ok hcopy
  cases hres
  refine ⟨hq ▸ ha, hend.1, hend.2, fun hdone => ?_⟩
  simp only [Bool.and_eq_true, beq_iff_eq] at hdone
  exact hdone.2.trans hsize

theorem fillPartial_gap (hs : p.bytesValidStart = u + 1) (he : p.bytesValidStart < p.bytesValidEnd) :
    ∃ f, p.fillPartial data size ⟨0, v, (u : Nat)⟩ = .error f := by
  refine ⟨.panic "BUG: Discontiguous bytes foundfor functional copying!", ?_⟩
  simp only [fillPartial, extendRange]
  rw [if_neg (by omega), if_neg (by omega), if_neg (by omega), if_neg (by omega),
    if_neg (by omega), if_pos (by omega)]
  rfl

end Packet

structure ValueBuffer where
  base : Nat
  size : Nat
  data : Nat → UInt8
  size_pos : 1 ≤ size
  size_int : size < 2 ^ 31
  fits : base + size ≤ 2 ^ 64

structure FunctionalRead (p : Packet) : Prop where
  isRead : p.isRead = true
  size_pos : 1 ≤ p.size
  size_int : p.size < 2 ^ 31
  fits : p.addr + p.size ≤ 2 ^ 64
  fresh : p.bytesValidStart = 0 ∧ p.bytesValidEnd = 0

namespace ValueBuffer

def Covers (b : ValueBuffer) (p : Packet) (i : Nat) : Prop :=
  i < p.size ∧ b.base ≤ p.addr + i ∧ p.addr + i < b.base + b.size

instance : Decidable (Covers b p i) := inferInstanceAs (Decidable (_ ∧ _ ∧ _))

def byteAt (b : ValueBuffer) (p : Packet) (i : Nat) : UInt8 := b.data (p.addr + i - b.base)

def lo (b : ValueBuffer) (p : Packet) : Nat := b.base - p.addr

def hi (b : ValueBuffer) (p : Packet) : Nat := min (b.base + b.size) (p.addr + p.size) - p.addr

def Overlaps (b : ValueBuffer) (p : Packet) : Prop :=
  p.addr < b.base + b.size ∧ b.base < p.addr + p.size

def Contains (b : ValueBuffer) (p : Packet) : Prop :=
  b.base ≤ p.addr ∧ p.addr + p.size ≤ b.base + b.size

def Inside (b : ValueBuffer) (p : Packet) : Prop :=
  p.addr ≤ b.base ∧ b.base + b.size ≤ p.addr + p.size

instance : Decidable (Overlaps b p) := inferInstanceAs (Decidable (_ ∧ _))

instance : Decidable (Contains b p) := inferInstanceAs (Decidable (_ ∧ _))

instance : Decidable (Inside b p) := inferInstanceAs (Decidable (_ ∧ _))

theorem covers_iff {b : ValueBuffer} {p : Packet} : b.Covers p i ↔ b.lo p ≤ i ∧ i < b.hi p := by
  simp only [Covers, lo, hi]
  omega

def offer (b : ValueBuffer) (p : Packet) : Chk (Packet × Bool) := do
  let (p, _, done) ← p.checkFunctional b.base b.size (some b.data)
  return (p, done)

end ValueBuffer

open ValueBuffer

def supplier (p : Packet) (bs : List ValueBuffer) (i : Nat) : Option ValueBuffer :=
  bs.find? fun b => b.Covers p i

def Covered (p : Packet) (bs : List ValueBuffer) (i : Nat) : Prop := ∃ b ∈ bs, b.Covers p i

def Touches (p : Packet) (bs : List ValueBuffer) (b : ValueBuffer) : Prop :=
  (∀ i, ¬Covered p bs i) ∨ (∀ i, ¬b.Covers p i) ∨
    ∃ i j, Covered p bs i ∧ b.Covers p j ∧ i ≤ j + 1 ∧ j ≤ i + 1

structure Supplied (p₀ : Packet) (bs : List ValueBuffer) (s : Packet × Bool) : Prop where
  bytes : ∀ i b, supplier p₀ bs i = some b → s.1.data i = b.byteAt p₀ i
  result : s.2 = true ↔ ∀ i < p₀.size, Covered p₀ bs i

def Recorded (p₀ : Packet) (bs : List ValueBuffer) (p : Packet) : Prop :=
  ∀ i, p.bytesValidStart ≤ i ∧ i < p.bytesValidEnd ↔ Covered p₀ bs i

/-- The packet has its buffer, and the value lies inside the packet below the
reach of the range fields or the last byte it has for the packet is recorded. -/
def PartlyKnown (p : Packet) (b : ValueBuffer) : Prop :=
  p.allocated = true ∧ (b.Inside p ∧ b.hi p ≤ 65535 ∨
    p.bytesValidStart < b.hi p ∧ b.hi p ≤ p.bytesValidEnd)

def Agrees (p : Packet) (b : ValueBuffer) : Prop :=
  ∀ i, p.bytesValidStart ≤ i → i < p.bytesValidEnd → b.byteAt p i = p.data i

def RecordsRight (p : Packet) (b : ValueBuffer) : Prop :=
  b.Overlaps p → ¬b.Contains p ∧ PartlyKnown p b

/-- When a call leaves the bytes right, and the range as long as it matters. -/
def SuppliesRight (p : Packet) (b : ValueBuffer) : Prop :=
  b.Overlaps p → b.Contains p ∧ Agrees p b ∨ ¬b.Contains p ∧ PartlyKnown p b

/-- A call that may be made: the access is not complete, and what the buffer
covers touches what `bs` cover. The history is part of the state. -/
def Call (p₀ : Packet) (s : List ValueBuffer × Packet × Bool) (b : ValueBuffer)
    (s' : List ValueBuffer × Packet × Bool) : Prop :=
  s.2.2 = false ∧ Touches p₀ s.1 b ∧ s'.1 = s.1 ++ [b] ∧ b.offer s.2.1 = .ok s'.2

theorem MemCmd.not_isPrint_of_isRead (h : MemCmd.isRead c = true) : c.isPrint = false := by
  cases c <;> first | rfl | exact absurd h (by decide)

structure Readable (p : Packet) : Prop where
  isRead : p.isRead = true
  size_pos : 1 ≤ p.size
  fits : p.addr + p.size ≤ 2 ^ 64

namespace ValueBuffer

variable {b : ValueBuffer} {p : Packet}

theorem offer_of_not_overlaps (hp : Readable p) (h : ¬b.Overlaps p) :
    b.offer p = .ok (p, false) := by
  have hout : p.addr > b.base + b.size - 1 ∨ b.base > p.addr + p.size - 1 := by
    have := b.size_pos
    have := hp.size_pos
    simp only [Overlaps] at h
    omega
  simp only [offer, checkFunctional, lastByte_eq hp.fits hp.size_pos,
    lastByte_eq b.fits b.size_pos, hout, if_true]
  rfl

theorem offer_of_contains (hp : Readable p) (h : b.Contains p) :
    b.offer p = .ok ({ p with
      allocated := true
      data := memcpy p.data 0 (fun i => b.data (p.addr - b.base + i)) p.size }, true) := by
  have := hp.size_pos
  simp only [Contains] at h
  have hin : ¬(p.addr > b.base + b.size - 1 ∨ b.base > p.addr + p.size - 1) := by omega
  have hall : p.addr ≥ b.base ∧ p.addr + p.size - 1 ≤ b.base + b.size - 1 := by omega
  simp only [offer, checkFunctional, lastByte_eq hp.fits hp.size_pos,
    lastByte_eq b.fits b.size_pos, hin, hall, and_self, if_false, if_true, hp.isRead,
    MemCmd.not_isPrint_of_isRead hp.isRead, Bool.false_eq_true]
  rfl

/-- Where the bytes end that the code takes to be found: it misses the last one
of a value that reaches out of the packet. -/
def foundEnd (b : ValueBuffer) (p : Packet) : Nat :=
  if p.addr ≤ b.base ∧ b.base + b.size ≤ p.addr + p.size then b.hi p else b.hi p - 1

theorem partialOverlap_eq (hp : Readable p) (h : b.Overlaps p) (hc : ¬b.Contains p) :
    partialOverlap p.addr (p.addr + p.size - 1) b.base (b.base + b.size - 1) b.size =
      .ok ⟨b.lo p, (p.addr - b.base : Nat), (b.foundEnd p - b.lo p : Nat)⟩ := by
  have := hp.size_pos
  simp only [Overlaps, Contains] at h hc
  simp only [partialOverlap, foundEnd, lo, hi]
  split
  · rw [if_neg (by omega)]
    simp only [pure_eq_ok, PartialOverlap.mk.injEq]
    omega
  split
  · rw [if_neg (by omega)]
    simp only [pure_eq_ok, PartialOverlap.mk.injEq]
    omega
  split
  · rw [if_pos (by omega)]
    simp only [pure_eq_ok, PartialOverlap.mk.injEq]
    omega
  · omega

theorem offer_of_part (hp : Readable p) (h : b.Overlaps p) (hc : ¬b.Contains p) :
    b.offer p = p.fillPartial b.data b.size
      ⟨b.lo p, (p.addr - b.base : Nat), (b.foundEnd p - b.lo p : Nat)⟩ := by
  have := b.size_pos
  have hin : ¬(p.addr > b.base + b.size - 1 ∨ b.base > p.addr + p.size - 1) := by
    simp only [Overlaps] at h
    omega
  have hall : ¬(p.addr ≥ b.base ∧ p.addr + p.size - 1 ≤ b.base + b.size - 1) := by
    simp only [Contains] at hc
    omega
  simp only [offer, checkFunctional, lastByte_eq hp.fits hp.size_pos,
    lastByte_eq b.fits b.size_pos, hin, hall, if_false, if_true, hp.isRead,
    MemCmd.not_isPrint_of_isRead hp.isRead, Bool.false_eq_true, partialOverlap_eq hp h hc, ok_bind]
  cases p.fillPartial b.data b.size _ <;> rfl

end ValueBuffer

section Collecting

variable {p₀ p p' : Packet} {bs : List ValueBuffer} {b : ValueBuffer} {r : Bool} {d : Nat → UInt8}

theorem covered_append : Covered p (bs ++ [b]) i ↔ Covered p bs i ∨ b.Covers p i := by
  simp [Covered, or_and_right, exists_or]

theorem supplier_isSome : (supplier p bs i).isSome ↔ Covered p bs i := by
  simp [supplier, Covered]

theorem bytes_append (hold : ∀ i c, supplier p bs i = some c → d i = c.byteAt p i)
    (hnew : ∀ i, b.Covers p i → ¬Covered p bs i → d i = b.byteAt p i) :
    ∀ i c, supplier p (bs ++ [b]) i = some c → d i = c.byteAt p i := by
  intro i c hc
  simp only [supplier, List.find?_append, Option.or_eq_some_iff] at hc
  rcases hc with hc | ⟨hnone, hc⟩
  · exact hold i c hc
  · simp only [List.find?_singleton, decide_eq_true_eq] at hc
    split at hc
    · rename_i hcov
      cases hc
      refine hnew i hcov fun hbefore => ?_
      have := supplier_isSome.mpr hbefore
      simp [supplier, hnone] at this
    · cases hc

structure Collecting (p₀ : Packet) (bs : List ValueBuffer) (p : Packet) : Prop where
  frame : p.addr = p₀.addr ∧ p.size = p₀.size ∧ p.cmd = p₀.cmd
  interval : p.bytesValidStart = 0 ∧ p.bytesValidEnd = 0 ∨ p.bytesValidStart < p.bytesValidEnd
  small : p.bytesValidEnd < 65536
  recorded : Recorded p₀ bs p
  bytes : ∀ i c, supplier p₀ bs i = some c → p.data i = c.byteAt p₀ i

section

variable (h : Collecting p₀ bs p)
include h

theorem Collecting.covers_eq : b.Covers p = b.Covers p₀ := by
  funext i
  simp [Covers, h.frame]

theorem Collecting.end_le : p.bytesValidEnd ≤ p.size := by
  rcases h.interval with hzero | hlt
  · omega
  · obtain ⟨c, -, hc⟩ := (h.recorded (p.bytesValidEnd - 1)).mp (by omega)
    have := hc.1
    have := h.frame.2.1
    omega

theorem Collecting.readable (hp : Readable p₀) : Readable p where
  isRead := by simp only [isRead, h.frame.2.2]; exact hp.isRead
  size_pos := h.frame.2.1 ▸ hp.size_pos
  fits := h.frame.1 ▸ h.frame.2.1 ▸ hp.fits

theorem Collecting.extends_of_touches (ht : Touches p₀ bs b)
    (ho : b.lo p < b.hi p) : p.Extends (b.lo p) (b.hi p) := by
  rcases h.interval with hzero | hlt
  · exact .inl hzero
  refine .inr ⟨hlt, ?_⟩
  rcases ht with hnone | hno | ⟨i, j, hi, hj, hij, hji⟩
  · exact absurd ((h.recorded p.bytesValidStart).mp ⟨Nat.le_refl _, hlt⟩) (hnone _)
  · rw [← h.covers_eq] at hno
    exact absurd (covers_iff.mpr ⟨Nat.le_refl _, ho⟩) (hno (b.lo p))
  · rw [← h.covers_eq, covers_iff] at hj
    have := (h.recorded i).mpr hi
    omega

omit h in
theorem PartlyKnown.foundEnd_eq (h : PartlyKnown p b) :
    b.foundEnd p = b.hi p ∨ b.foundEnd p = b.hi p - 1 ∧ p.bytesValidStart < b.hi p ∧
      b.hi p ≤ p.bytesValidEnd := by
  simp only [ValueBuffer.foundEnd]
  split
  · exact .inl rfl
  · rename_i hin
    rcases h.2 with hinside | hlast
    · exact absurd hinside.1 hin
    · exact .inr ⟨rfl, hlast⟩

omit h in
theorem overlap_nonempty (hp : Readable p) (ho : b.Overlaps p) :
    b.lo p < b.hi p ∧ b.hi p ≤ p.size := by
  have := b.size_pos
  have := hp.size_pos
  simp only [Overlaps, lo, hi] at ho ⊢
  omega

variable (hp : Readable p₀)
include hp

theorem Collecting.offer_right (ht : Touches p₀ bs b)
    (ho : b.Overlaps p) (hc : ¬b.Contains p) (hk : PartlyKnown p b) :
    ∃ p' r, b.offer p = .ok (p', r) ∧ Collecting p₀ (bs ++ [b]) p' ∧
      (r = true ↔ ∀ i < p₀.size, Covered p₀ (bs ++ [b]) i) := by
  have ⟨hlt, hhi⟩ := overlap_nonempty (h.readable hp) ho
  have hx := h.extends_of_touches ht hlt
  have hend := h.end_le
  have hsmall := h.small
  have hfound := hk.foundEnd_eq
  -- the end of the range is the same whether or not the last byte is found again
  have hmax : max p.bytesValidEnd (b.foundEnd p) = max p.bytesValidEnd (b.hi p) := by omega
  have hmax16 : max p.bytesValidEnd (b.hi p) < 65536 := by
    rcases hk.2 with hin | hlast
    · omega
    · omega
  have hx' : p.Extends (b.lo p) (b.foundEnd p) := by
    simp only [Packet.Extends] at hx ⊢
    omega
  have hsize : p.addr - b.base + (b.foundEnd p - b.lo p) ≤ b.size := by
    simp only [ValueBuffer.foundEnd, lo, hi, Overlaps] at ho ⊢
    split <;> omega
  have hfill : ∃ d, p.fillPartial b.data b.size _ = .ok _ ∧ p.Fills b.data _ _ _ d :=
    p.fillPartial_eq hk.1 (by omega) (by omega) hsize hend (hmax ▸ hmax16) hx'
  obtain ⟨d, he, hkept, hnew⟩ := hfill
  have hrec : Recorded p₀ (bs ++ [b]) (p.withRange d (b.lo p) (b.foundEnd p)) := by
    intro i
    rw [covered_append, ← h.recorded i, ← h.covers_eq, covers_iff]
    simp only [withRange, newStart, hmax]
    simp only [Packet.Extends] at hx
    split <;> omega
  refine ⟨_, _, (offer_of_part (h.readable hp) ho hc).trans he, ⟨h.frame, ?_, ?_, hrec, ?_⟩, ?_⟩
  · simp only [withRange, newStart, hmax]
    split <;> omega
  · simp only [withRange, hmax]
    exact hmax16
  · refine bytes_append (fun i c hi => ?_) (fun i hcov hbefore => ?_)
    · have hi' := (h.recorded i).mpr (supplier_isSome.mp (by simp [hi]))
      exact (hkept i hi'.1 hi'.2).trans (h.bytes i c hi)
    · rw [← h.recorded i] at hbefore
      rw [← h.covers_eq, covers_iff] at hcov
      refine (hnew i hcov.1 (by omega) (by omega)).trans ?_
      simp only [byteAt, ← h.frame.1, lo] at hcov ⊢
      congr 1
      omega
  · rw [← h.frame.2.1]
    simp only [Bool.and_eq_true, beq_iff_eq]
    have hiff := fun i => hrec i
    simp only [withRange] at hiff
    constructor
    · intro hdone i hi
      exact (hiff i).mp (by omega)
    · intro hall
      have h0 := (hiff 0).mpr (hall 0 (by omega))
      have hlast := (hiff (p.size - 1)).mpr (hall _ (by omega))
      omega

theorem Collecting.offer_wrong (ht : Touches p₀ bs b)
    (ho : b.Overlaps p) (hc : ¬b.Contains p) (hk : ¬PartlyKnown p b)
    (he : b.offer p = .ok (p', r)) : p'.bytesValidEnd < b.hi p ∧ r = false := by
  have ⟨hlt, hhi⟩ := overlap_nonempty (h.readable hp) ho
  have hx := h.extends_of_touches ht hlt
  have hend := h.end_le
  rw [offer_of_part (h.readable hp) ho hc] at he
  have hfound : b.lo p ≤ b.foundEnd p := by
    simp only [ValueBuffer.foundEnd]
    split <;> omega
  obtain ⟨ha, hle, h16, hdone⟩ := p.fillPartial_end_le (u := b.foundEnd p) he h.small
    (by simp only; omega) (by simp only; omega)
  suffices hlast : p'.bytesValidEnd < b.hi p by
    refine ⟨hlast, Bool.eq_false_iff.mpr fun hr => ?_⟩
    have := hdone hr
    omega
  have hk' : ¬(b.Inside p ∧ b.hi p ≤ 65535) ∧
      ¬(p.bytesValidStart < b.hi p ∧ b.hi p ≤ p.bytesValidEnd) :=
    not_or.mp fun hor => hk ⟨ha, hor⟩
  by_cases hin : b.Inside p
  · have hbig : ¬b.hi p ≤ 65535 := fun hle => hk'.1 ⟨hin, hle⟩
    omega
  · have hend' : b.foundEnd p = b.hi p - 1 := if_neg hin
    by_cases hknown : b.hi p ≤ p.bytesValidEnd
    · -- the range starts right behind the value, and the code sees a gap
      simp only [Packet.Extends] at hx
      have hlo : b.lo p = 0 := by
        have hhi' : b.hi p < p.size := by omega
        simp only [Inside, lo, hi] at hin hhi' ⊢
        omega
      rw [hend', hlo] at he
      have hgap : ∃ f, p.fillPartial b.data b.size ⟨0, (p.addr - b.base : Nat), (b.hi p - 1 : Nat)⟩ =
          .error f := fillPartial_gap (by omega) (by omega)
      obtain ⟨f, hf⟩ := hgap
      exact absurd (hf.symm.trans he) nofun
    · omega

def Progress (p₀ : Packet) (bs : List ValueBuffer) (s : Packet × Bool) : Prop :=
  Supplied p₀ bs s ∧ (s.2 = false → Collecting p₀ bs s.1)

theorem Collecting.offer_disjoint (hopen : ¬∀ i < p₀.size, Covered p₀ bs i) (ho : ¬b.Overlaps p) :
    b.offer p = .ok (p, false) ∧ Progress p₀ (bs ++ [b]) (p, false) := by
  have hnone : ∀ i, ¬b.Covers p₀ i := by
    intro i hi
    rw [← h.covers_eq] at hi
    simp only [Covers, Overlaps] at hi ho
    omega
  have hsame : ∀ i, Covered p₀ (bs ++ [b]) i ↔ Covered p₀ bs i := fun i => by
    simp [covered_append, hnone i]
  have hbytes := bytes_append h.bytes fun i hi _ => absurd hi (hnone i)
  refine ⟨offer_of_not_overlaps (h.readable hp) ho, ⟨hbytes, ?_⟩, fun _ => ?_⟩
  · simp only [Bool.false_eq_true, hsame, false_iff]
    exact hopen
  · exact { h with recorded := fun i => (h.recorded i).trans (hsame i).symm, bytes := hbytes }

omit hp in
theorem byteAt_congr : b.byteAt p i = b.byteAt p₀ i := by
  simp [byteAt, h.frame.1]

theorem Collecting.offer_whole (hc : b.Contains p) :
    ∃ d, b.offer p = .ok ({ p with allocated := true, data := d }, true) ∧
      (∀ i < p₀.size, d i = b.byteAt p₀ i ∧ Covered p₀ (bs ++ [b]) i) := by
  refine ⟨_, offer_of_contains (h.readable hp) hc, fun i hi => ⟨?_, covered_append.mpr (.inr ?_)⟩⟩
  · rw [← h.frame.2.1] at hi
    rw [memcpy_of_mem (Nat.zero_le _) (by omega), ← byteAt_congr h]
    simp only [byteAt, Contains] at hc ⊢
    congr 1
    omega
  · rw [← h.covers_eq]
    rw [← h.frame.2.1] at hi
    simp only [Covers, Contains] at hc ⊢
    omega

theorem Collecting.step_right
    (hopen : ¬∀ i < p₀.size, Covered p₀ bs i) (ht : Touches p₀ bs b) (hs : SuppliesRight p b) :
    ∃ s, b.offer p = .ok s ∧ Progress p₀ (bs ++ [b]) s ∧
      (RecordsRight p b → Recorded p₀ (bs ++ [b]) s.1) := by
  by_cases ho : b.Overlaps p
  · rcases hs ho with ⟨hc, hagree⟩ | ⟨hc, hk⟩
    · obtain ⟨d, he, hd⟩ := h.offer_whole hp hc
      refine ⟨_, he, ⟨⟨bytes_append (fun i c hi => ?_) (fun i hi _ => (hd i hi.1).1), ?_⟩,
        fun hr => by cases hr⟩, fun hr => absurd hc (hr ho).1⟩
      · obtain ⟨hlo, hhi⟩ := (h.recorded i).mpr (supplier_isSome.mp (by simp [hi]))
        have hlt : i < p₀.size := by
          have := h.end_le
          rw [h.frame.2.1] at this
          omega
        calc d i = b.byteAt p i := (hd i hlt).1.trans (byteAt_congr h).symm
          _ = p.data i := hagree i hlo hhi
          _ = c.byteAt p₀ i := h.bytes i c hi
      · exact ⟨fun _ i hi => (hd i hi).2, fun _ => rfl⟩
    · obtain ⟨p', r, he, hcol, hres⟩ := h.offer_right hp ht ho hc hk
      exact ⟨_, he, ⟨⟨hcol.bytes, hres⟩, fun _ => hcol⟩, fun _ => hcol.recorded⟩
  · obtain ⟨he, hprog⟩ := h.offer_disjoint hp hopen ho
    exact ⟨_, he, hprog, fun _ => (hprog.2 rfl).recorded⟩

theorem Collecting.supplies_of_step
    (ht : Touches p₀ bs b) (he : b.offer p = .ok s) (hsup : Supplied p₀ (bs ++ [b]) s)
    (hrec : s.2 = false → Recorded p₀ (bs ++ [b]) s.1) : SuppliesRight p b := by
  intro ho
  by_cases hc : b.Contains p
  · refine .inl ⟨hc, fun i hlo hhi => ?_⟩
    obtain ⟨d, hd, hbytes⟩ := h.offer_whole hp hc
    rw [he, Except.ok.injEq] at hd
    obtain ⟨c, hi⟩ := Option.isSome_iff_exists.mp (supplier_isSome.mpr ((h.recorded i).mp ⟨hlo, hhi⟩))
    have hnew := hsup.bytes i c (by
      rw [supplier] at hi
      simp [supplier, List.find?_append, hi])
    have hlt : i < p₀.size := by
      have := h.end_le
      rw [h.frame.2.1] at this
      omega
    subst hd
    calc b.byteAt p i = d i := (byteAt_congr h).trans (hbytes i hlt).1.symm
      _ = c.byteAt p₀ i := hnew
      _ = p.data i := (h.bytes i c hi).symm
  · refine .inr ⟨hc, ?_⟩
    by_contra hk
    obtain ⟨hend, hr⟩ := h.offer_wrong hp ht ho hc hk he
    obtain ⟨hlt, -⟩ := overlap_nonempty (h.readable hp) ho
    have hlast : b.Covers p₀ (b.hi p - 1) := by
      rw [← h.covers_eq, covers_iff]
      omega
    have := (hrec hr (b.hi p - 1)).mpr (covered_append.mpr (.inr hlast))
    omega

theorem Collecting.supplies_iff (hopen : ¬∀ i < p₀.size, Covered p₀ bs i) (ht : Touches p₀ bs b) :
    (∃ s, b.offer p = .ok s ∧ Supplied p₀ (bs ++ [b]) s ∧
      (s.2 = false → Recorded p₀ (bs ++ [b]) s.1)) ↔ SuppliesRight p b := by
  constructor
  · rintro ⟨s, he, hsup, hrec⟩
    exact h.supplies_of_step hp ht he hsup hrec
  · intro hs
    obtain ⟨s, he, hprog, -⟩ := h.step_right hp hopen ht hs
    exact ⟨s, he, hprog.1, fun hr => (hprog.2 hr).recorded⟩

omit h hp in
theorem RecordsRight.supplies (h : RecordsRight p b) : SuppliesRight p b :=
  fun ho => .inr (h ho)

theorem Collecting.records_iff (hopen : ¬∀ i < p₀.size, Covered p₀ bs i) (ht : Touches p₀ bs b) :
    (∃ s, b.offer p = .ok s ∧ Supplied p₀ (bs ++ [b]) s ∧ Recorded p₀ (bs ++ [b]) s.1) ↔
      RecordsRight p b := by
  constructor
  · rintro ⟨s, he, hsup, hrec⟩ ho
    rcases h.supplies_of_step hp ht he hsup (fun _ => hrec) ho with ⟨hc, -⟩ | hk
    · -- a whole copy leaves the range as it was, short of the packet
      obtain ⟨d, hd, hall⟩ := h.offer_whole hp hc
      rw [he, Except.ok.injEq] at hd
      subst hd
      exact absurd (fun i hi => (h.recorded i).mp ((hrec i).mpr (hall i hi).2)) hopen
    · exact hk
  · intro hs
    obtain ⟨s, he, hprog, hrec⟩ := h.step_right hp hopen ht hs.supplies
    exact ⟨s, he, hprog.1, hrec hs⟩

end

theorem FunctionalRead.readable (hp : FunctionalRead p₀) : Readable p₀ :=
  { hp with }

theorem FunctionalRead.progress (hp : FunctionalRead p₀) : Progress p₀ [] (p₀, false) := by
  have hnone : ∀ i, ¬Covered p₀ [] i := by simp [Covered]
  refine ⟨⟨fun i c hi => by simp [supplier] at hi, ?_⟩, fun _ => ?_⟩
  · simp only [Bool.false_eq_true, false_iff]
    exact fun hall => hnone 0 (hall 0 hp.size_pos)
  · refine ⟨⟨rfl, rfl, rfl⟩, .inl hp.fresh, ?_, fun i => ?_, fun i c hi => by simp [supplier] at hi⟩
    · simp [hp.fresh.2]
    · simp [hp.fresh.2, hnone i]

theorem Progress.missing {s : List ValueBuffer × Packet × Bool} (h : Progress p₀ s.1 s.2)
    (hopen : s.2.2 = false) : ¬∀ i < p₀.size, Covered p₀ s.1 i := by
  rw [← h.1.result, hopen]
  exact Bool.false_ne_true

theorem Progress.step (hp : Readable p₀)
    (h : Progress p₀ s.1 s.2) (hcall : Call p₀ s b s') (hs : SuppliesRight s.2.1 b) :
    Progress p₀ s'.1 s'.2 ∧ (RecordsRight s.2.1 b → Recorded p₀ s'.1 s'.2.1) := by
  obtain ⟨hopen, ht, hhist, he⟩ := hcall
  obtain ⟨s2, he2, hprog, hrec⟩ := (h.2 hopen).step_right hp (h.missing hopen) ht hs
  rw [he, Except.ok.injEq] at he2
  rw [hhist, he2]
  exact ⟨hprog, hrec⟩

/-- In a run whose calls all `RecordsRight`, bytes, range and result are right
in every state, and the next call keeps them right exactly if it does too. With
the range asked for only while the access is incomplete, the same holds of
`SuppliesRight`. -/
theorem run_collects (hp : FunctionalRead p₀) :
    (∀ as s, Runs (fun s b s' => Call p₀ s b s' ∧ RecordsRight s.2.1 b) ([], p₀, false) as s →
      Supplied p₀ s.1 s.2 ∧ Recorded p₀ s.1 s.2.1 ∧
      ∀ b, s.2.2 = false → Touches p₀ s.1 b →
        ((∃ r, b.offer s.2.1 = .ok r ∧ Supplied p₀ (s.1 ++ [b]) r ∧
          Recorded p₀ (s.1 ++ [b]) r.1) ↔ RecordsRight s.2.1 b)) ∧
    (∀ as s, Runs (fun s b s' => Call p₀ s b s' ∧ SuppliesRight s.2.1 b) ([], p₀, false) as s →
      Supplied p₀ s.1 s.2 ∧ (s.2.2 = false → Recorded p₀ s.1 s.2.1) ∧
      ∀ b, s.2.2 = false → Touches p₀ s.1 b →
        ((∃ r, b.offer s.2.1 = .ok r ∧ Supplied p₀ (s.1 ++ [b]) r ∧
          (r.2 = false → Recorded p₀ (s.1 ++ [b]) r.1)) ↔ SuppliesRight s.2.1 b)) := by
  have hread := hp.readable
  constructor
  · intro as s h
    have hinv : Progress p₀ s.1 s.2 ∧ Recorded p₀ s.1 s.2.1 := by
      refine h.invariant (P := fun s => Progress p₀ s.1 s.2 ∧ Recorded p₀ s.1 s.2.1)
        ⟨hp.progress, (hp.progress.2 rfl).recorded⟩ ?_
      intro t b u ht hu
      obtain ⟨hprog, hrec⟩ := ht.1.step hread hu.1 hu.2.supplies
      exact ⟨hprog, hrec hu.2⟩
    refine ⟨hinv.1.1, hinv.2, fun b hopen ht => ?_⟩
    exact (hinv.1.2 hopen).records_iff hread (hinv.1.missing hopen) ht
  · intro as s h
    have hinv : Progress p₀ s.1 s.2 := by
      refine h.invariant (P := fun s => Progress p₀ s.1 s.2) hp.progress ?_
      intro t b u ht hu
      exact (ht.step hread hu.1 hu.2).1
    refine ⟨hinv.1, fun hopen => (hinv.2 hopen).recorded, fun b hopen ht => ?_⟩
    exact (hinv.2 hopen).supplies_iff hread (hinv.missing hopen) ht

def sampleRead : Packet where
  id := 0
  cmd := .readReq
  req := { paddr := 256, size := 8 }
  addr := 256
  size := 8

def sampleBuffer (k : Fin 8) (byte : UInt8) : ValueBuffer where
  base := 250 + 2 * k
  size := 4
  data := fun _ => byte
  size_pos := by decide
  size_int := by decide
  fits := by omega

/-- Four bytes from 254 on bring offsets 0 and 1, of which only 0 is recorded;
the four bytes from 258 on, which follow them, then make the access panic. -/
theorem not_collects_straddling :
    FunctionalRead sampleRead ∧
    ∃ p, (sampleBuffer 2 1).offer sampleRead = .ok (p, false) ∧
      ¬Recorded sampleRead [sampleBuffer 2 1] p ∧
      Touches sampleRead [sampleBuffer 2 1] (sampleBuffer 4 2) ∧
      (sampleBuffer 4 2).offer p =
        .error (.panic "BUG: Discontiguous bytes foundfor functional copying!") := by
  have hread : Readable sampleRead := ⟨rfl, by decide, by decide⟩
  refine ⟨⟨rfl, by decide, by decide, by decide, rfl, rfl⟩, _,
    (offer_of_part hread (by decide) (by decide)).trans rfl, fun hrec => ?_, ?_,
    (offer_of_part ⟨rfl, by decide, by decide⟩ (by decide) (by decide)).trans rfl⟩
  · have hcov : Covered sampleRead [sampleBuffer 2 1] 1 := ⟨_, List.mem_singleton_self _, by decide⟩
    exact absurd ((hrec 1).mpr hcov).2 (by decide)
  · refine .inr (.inr ⟨1, 2, ⟨_, List.mem_singleton_self _, by decide⟩, by decide, by
      decide, by decide⟩)

theorem run_collects_inside :
    ∃ as s, Runs (fun s b s' => Call sampleRead s b s' ∧ RecordsRight s.2.1 b)
        ([], sampleRead, false) as s ∧
      s.2.2 = true ∧ Supplied sampleRead s.1 s.2 := by
  have hp : FunctionalRead sampleRead := ⟨rfl, by decide, by decide, by decide, rfl, rfl⟩
  have h1 : Runs (fun s b s' => Call sampleRead s b s' ∧ RecordsRight s.2.1 b)
      ([], sampleRead, false) [sampleBuffer 3 1] ([sampleBuffer 3 1], _, false) :=
    .single ⟨⟨rfl, .inl (by simp [Covered]), rfl,
      (offer_of_part hp.readable (by decide) (by decide)).trans rfl⟩,
      fun _ => ⟨by decide, rfl, .inl ⟨by decide, by decide⟩⟩⟩
  have htouch : Touches sampleRead [sampleBuffer 3 1] (sampleBuffer 5 2) :=
    .inr (.inr ⟨3, 4, ⟨_, List.mem_singleton_self _, by decide⟩, by decide, by decide, by decide⟩)
  have h2 := h1.snoc (a := sampleBuffer 5 2) (u := ([sampleBuffer 3 1, sampleBuffer 5 2], _, true))
    ⟨⟨rfl, htouch, rfl,
      (offer_of_part ⟨rfl, by decide, by decide⟩ (by decide) (by decide)).trans rfl⟩,
      fun _ => ⟨by decide, rfl, .inl ⟨by decide, by decide⟩⟩⟩
  exact ⟨_, _, h2, rfl, ((run_collects hp).1 _ _ h2).1⟩

end Collecting

end Gem5
