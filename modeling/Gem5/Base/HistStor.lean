import Gem5.Lib.Double
import Gem5.Lib.InPlace
import Gem5.Lib.Loop
import Gem5.Lib.Run
import Gem5.Lib.Tally

/-!
# Histograms

`HistStor` of the statistics package: a number of buckets of one size that start at
`minBucket`. A value outside of the buckets makes them grow, by merging pairs of them in
place. The counters are doubles with integers in them; doubling one is exact. The sum of the
logarithms is left out.
-/

namespace Gem5

open Lib

structure HistStor where
  size : Nat
  minBucket : Int := 0
  maxBucket : Int
  bucketSize : Int := 1
  sum : Int := 0
  squares : Int := 0
  samples : Nat := 0
  cvec : Nat → Nat := fun _ => 0

namespace HistStor

def reset (buckets : Nat) : HistStor := { size := buckets, maxBucket := buckets - 1 }

def pairUp (size : Nat) (cvec : Nat → Nat) (pair : Nat) : Nat :=
  if pair + 1 < size then roundDouble (cvec pair + cvec (pair + 1)) else cvec pair

def pairDown (cvec : Nat → Nat) (pair : Nat) : Nat :=
  if 1 ≤ pair then roundDouble (cvec pair + cvec (pair - 1)) else cvec pair

def growOut (h : HistStor) : Chk HistStor := do
  let size := h.size
  let zeroBucket := size / 2
  let topHalf := zeroBucket + (size - zeroBucket + 1) / 2
  let bottomHalf := (size - zeroBucket) / 2
  -- grow down: round `n` is `i = zero - 1 - n`, with `low_pair = zero - 1 - 2 * n`
  let cvec := rewrite (zeroBucket - 1 - ·)
    (fun cvec n => pairDown cvec (zeroBucket - 1 - 2 * n)) (zeroBucket - bottomHalf) h.cvec
  let lowPair : Int := zeroBucket - 1 - 2 * (zeroBucket - bottomHalf : Nat)
  ensure (lowPair == 0 || lowPair == -1 || lowPair == -2)
    "low_pair == 0 || low_pair == -1 || low_pair == -2"
  let cvec := fun i => if i < bottomHalf then 0 else cvec i
  -- grow up
  let cvec := rewrite (zeroBucket + ·)
    (fun cvec n => pairUp size cvec (zeroBucket + 2 * n)) (topHalf - zeroBucket) cvec
  let highPair := zeroBucket + 2 * (topHalf - zeroBucket)
  ensure (highPair == size || highPair == size + 1)
    "high_pair == size || high_pair == size + 1"
  let cvec := fun i => if topHalf ≤ i ∧ i < size then 0 else cvec i
  return { h with
    cvec
    maxBucket := h.maxBucket * 2
    minBucket := h.minBucket * 2
    bucketSize := h.bucketSize * 2 }

def growConvert (h : HistStor) : HistStor :=
  let size := h.size
  let half := (size + 1) / 2
  let cvec := rewrite (size - 1 - ·)
    (fun cvec n => pairDown cvec (size - 1 - 2 * n)) (size - half) h.cvec
  let cvec := fun i => if i < half then 0 else cvec i
  { h with cvec, minBucket := -h.maxBucket, bucketSize := h.bucketSize * 2 }

def growUp (h : HistStor) : Chk HistStor := do
  let size := h.size
  let half := (size + 1) / 2
  let cvec := rewrite id (fun cvec n => pairUp size cvec (2 * n)) half h.cvec
  let pair := 2 * half
  ensure (pair == size || pair == size + 1) "pair == size || pair == size + 1"
  let cvec := fun i => if half ≤ i ∧ i < size then 0 else cvec i
  return { h with cvec, maxBucket := h.maxBucket * 2, bucketSize := h.bucketSize * 2 }

def limit (h : HistStor) : Int := toDouble (h.maxBucket + h.bucketSize)

def cover (h : HistStor) (val : Int) : Chk HistStor :=
  let fuel := val.natAbs + 1
  if val < h.minBucket then
    whileChk (val < ·.minBucket) growOut fuel (if h.minBucket = 0 then h.growConvert else h)
  else if h.limit ≤ val then
    if h.minBucket = 0 then whileChk (·.limit ≤ val) growUp fuel h
    else whileChk (·.limit ≤ val) growOut fuel h
  else return h

def sample (h : HistStor) (val : Int) (number : Nat) : Chk HistStor := do
  ensure (h.minBucket < h.maxBucket) "min_bucket < max_bucket"
  let h ← h.cover val
  -- a bucket size is a power of two, so the quotient is exact; `index` has 32 bits
  let index : Int := toDouble (val - h.minBucket) / h.bucketSize % 2 ^ 32
  ensure (index < h.size) "index >= 0 && index < size()"
  return { h with
    cvec := Function.update h.cvec index.toNat (roundDouble (h.cvec index.toNat + number))
    sum := toDouble (h.sum + toDouble (val * number))
    squares := toDouble (h.squares + toDouble (toDouble (val * val) * number))
    samples := roundDouble (h.samples + number) }

variable {h h' : HistStor} {i : Nat}

theorem rewrite_pairDown {mid rounds : Nat} {cvec : Nat → Nat} (hr : rounds ≤ mid)
    (hi : mid - rounds ≤ i) (hlt : i < mid) :
    rewrite (mid - 1 - ·) (fun cvec n => pairDown cvec (mid - 1 - 2 * n)) rounds cvec i =
      pairDown cvec (2 * i + 1 - mid) := by
  have hahead : ReadsAhead (mid - 1 - ·)
      (fun cvec n => pairDown cvec (mid - 1 - 2 * n)) rounds := by
    refine ⟨fun n hn m hm => by omega, fun n hn a b hab => ?_⟩
    have hread : ∀ c, c + n + 1 ≤ mid → a c = b c := fun c hc => hab c fun m hm => by omega
    rw [pairDown, pairDown, hread _ (by omega), hread _ (by omega)]
  have hround : mid - 1 - i < rounds := by omega
  have hcell := hahead.rewrite_cell hround (a := cvec)
  rwa [show mid - 1 - (mid - 1 - i) = i by omega,
    show mid - 1 - 2 * (mid - 1 - i) = 2 * i + 1 - mid by omega] at hcell

theorem rewrite_pairUp (mid : Nat) {size rounds : Nat} {cvec : Nat → Nat} (hi : mid ≤ i)
    (hlt : i < mid + rounds) :
    rewrite (mid + ·) (fun cvec n => pairUp size cvec (mid + 2 * n)) rounds cvec i =
      pairUp size cvec (2 * i - mid) := by
  have hahead : ReadsAhead (mid + ·)
      (fun cvec n => pairUp size cvec (mid + 2 * n)) rounds := by
    refine ⟨fun n _ m hm => by omega, fun n _ a b hab => ?_⟩
    have hread : ∀ c, mid + n ≤ c → a c = b c := fun c hc => hab c fun m hm => by omega
    rw [pairUp, pairUp, hread _ (by omega), hread _ (by omega)]
  have hround : i - mid < rounds := by omega
  have hcell := hahead.rewrite_cell hround (a := cvec)
  rwa [show mid + (i - mid) = i by omega,
    show mid + 2 * (i - mid) = 2 * i - mid by omega] at hcell

theorem growUp_eq (h : HistStor) : ∃ cvec, h.growUp = .ok { h with
    cvec, maxBucket := h.maxBucket * 2, bucketSize := h.bucketSize * 2 } ∧
    ∀ i < h.size, cvec i = if i < (h.size + 1) / 2 then pairUp h.size h.cvec (2 * i) else 0 := by
  have hpair : (2 * ((h.size + 1) / 2) == h.size || 2 * ((h.size + 1) / 2) == h.size + 1) = true := by
    simp only [Bool.or_eq_true, beq_iff_eq]
    omega
  refine ⟨_, by rw [growUp, ensure_of hpair]; rfl, fun i hi => ?_⟩
  by_cases hlow : i < (h.size + 1) / 2
  · rw [if_neg (by omega), if_pos hlow]
    simpa [Function.id_def] using rewrite_pairUp 0 (Nat.zero_le i)
      (hlow.trans_eq (Nat.zero_add _).symm)
  · rw [if_pos ⟨not_lt.mp hlow, hi⟩, if_neg hlow]

theorem growConvert_cvec (hi : i < h.size) :
    h.growConvert.cvec i = if i < (h.size + 1) / 2 then 0
      else pairDown h.cvec (2 * i + 1 - h.size) := by
  rw [growConvert]
  dsimp only
  by_cases hlow : i < (h.size + 1) / 2
  · rw [if_pos hlow, if_pos hlow]
  · rw [if_neg hlow, if_neg hlow]
    exact rewrite_pairDown (by omega) (by omega) hi

def grownOut (h : HistStor) (i : Nat) : Nat :=
  if i < (h.size - h.size / 2) / 2 then 0
  else if i < h.size / 2 then pairDown h.cvec (2 * i + 1 - h.size / 2)
  else if i < h.size / 2 + (h.size - h.size / 2 + 1) / 2 then pairUp h.size h.cvec (2 * i - h.size / 2)
  else 0

theorem growOut_eq (h : HistStor) : ∃ cvec, h.growOut = .ok { h with
    cvec, maxBucket := h.maxBucket * 2, minBucket := h.minBucket * 2,
    bucketSize := h.bucketSize * 2 } ∧
    ∀ i < h.size, cvec i = h.grownOut i := by
  unfold grownOut
  set zeroBucket := h.size / 2 with hzero
  set bottomHalf := (h.size - zeroBucket) / 2 with hbottom
  set topHalf := zeroBucket + (h.size - zeroBucket + 1) / 2 with htop
  have hlow : ((zeroBucket : Int) - 1 - 2 * (zeroBucket - bottomHalf : Nat) == 0 ||
      (zeroBucket : Int) - 1 - 2 * (zeroBucket - bottomHalf : Nat) == -1 ||
      (zeroBucket : Int) - 1 - 2 * (zeroBucket - bottomHalf : Nat) == -2) = true := by
    simp only [Bool.or_eq_true, beq_iff_eq]
    omega
  have hhigh : (zeroBucket + 2 * (topHalf - zeroBucket) == h.size ||
      zeroBucket + 2 * (topHalf - zeroBucket) == h.size + 1) = true := by
    simp only [Bool.or_eq_true, beq_iff_eq]
    omega
  refine ⟨_, by rw [growOut, ensure_of hlow]; dsimp only; rw [ok_bind, ensure_of hhigh]; rfl,
    fun i hi => ?_⟩
  have hbelow : i < zeroBucket → ∀ n < topHalf - zeroBucket, i ≠ zeroBucket + n :=
    fun hlt n _ => by omega
  by_cases hb : i < bottomHalf
  · rw [if_neg (by omega), if_pos hb, rewrite_of_ne (hbelow (by omega)), if_pos hb]
  · rw [if_neg hb]
    by_cases hz : i < zeroBucket
    · rw [if_neg (by omega), if_pos hz, rewrite_of_ne (hbelow hz), if_neg hb]
      exact rewrite_pairDown (by omega) (by omega) hz
    · rw [if_neg hz]
      by_cases ht : i < topHalf
      · rw [if_neg (by omega), if_pos ht]
        refine (rewrite_pairUp _ (not_lt.mp hz) (by omega)).trans ?_
        have hold : ∀ c, zeroBucket ≤ c → (if c < bottomHalf then 0 else rewrite (zeroBucket - 1 - ·)
            (fun cvec n => pairDown cvec (zeroBucket - 1 - 2 * n)) (zeroBucket - bottomHalf) h.cvec
            c) = h.cvec c := by
          intro c hc
          rw [if_neg (by omega)]
          exact rewrite_of_ne fun m hm => by omega
        rw [pairUp, pairUp, hold _ (by omega), hold _ (by omega)]
      · rw [if_pos ⟨not_lt.mp ht, hi⟩, if_neg ht]

variable {history : List (Int × Nat)} {val v : Int} {number : Nat}

structure Placed (h : HistStor) : Prop where
  two_le : 2 ≤ h.size
  size_lt : h.size < 2 ^ 31
  pos : 0 < h.bucketSize
  sides : h.minBucket = 0 ∧ h.maxBucket = (h.size - 1) * h.bucketSize ∨
    h.minBucket = -h.maxBucket ∧ 2 * h.maxBucket = (h.size - 1) * h.bucketSize
  small : h.maxBucket < 2 ^ 51

def bucketOf (h : HistStor) (v : Int) : Int := (v - h.minBucket) / h.bucketSize

structure Holds (h : HistStor) (history : List (Int × Nat)) : Prop where
  samples : h.samples = (history.map Prod.snd).sum
  exact : (history.map Prod.snd).sum < 2 ^ 53
  inside : ∀ s ∈ history, s.2 = 0 ∨ 0 ≤ h.bucketOf s.1 ∧ h.bucketOf s.1 < h.size
  buckets : ∀ i < h.size, h.cvec i = tally history (h.bucketOf · = i)

section

variable (hp : h.Placed)
include hp

theorem Placed.le_span : h.bucketSize ≤ (h.size - 1) * h.bucketSize := by
  have hsize : (1 : Int) ≤ h.size - 1 := by
    have := hp.two_le
    omega
  exact le_mul_of_one_le_left hp.pos.le hsize

theorem Placed.max_pos : 0 < h.maxBucket := by
  have := hp.le_span
  have := hp.pos
  rcases hp.sides with ⟨-, hmax⟩ | ⟨-, hmax⟩ <;> omega

theorem Placed.min_nonpos : h.minBucket ≤ 0 := by
  have := hp.max_pos
  rcases hp.sides with ⟨hmin, -⟩ | ⟨hmin, -⟩ <;> omega

theorem Placed.min_eq (hmin : h.minBucket ≠ 0) :
    h.minBucket = -h.maxBucket ∧ 2 * h.maxBucket = (h.size - 1) * h.bucketSize :=
  hp.sides.resolve_left fun hzero => hmin hzero.1

theorem Placed.top : h.maxBucket + h.bucketSize = h.minBucket + h.size * h.bucketSize := by
  rcases hp.sides with ⟨hmin, hmax⟩ | ⟨hmin, hmax⟩
  · rw [hmin, hmax]
    ring
  · rw [hmin]
    linarith

theorem Placed.limit_eq : h.limit = h.maxBucket + h.bucketSize := by
  have := hp.le_span
  have := hp.max_pos
  have := hp.pos
  have := hp.small
  refine toDouble_eq ?_ ?_
  · omega
  · rcases hp.sides with ⟨-, hmax⟩ | ⟨-, hmax⟩ <;> omega

theorem Placed.bucketOf_iff :
    0 ≤ h.bucketOf v ∧ h.bucketOf v < h.size ↔
      h.minBucket ≤ v ∧ v < h.maxBucket + h.bucketSize := by
  rw [hp.top, bucketOf, Int.ediv_nonneg_iff_of_pos hp.pos, Int.ediv_lt_iff_lt_mul hp.pos]
  omega

end

section

variable (hh : h.Holds history)
include hh

theorem Holds.add_exact (hpq : ∀ v, p v → ¬ q v) [DecidablePred p] [DecidablePred q] :
    roundDouble (tally history p + tally history q) = tally history (fun v => p v ∨ q v) := by
  rw [tally_or hpq]
  exact roundDouble_eq (tally_le.trans_lt hh.exact)

theorem Holds.pairUp (hp : p < h.size) : pairUp h.size h.cvec p =
    tally history (fun v => h.bucketOf v = p ∨ h.bucketOf v = (p + 1 : Nat)) := by
  rw [HistStor.pairUp]
  split_ifs with hlt
  · rw [hh.buckets p hp, hh.buckets (p + 1) hlt]
    exact hh.add_exact fun v hv hv' => by omega
  · rw [hh.buckets p hp]
    refine tally_congr fun s hs => (hh.inside s hs).imp_right fun hin => ?_
    omega

theorem Holds.pairDown (hp : p < h.size) : pairDown h.cvec p =
    tally history (fun v => h.bucketOf v = p ∨ h.bucketOf v = (p : Int) - 1) := by
  rw [HistStor.pairDown]
  split_ifs with hle
  · rw [hh.buckets p hp, hh.buckets (p - 1) (by omega), Nat.cast_pred hle]
    exact hh.add_exact fun v hv hv' => by omega
  · rw [hh.buckets p hp]
    refine tally_congr fun s hs => (hh.inside s hs).imp_right fun hin => ?_
    omega

/-- Growing puts bucket `j` into `(j + mid) / 2` and drops what would come below `bottom`. It
keeps what is in the buckets if that is where the samples belong then. -/
theorem Holds.grown (mid bottom : Nat) (hmid : mid ≤ h.size) (hsize : h'.size = h.size)
    (hsamples : h'.samples = h.samples)
    (hcvec : ∀ i < h.size, h'.cvec i =
      if i < bottom then 0 else tally history (fun v => (h.bucketOf v + mid) / 2 = i))
    (hstays : ∀ s ∈ history, s.2 = 0 ∨ h'.bucketOf s.1 = (h.bucketOf s.1 + mid) / 2 ∧
      bottom ≤ (h.bucketOf s.1 + mid) / 2) : h'.Holds history where
  samples := hsamples.trans hh.samples
  exact := hh.exact
  inside s hs := by
    rcases hh.inside s hs with hzero | hin
    · exact .inl hzero
    · refine (hstays s hs).imp_right fun hs => ?_
      rw [hs.1, hsize]
      omega
  buckets i hi := by
    rw [hsize] at hi
    rw [hcvec i hi]
    split_ifs with hlow
    · refine (tally_eq_zero fun s hs => (hstays s hs).imp_right fun hs => ?_).symm
      omega
    · refine tally_congr fun s hs => (hstays s hs).imp_right fun hs => ?_
      rw [hs.1]

theorem Holds.pairUp_mid {mid : Nat} (hmid : mid ≤ 2 * i) (hlt : 2 * i - mid < h.size) :
    HistStor.pairUp h.size h.cvec (2 * i - mid) =
      tally history (fun v => (h.bucketOf v + mid) / 2 = i) := by
  rw [hh.pairUp hlt]
  exact tally_congr fun s _ => .inr (by omega)

theorem Holds.pairDown_mid {mid : Nat} (hmid : mid ≤ 2 * i + 1)
    (hlt : 2 * i + 1 - mid < h.size) : HistStor.pairDown h.cvec (2 * i + 1 - mid) =
      tally history (fun v => (h.bucketOf v + mid) / 2 = i) := by
  rw [hh.pairDown hlt]
  exact tally_congr fun s _ => .inr (by omega)

theorem Holds.above {mid : Nat} (hi : h.size + mid ≤ 2 * i) :
    tally history (fun v => (h.bucketOf v + mid) / 2 = i) = 0 :=
  tally_eq_zero fun s hs => (hh.inside s hs).imp_right fun hin => by omega

end

/-- Growing outwards leaves the value in the bucket that covers it. -/
def StaysOut (h : HistStor) (v : Int) : Prop :=
  (v - h.minBucket * 2) / (h.bucketSize * 2) = (h.bucketOf v + (h.size / 2 : Nat)) / 2 ∧
    ((h.size - h.size / 2) / 2 : Nat) ≤ (h.bucketOf v + (h.size / 2 : Nat)) / 2

def StaysConvert (h : HistStor) (v : Int) : Prop :=
  (v - -h.maxBucket) / (h.bucketSize * 2) = (h.bucketOf v + h.size) / 2 ∧
    ((h.size + 1) / 2 : Nat) ≤ (h.bucketOf v + h.size) / 2

section

variable (hp : h.Placed) (hh : h.Holds history)
include hp hh

theorem growUp_spec (hmin : h.minBucket = 0) (hsmall : h.maxBucket < 2 ^ 50) :
    ∃ h', h.growUp = .ok h' ∧ h'.Placed ∧ h'.Holds history ∧ h'.minBucket = 0 ∧
      h'.maxBucket = h.maxBucket * 2 := by
  obtain ⟨cvec, heq, hcvec⟩ := growUp_eq h
  have hpos := hp.pos
  have hmax : h.maxBucket = (h.size - 1) * h.bucketSize := by
    have := hp.max_pos
    rcases hp.sides with hside | hside <;> omega
  refine ⟨_, heq, ⟨hp.two_le, hp.size_lt, by dsimp only; omega, .inl ⟨hmin, ?_⟩, ?_⟩, ?_, hmin,
    rfl⟩
  · dsimp only
    rw [hmax, mul_assoc]
  · dsimp only
    omega
  · refine hh.grown 0 0 (Nat.zero_le _) rfl rfl (fun i hi => ?_)
      fun s hs => ?_
    · dsimp only at hi ⊢
      rw [hcvec i hi, if_neg (Nat.not_lt_zero i)]
      split_ifs with hlow
      · exact hh.pairUp_mid (Nat.zero_le _) (by omega)
      · exact (hh.above (by omega)).symm
    · rcases hh.inside s hs with hzero | hin
      · exact .inl hzero
      · refine .inr ⟨?_, by omega⟩
        simp only [bucketOf, hmin, sub_zero, Nat.cast_zero, add_zero]
        exact (Int.ediv_ediv_of_nonneg hpos.le).symm

theorem growConvert_spec (hmin : h.minBucket = 0)
    (hstays : ∀ s ∈ history, s.2 = 0 ∨ h.StaysConvert s.1) :
    h.growConvert.Placed ∧ h.growConvert.Holds history := by
  have hmax : h.maxBucket = (h.size - 1) * h.bucketSize := by
    have := hp.max_pos
    rcases hp.sides with hside | hside <;> omega
  have hpos : 0 < h.bucketSize * 2 := Int.mul_pos hp.pos two_pos
  refine ⟨⟨hp.two_le, hp.size_lt, hpos, .inr ⟨rfl, ?_⟩, hp.small⟩, ?_⟩
  · show 2 * h.maxBucket = (h.size - 1) * (h.bucketSize * 2)
    rw [hmax]
    ring
  · refine hh.grown h.size ((h.size + 1) / 2) le_rfl rfl rfl (fun i hi => ?_)
      hstays
    rw [growConvert_cvec hi]
    split_ifs with hlow
    · rfl
    · exact hh.pairDown_mid (by omega) (by omega)

theorem growOut_spec (hmin : h.minBucket ≠ 0) (hsmall : h.maxBucket < 2 ^ 50)
    (hstays : ∀ s ∈ history, s.2 = 0 ∨ h.StaysOut s.1) :
    ∃ h', h.growOut = .ok h' ∧ h'.Placed ∧ h'.Holds history ∧ h'.size = h.size ∧
      h'.minBucket = h.minBucket * 2 ∧ h'.maxBucket = h.maxBucket * 2 ∧
      h'.bucketSize = h.bucketSize * 2 := by
  obtain ⟨cvec, heq, hcvec⟩ := growOut_eq h
  have hpos : 0 < h.bucketSize * 2 := Int.mul_pos hp.pos two_pos
  obtain ⟨hneg, hmax⟩ := hp.min_eq hmin
  refine ⟨_, heq, ⟨hp.two_le, hp.size_lt, hpos, .inr ⟨?_, ?_⟩, ?_⟩, ?_, rfl, rfl, rfl, rfl⟩
  · dsimp only
    rw [hneg, neg_mul]
  · dsimp only
    linarith
  · dsimp only
    omega
  · refine hh.grown (h.size / 2) _ (Nat.div_le_self _ _) rfl rfl (fun i hi => ?_) hstays
    dsimp only at hi ⊢
    rw [hcvec i hi, grownOut]
    split_ifs with hlow hbelow habove
    · rfl
    · exact hh.pairDown_mid (by omega) (by omega)
    · exact hh.pairUp_mid (by omega) (by omega)
    · exact (hh.above (by omega)).symm

end

def wider (h : HistStor) (k : Nat) : HistStor := { h with
  minBucket := h.minBucket * 2 ^ k
  maxBucket := h.maxBucket * 2 ^ k
  bucketSize := h.bucketSize * 2 ^ k }

/-- Each growth outwards that the value asks for moves no sample. -/
def KeepsOut (h : HistStor) (history : List (Int × Nat)) (val : Int) : Prop :=
  ∀ k ≤ val.natAbs, val < (h.wider k).minBucket ∨
    (h.wider k).maxBucket + (h.wider k).bucketSize ≤ val →
      ∀ s ∈ history, s.2 = 0 ∨ (h.wider k).StaysOut s.1

/-- Taking the value moves no sample that was taken before. -/
def Keeps (h : HistStor) (history : List (Int × Nat)) (val : Int) : Prop :=
  if h.minBucket = 0 then
    val < 0 → (∀ s ∈ history, s.2 = 0 ∨ h.StaysConvert s.1) ∧ h.growConvert.KeepsOut history val
  else h.KeepsOut history val

instance (h : HistStor) : DecidablePred h.StaysOut :=
  fun _ => inferInstanceAs (Decidable (_ ∧ _))

instance (h : HistStor) : DecidablePred h.StaysConvert :=
  fun _ => inferInstanceAs (Decidable (_ ∧ _))

instance (h : HistStor) (history : List (Int × Nat)) : DecidablePred (h.KeepsOut history) :=
  fun val => inferInstanceAs (Decidable (∀ k ≤ val.natAbs, _ → _))

instance (h : HistStor) (history : List (Int × Nat)) : DecidablePred (h.Keeps history) :=
  fun _ => inferInstanceAs (Decidable (ite _ _ _))

theorem KeepsOut.stays (hk : h.KeepsOut history val)
    (hval : val < h.minBucket ∨ h.maxBucket + h.bucketSize ≤ val) :
    ∀ s ∈ history, s.2 = 0 ∨ h.StaysOut s.1 := by
  have hwider : h.wider 0 = h := by simp [wider]
  have hzero := hk 0 (Nat.zero_le _)
  rw [hwider] at hzero
  exact hzero hval

theorem KeepsOut.grown (hp : h'.Placed) (hk : h.KeepsOut history val) (hsize : h'.size = h.size)
    (hmin : h'.minBucket = h.minBucket * 2) (hmax : h'.maxBucket = h.maxBucket * 2)
    (hbucket : h'.bucketSize = h.bucketSize * 2) (hneg : h'.minBucket ≠ 0) :
    h'.KeepsOut history val := by
  intro k _ hval s hs
  have hmin' : (h'.wider k).minBucket = (h.wider (k + 1)).minBucket := by
    simp only [wider, hmin, pow_succ']
    ring
  have hmax' : (h'.wider k).maxBucket = (h.wider (k + 1)).maxBucket := by
    simp only [wider, hmax, pow_succ']
    ring
  have hbucket' : (h'.wider k).bucketSize = (h.wider (k + 1)).bucketSize := by
    simp only [wider, hbucket, pow_succ']
    ring
  have hsize' : (h'.wider k).size = (h.wider (k + 1)).size := hsize
  -- the buckets reach at least as far as `2 ^ (k + 1)` on either side
  have hfar : k + 1 ≤ val.natAbs := by
    have hpow : (k : Int) < 2 ^ k := by exact_mod_cast Nat.lt_two_pow_self
    have hone := hp.max_pos
    have hle : (2 : Int) ^ k ≤ h'.maxBucket * 2 ^ k := le_mul_of_one_le_left (by positivity) hone
    have hside : h'.minBucket * 2 ^ k = -(h'.maxBucket * 2 ^ k) := by
      rw [(hp.min_eq hneg).1, neg_mul]
    have hwide : 0 < h'.bucketSize * 2 ^ k := by
      have := hp.pos
      positivity
    simp only [wider] at hval
    omega
  rw [hmin', hmax', hbucket'] at hval
  simpa only [StaysOut, bucketOf, hmin', hbucket', hsize'] using hk (k + 1) hfar hval s hs

theorem whileOut_spec (more : HistStor → Prop) [DecidablePred more] (measure : HistStor → Nat)
    (fuel : Nat) (hp : h.Placed) (hh : h.Holds history) (hmin : h.minBucket ≠ 0)
    (hk : h.KeepsOut history val)
    (hmore : ∀ h : HistStor, h.Placed → h.minBucket ≠ 0 → more h → h.maxBucket < 2 ^ 50 ∧
      (val < h.minBucket ∨ h.maxBucket + h.bucketSize ≤ val))
    (hless : ∀ h h' : HistStor, h.Placed → h'.Placed → more h → h'.minBucket = h.minBucket * 2 →
      h'.maxBucket = h.maxBucket * 2 → h'.bucketSize = h.bucketSize * 2 → h.minBucket ≠ 0 →
      measure h' < measure h)
    (hfuel : measure h < fuel) :
    ∃ h', whileChk more growOut fuel h = .ok h' ∧ h'.Placed ∧ h'.Holds history ∧
      h'.minBucket ≠ 0 ∧ ¬ more h' := by
  have hbody : ∀ h : HistStor,
      (h.Placed ∧ h.Holds history ∧ h.minBucket ≠ 0 ∧ h.KeepsOut history val) → more h →
      ∃ h', h.growOut = .ok h' ∧
        (h'.Placed ∧ h'.Holds history ∧ h'.minBucket ≠ 0 ∧ h'.KeepsOut history val) ∧
        measure h' < measure h := by
    rintro h ⟨hp, hh, hmin, hk⟩ hgoes
    obtain ⟨hsmall, hval⟩ := hmore h hp hmin hgoes
    obtain ⟨h', heq, hp', hh', hsize, hmin', hmax', hbucket⟩ :=
      growOut_spec hp hh hmin hsmall (hk.stays hval)
    have hne : h'.minBucket ≠ 0 := by omega
    exact ⟨h', heq, ⟨hp', hh', hne, hk.grown hp' hsize hmin' hmax' hbucket hne⟩,
      hless h h' hp hp' hgoes hmin' hmax' hbucket hmin⟩
  obtain ⟨h', heq, ⟨hp', hh', hmin', -⟩, hstop⟩ :=
    whileChk_spec more growOut _ measure hbody fuel h ⟨hp, hh, hmin, hk⟩ hfuel
  exact ⟨h', heq, hp', hh', hmin', hstop⟩

theorem whileUp_spec (hp : h.Placed) (hh : h.Holds history) (hmin : h.minBucket = 0)
    (hval : val ≤ 2 ^ 50) (hnonneg : 0 ≤ val) :
    ∃ h', whileChk (fun h : HistStor => h.limit ≤ val) growUp (val.natAbs + 1) h = .ok h' ∧
      h'.Placed ∧ h'.Holds history ∧ h'.minBucket = 0 ∧ ¬ h'.limit ≤ val := by
  have hbody : ∀ h : HistStor, (h.Placed ∧ h.Holds history ∧ h.minBucket = 0) → h.limit ≤ val →
      ∃ h', h.growUp = .ok h' ∧ (h'.Placed ∧ h'.Holds history ∧ h'.minBucket = 0) ∧
        (val - h'.maxBucket).toNat < (val - h.maxBucket).toNat := by
    rintro h ⟨hp, hh, hmin⟩ hmore
    have hpos := hp.max_pos
    have hbucket := hp.pos
    rw [hp.limit_eq] at hmore
    obtain ⟨h', heq, hp', hh', hmin', hmax'⟩ := growUp_spec hp hh hmin (by omega)
    exact ⟨h', heq, ⟨hp', hh', hmin'⟩, by omega⟩
  have hpos := hp.max_pos
  obtain ⟨h', heq, ⟨hp', hh', hmin'⟩, hstop⟩ := whileChk_spec _ growUp _
    (fun h => (val - h.maxBucket).toNat) hbody (val.natAbs + 1) h ⟨hp, hh, hmin⟩ (by omega)
  exact ⟨h', heq, hp', hh', hmin', hstop⟩

theorem convert_spec (hp : h.Placed) (hh : h.Holds history) (hkeeps : h.Keeps history val)
    (hbelow : val < h.minBucket) :
    ∃ h', (if h.minBucket = 0 then h.growConvert else h) = h' ∧ h'.Placed ∧ h'.Holds history ∧
      h'.minBucket ≠ 0 ∧ h'.KeepsOut history val := by
  rw [Keeps] at hkeeps
  split_ifs at hkeeps ⊢ with hzero
  · obtain ⟨hstays, hk⟩ := hkeeps (hzero ▸ hbelow)
    obtain ⟨hp', hh'⟩ := growConvert_spec hp hh hzero hstays
    exact ⟨_, rfl, hp', hh', neg_ne_zero.mpr hp.max_pos.ne', hk⟩
  · exact ⟨h, rfl, hp, hh, hzero, hkeeps⟩

theorem cover_spec (hp : h.Placed) (hh : h.Holds history) (hkeeps : h.Keeps history val)
    (hlo : -2 ^ 50 ≤ val) (hhi : val ≤ 2 ^ 50) :
    ∃ h', h.cover val = .ok h' ∧ h'.Placed ∧ h'.Holds history ∧
      h'.minBucket ≤ val ∧ val < h'.maxBucket + h'.bucketSize := by
  rw [cover]
  have hmin := hp.min_nonpos
  have hmax := hp.max_pos
  by_cases hbelow : val < h.minBucket
  · rw [if_pos hbelow]
    obtain ⟨h1, heq, hp1, hh1, hneg, hk⟩ := convert_spec hp hh hkeeps hbelow
    rw [heq]
    obtain ⟨h', heq', hp', hh', -, hstop⟩ := whileOut_spec (val < ·.minBucket)
      (fun h => (h.minBucket - val).toNat) (val.natAbs + 1) hp1 hh1 hneg hk
      (fun h hp hmin hmore => ⟨by have := hp.min_eq hmin; omega, .inl hmore⟩)
      (fun h h' hp _ _ _ _ _ hmin => by have := hp.min_eq hmin; have := hp.max_pos; omega)
      (by have := hp1.min_nonpos; omega)
    have := hp'.max_pos
    have := hp'.pos
    exact ⟨h', heq', hp', hh', not_lt.mp hstop, by omega⟩
  · rw [if_neg hbelow]
    by_cases habove : h.limit ≤ val
    · rw [if_pos habove]
      rw [hp.limit_eq] at habove
      have hpos := hp.pos
      split_ifs with hzero
      · obtain ⟨h', heq, hp', hh', hmin', hstop⟩ := whileUp_spec hp hh hzero hhi (by omega)
        rw [hp'.limit_eq] at hstop
        exact ⟨h', heq, hp', hh', by omega, not_le.mp hstop⟩
      · rw [Keeps, if_neg hzero] at hkeeps
        obtain ⟨h', heq, hp', hh', hneg, hstop⟩ := whileOut_spec (·.limit ≤ val)
          (fun h => (val - h.maxBucket).toNat) (val.natAbs + 1) hp hh hzero hkeeps
          (fun h hp _ hmore => by
            rw [hp.limit_eq] at hmore
            have := hp.pos
            exact ⟨by omega, .inr hmore⟩)
          (fun h h' hp _ hmore _ _ _ _ => by
            rw [hp.limit_eq] at hmore
            have := hp.pos
            have := hp.max_pos
            omega) (by omega)
        rw [hp'.limit_eq] at hstop
        have := hp'.min_nonpos
        exact ⟨h', heq, hp', hh', by omega, not_le.mp hstop⟩
    · rw [if_neg habove]
      rw [hp.limit_eq] at habove
      exact ⟨h, rfl, hp, hh, not_lt.mp hbelow, not_le.mp habove⟩

theorem sample_spec (hp : h.Placed) (hh : h.Holds history) (hkeeps : h.Keeps history val)
    (hlo : -2 ^ 50 ≤ val) (hhi : val ≤ 2 ^ 50)
    (hcount : (history.map Prod.snd).sum + number < 2 ^ 53) :
    ∃ h', h.sample val number = .ok h' ∧ h'.Placed ∧ h'.Holds (history ++ [(val, number)]) := by
  obtain ⟨h1, heq, hp1, hh1, hin⟩ := cover_spec hp hh hkeeps hlo hhi
  have hcovers := hp1.bucketOf_iff.mpr hin
  obtain ⟨j, hj⟩ := Int.eq_ofNat_of_zero_le hcovers.1
  have hsize : j < h1.size := by
    have := hcovers.2
    omega
  -- neither the difference nor the index is cut
  have hindex : toDouble (val - h1.minBucket) / h1.bucketSize % 2 ^ 32 = j := by
    have hmin := hp1.min_nonpos
    have hbound : -2 ^ 51 < h1.minBucket := by
      have := hp1.small
      rcases hp1.sides with ⟨hzero, -⟩ | ⟨hneg, -⟩ <;> omega
    rw [toDouble_eq (by omega) (by omega), ← bucketOf, hj]
    have := hp1.size_lt
    exact Int.emod_eq_of_lt (Int.natCast_nonneg j) (by omega)
  have hsample : h.sample val number = .ok { h1 with
      cvec := Function.update h1.cvec j (roundDouble (h1.cvec j + number))
      sum := toDouble (h1.sum + toDouble (val * number))
      squares := toDouble (h1.squares + toDouble (toDouble (val * val) * number))
      samples := roundDouble (h1.samples + number) } := by
    have hlt : h.minBucket < h.maxBucket := hp.min_nonpos.trans_lt hp.max_pos
    rw [sample, ensure_of (by simpa using hlt), ok_bind, heq, ok_bind]
    dsimp only
    rw [hindex, ensure_of (by simpa using hsize), ok_bind]
    rfl
  have hle : h1.cvec j + number < 2 ^ 53 := by
    rw [hh1.buckets j hsize]
    exact (Nat.add_le_add_right tally_le number).trans_lt hcount
  have hsum : ((history ++ [(val, number)]).map Prod.snd).sum =
      (history.map Prod.snd).sum + number := by
    rw [List.map_append, List.sum_append, List.map_singleton, List.sum_singleton]
  refine ⟨_, hsample, { hp1 with }, ⟨?_, hsum.trans_lt hcount, fun s hs => ?_, fun i hi => ?_⟩⟩
  · dsimp only
    rw [hh1.samples, roundDouble_eq hcount, hsum]
  · rcases List.mem_append.mp hs with hs | hs
    · exact hh1.inside s hs
    · rw [List.mem_singleton.mp hs]
      exact .inr hcovers
  · dsimp only at hi ⊢
    rw [roundDouble_eq hle, tally_concat, Function.update_apply]
    show _ = tally history (h1.bucketOf · = i) + if h1.bucketOf val = i then number else 0
    rw [← hh1.buckets i hi, hj]
    simp only [Nat.cast_inj]
    rcases eq_or_ne i j with rfl | hne
    · rw [if_pos rfl, if_pos rfl]
    · rw [if_neg hne, if_neg hne.symm, Nat.add_zero]

/-- Every bucket holds the samples that it covers, and no sample is lost. -/
structure Exact (h : HistStor) (history : List (Int × Nat)) : Prop where
  total : ∑ i ∈ Finset.range h.size, h.cvec i = (history.map Prod.snd).sum
  samples : h.samples = (history.map Prod.snd).sum
  buckets : ∀ i < h.size, h.cvec i = tally history fun v =>
    h.minBucket + i * h.bucketSize ≤ v ∧ v < h.minBucket + (i + 1 : Nat) * h.bucketSize

theorem bucket_iff (hwidth : 0 < width) (i : Nat) :
    lo + i * width ≤ val ∧ val < lo + (i + 1 : Nat) * width ↔ (val - lo) / width = i := by
  rw [← le_sub_iff_add_le', ← Int.le_ediv_iff_mul_le hwidth, ← sub_lt_iff_lt_add',
    ← Int.ediv_lt_iff_lt_mul hwidth]
  omega

theorem Holds.counts (hp : h.Placed) (hh : h.Holds history) : h.Exact history where
  total := by
    rw [Finset.sum_congr rfl fun i hi => hh.buckets i (Finset.mem_range.mp hi)]
    exact sum_tally h.bucketOf h.size hh.inside
  samples := hh.samples
  buckets i hi := by
    rw [hh.buckets i hi]
    exact tally_congr fun s _ => .inr (bucket_iff hp.pos i).symm

theorem reset_placed (hbuckets : 2 ≤ buckets) (hlt : buckets < 2 ^ 31) :
    (reset buckets).Placed where
  two_le := hbuckets
  size_lt := hlt
  pos := Int.one_pos
  sides := .inl ⟨rfl, by simp [reset]⟩
  small := by
    show (buckets : Int) - 1 < 2 ^ 51
    omega

end HistStor

structure HistWorld where
  hist : HistStor
  history : List (Int × Nat) := []

namespace HistWorld

variable {w : HistWorld}

def sample (w : HistWorld) (s : Int × Nat) : Chk HistWorld := do
  let hist ← w.hist.sample s.1 s.2
  return { hist, history := w.history ++ [s] }

/-- Value and counts are within the range where doubles are exact, and no sample is moved. -/
def Allowed (w : HistWorld) (s : Int × Nat) : Prop :=
  (-2 ^ 50 ≤ s.1 ∧ s.1 ≤ 2 ^ 50 ∧ (w.history.map Prod.snd).sum + s.2 < 2 ^ 53) ∧
    w.hist.Keeps w.history s.1

instance (w : HistWorld) : DecidablePred w.Allowed := fun _ => inferInstanceAs (Decidable (_ ∧ _))

theorem sample_spec {s : Int × Nat} (hp : w.hist.Placed) (hh : w.hist.Holds w.history)
    (hallowed : w.Allowed s) : ∃ w', w.sample s = .ok w' ∧ w'.hist.Placed ∧
      w'.hist.Holds w'.history ∧ w'.history = w.history ++ [s] := by
  obtain ⟨⟨hlo, hhi, hcount⟩, hkeeps⟩ := hallowed
  obtain ⟨h', heq, hp', hh'⟩ := HistStor.sample_spec hp hh hkeeps hlo hhi hcount
  exact ⟨_, by rw [sample, heq]; rfl, hp', hh', rfl⟩

end HistWorld

namespace HistStor

end HistStor

end Gem5
