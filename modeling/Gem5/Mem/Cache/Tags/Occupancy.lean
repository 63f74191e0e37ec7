import Gem5.Mem.Cache.Tags.LRU

/-!
# The occupancy statistics of the LRU tag store

`tagsInUse` and `occupancies` are counted up and down as blocks are replaced and given up.
They are the numbers of blocks in use, and of those each master brought in.
-/

namespace Gem5

open Lib Finset TagStore Function

namespace LRU

variable {t t' : LRU} {b : Nat}

def Uses (t : LRU) : TagOp → LRU → Prop
  | .fill now addr master status, t' => status.valid = true ∧ t.fill now addr master status = .ok t'
  | .evict b, t' => b < TagStore.numBlks t ∧ t.evict b = .ok t'
  | _, _ => False

def count (t : LRU) (p : CacheBlk → Bool) : Nat :=
  ∑ b ∈ range (TagStore.numBlks t), (p (t.blks b)).toNat

def holds (master : Nat) (blk : CacheBlk) : Bool := blk.isValid && blk.srcMasterId == master

structure Puts (t t' : LRU) (b : Nat) : Prop where
  geom : t'.geom = t.geom
  maxMasters : t'.maxMasters = t.maxMasters
  sets : ∀ s, ∀ a ∈ t'.sets s, a ∈ t.sets s
  others : ∀ a, a ≠ b → t'.blks a = t.blks a
  touched : (t'.blks b).isTouched = (t'.blks b).isValid
  master : (t'.blks b).isValid = true → (t'.blks b).srcMasterId < t.maxMasters
  tagsInUse : t'.tagsInUse + (t.blks b).isTouched.toNat = t.tagsInUse + (t'.blks b).isTouched.toNat
  occupancies : ∀ m, t'.occupancies m + (holds m (t.blks b)).toNat = t.occupancies m +
    (holds m (t'.blks b)).toNat

structure Counted (t : LRU) : Prop where
  frames : ∀ s < t.geom.numSets, ∀ b ∈ t.sets s, b < TagStore.numBlks t
  touched : ∀ b, (t.blks b).isTouched = (t.blks b).isValid
  master : ∀ b, (t.blks b).isValid = true → (t.blks b).srcMasterId < t.maxMasters
  tagsInUse : t.tagsInUse = t.count (·.isTouched)
  occupancies : ∀ m, t.occupancies m = t.count (holds m)

theorem Puts.count (h : t.Puts t' b) (hb : b < numBlks t) (p : CacheBlk → Bool) :
    t'.count p + (p (t.blks b)).toNat = t.count p + (p (t'.blks b)).toNat := by
  have hmem := mem_range.mpr hb
  have hnum : numBlks t' = numBlks t := by simp [numBlks, h.geom]
  have hrest : ∑ a ∈ (range (numBlks t)).erase b, (p (t'.blks a)).toNat =
      ∑ a ∈ (range (numBlks t)).erase b, (p (t.blks a)).toNat :=
    sum_congr rfl fun a ha => by rw [h.others a (ne_of_mem_erase ha)]
  rw [LRU.count, LRU.count,
    hnum, ← add_sum_erase _ _ hmem, ← add_sum_erase _ (fun a => (p (t.blks a)).toNat) hmem, hrest]
  omega

theorem Counted.puts (h : t.Counted) (hp : t.Puts t' b) (hb : b < numBlks t) : t'.Counted where
  frames s hs a ha := by
    have hlt := h.frames s (hp.geom ▸ hs) a (hp.sets s a ha)
    simpa [numBlks, hp.geom] using hlt
  touched a := by
    by_cases ha : a = b
    · exact ha ▸ hp.touched
    · rw [hp.others a ha, h.touched a]
  master a hv := by
    rw [hp.maxMasters]
    by_cases ha : a = b
    · subst ha
      exact hp.master hv
    · rw [hp.others a ha] at hv ⊢
      exact h.master a hv
  tagsInUse := by
    have hcount := hp.count hb (·.isTouched)
    have htags := hp.tagsInUse
    rw [h.tagsInUse] at htags
    omega
  occupancies m := by
    have hcount := hp.count hb (holds m)
    have hocc := hp.occupancies m
    rw [h.occupancies] at hocc
    omega

theorem countTouched_stats (t : LRU) (now b : Nat) :
    (t.countTouched now b).tagsInUse + (t.blks b).isTouched.toNat = t.tagsInUse + 1 ∧
      (t.countTouched now b).occupancies = t.occupancies := by
  unfold countTouched
  cases (t.blks b).isTouched <;> simp [apply_ite]

theorem occupancies_drop (hv : (t.blks b).isValid = true) (m : Nat) :
    update t.occupancies (t.blks b).srcMasterId (t.occupancies (t.blks b).srcMasterId - 1) m +
      (holds m (t.blks b)).toNat = t.occupancies m := by
  by_cases hm : (t.blks b).srcMasterId = m
  · simp [holds, hv, hm]
  · simp [holds, beq_false_of_ne hm, update_of_ne (Ne.symm hm)]

theorem countReplaced_stats (h : t.countReplaced b = .ok t') :
    t.SameBlocks t' ∧ t'.tagsInUse = t.tagsInUse ∧
    ∀ m, t'.occupancies m + (holds m (t.blks b)).toNat = t.occupancies m := by
  unfold countReplaced at h
  cases hv : (t.blks b).isValid with
  | true =>
    simp only [hv, if_true] at h
    replace h := of_guard h
    cases h
    exact ⟨⟨rfl, rfl, rfl, rfl⟩, rfl, occupancies_drop hv⟩
  | false =>
    simp only [hv, Bool.false_eq_true, if_false] at h
    cases h
    exact ⟨⟨rfl, rfl, rfl, rfl⟩, rfl, fun m => by simp [holds, hv]⟩

theorem mem_of_mem_update {sets : Nat → List Nat} (hl : l.Perm (sets s))
    (ha : a ∈ update sets s l s') : a ∈ sets s' := by
  rw [update_apply] at ha
  split at ha
  · subst s'
    exact hl.subset ha
  · exact ha

theorem fill_puts (hv : status.valid = true) (hf : t.fill now addr master status = .ok t') :
    ∃ b ∈ t.sets (t.geom.extractSet addr), t.Puts t' b := by
  obtain ⟨b, hvictim, hf⟩ := bind_eq_ok.mp hf
  obtain ⟨t1, hins, hf⟩ := bind_eq_ok.mp hf
  cases hf
  obtain ⟨t2, hreplaced, hins⟩ := bind_eq_ok.mp hins
  obtain ⟨_, hmaster, hins⟩ := bind_eq_ok.mp hins
  obtain ⟨l, hl, hins⟩ := bind_eq_ok.mp hins
  cases hins
  obtain ⟨hgeom, hmax, hsets, hblks⟩ := sameBlocks_countTouched t now b
  obtain ⟨htags, hocc⟩ := countTouched_stats t now b
  obtain ⟨⟨hgeom2, hmax2, hsets2, hblks2⟩, htags2, hocc2⟩ := countReplaced_stats hreplaced
  rw [hblks] at hblks2 hocc2
  rw [hocc] at hocc2
  rw [hsets2, hsets] at hl
  refine ⟨b, List.mem_of_getElem? (need_eq_ok.mp hvictim), hgeom2.trans hgeom,
    hmax2.trans hmax, fun s a ha => ?_, fun a ha => ?_, ?_, fun _ => ?_, ?_, fun m => ?_⟩
  · refine mem_of_mem_update (CacheSet.moveToHead_perm hl).2 ?_
    rw [← hsets, ← hsets2]
    exact ha
  · simp [setBlk, ha, hblks2]
  · simp [setBlk, CacheBlk.isValid, hv]
  · rw [← hmax, ← hmax2]
    simpa [setBlk] using ensure_eq_ok.mp hmaster
  · simp [setBlk, htags2, htags]
  · rw [← hocc2 m]
    by_cases hm : m = master
    · subst hm
      simp [setBlk, holds, CacheBlk.isValid, hv, add_right_comm]
    · simp [setBlk, holds, hm, Ne.symm hm]

theorem evict_puts (h : t.Counted) (he : t.evict b = .ok t') : t.Puts t' b := by
  obtain ⟨t1, hinv, he⟩ := bind_eq_ok.mp he
  cases he
  obtain ⟨_, hv, hinv⟩ := bind_eq_ok.mp hinv
  replace hinv := of_guard hinv
  obtain ⟨l, hl, hinv⟩ := bind_eq_ok.mp hinv
  cases hinv
  have hv : (t.blks b).isValid = true := ensure_eq_ok.mp hv
  have hb : ∀ t1 : LRU, (t1.setBlk b (t1.blks b).invalidate).blks b = (t1.blks b).invalidate :=
    fun _ => update_self ..
  refine ⟨rfl, rfl, fun s a => mem_of_mem_update (CacheSet.moveToTail_perm hl), fun a ha => ?_, ?_,
    ?_, ?_, fun m => ?_⟩
  · simp [setBlk, ha]
  all_goals rw [hb]
  · rfl
  · simp
  · rw [h.touched, hv]
    exact (Int.sub_add_cancel ..).trans (Int.add_zero _).symm
  · exact (occupancies_drop hv m).trans (Int.add_zero _).symm

theorem Counted.uses (h : t.Counted) (hs : t.Uses op t') :
    t'.Counted ∧ t'.geom = t.geom ∧ t'.maxMasters = t.maxMasters := by
  cases op with
  | fill now addr master status =>
    obtain ⟨b, hb, hp⟩ := fill_puts hs.1 hs.2
    exact ⟨h.puts hp (h.frames _ (t.geom.extractSet_lt addr) b hb), hp.geom, hp.maxMasters⟩
  | evict b =>
    have hp := evict_puts h hs.2
    exact ⟨h.puts hp hs.1, hp.geom, hp.maxMasters⟩
  | access | victim | write | clearLocks => exact hs.elim

theorem create_counted (hc : create numSets blkSize assoc hitLatency masters = .ok t) :
    t.Counted ∧ t.maxMasters = masters := by
  have hframes := (create_refines hc).frames
  obtain ⟨g, -, hc⟩ := bind_eq_ok.mp hc
  cases hc
  refine ⟨⟨fun s hs b hb => ?_, fun _ => rfl, nofun, by simp [count],
    fun m => by simp [count, holds, CacheBlk.isValid]⟩, rfl⟩
  obtain ⟨-, hlt⟩ := List.mem_range'_1.mp ((hframes s hs).subset hb)
  calc b < s * g.assoc + g.assoc := hlt
    _ = (s + 1) * g.assoc := (Nat.succ_mul ..).symm
    _ ≤ g.numSets * g.assoc := Nat.mul_le_mul_right _ hs

theorem count_le (t : LRU) (p : CacheBlk → Bool) : t.count p ≤ numBlks t := by
  refine (sum_le_card_nsmul _ _ 1 fun b _ => Bool.toNat_le _).trans ?_
  simp

theorem Counted.sum (h : t.Counted) :
    ∑ m ∈ range t.maxMasters, t.count (holds m) = t.count (·.isValid) := by
  unfold count
  rw [sum_comm]
  refine sum_congr rfl fun b _ => ?_
  cases hv : (t.blks b).isValid with
  | false => simp [holds, hv]
  | true =>
    rw [sum_eq_single_of_mem _ (mem_range.mpr (h.master b hv))
      fun m _ hm => by simp [holds, Ne.symm hm]]
    simp [holds, hv]

/-- After every sequence of fills and evictions the statistics are the numbers they stand
for, and a block counts as touched as long as it is valid. -/
theorem run_occupancies (hc : create numSets blkSize assoc hitLatency masters = .ok t₀)
    (hr : Runs Uses t₀ ops t) :
    t.tagsInUse = t.count (·.isTouched) ∧ (∀ b, (t.blks b).isTouched = (t.blks b).isValid) ∧
      (∀ m, t.occupancies m = t.count (holds m)) ∧
      ∑ m ∈ range masters, t.occupancies m = t.count (·.isValid) ∧
      (0 ≤ t.tagsInUse ∧ t.tagsInUse ≤ numSets * assoc) ∧
      ∀ m, 0 ≤ t.occupancies m ∧ t.occupancies m ≤ numSets * assoc := by
  obtain ⟨hsets, hassoc, -⟩ := create_geom hc
  obtain ⟨hcounted, hmax⟩ := create_counted hc
  obtain ⟨h, hgeom, hmasters⟩ :=
    hr.invariant (P := fun t => t.Counted ∧ t.geom = t₀.geom ∧ t.maxMasters = t₀.maxMasters)
    ⟨hcounted, rfl, rfl⟩ fun _ _ _ hi hs =>
      let hu := hi.1.uses hs
      ⟨hu.1, hu.2.1.trans hi.2.1, hu.2.2.trans hi.2.2⟩
  have hle : ∀ p, (t.count p : Int) ≤ numSets * assoc := fun p => by
    rw [← hsets, ← hassoc, ← hgeom]
    exact_mod_cast t.count_le p
  refine ⟨h.tagsInUse, h.touched, h.occupancies, ?_, ?_, fun m => ?_⟩
  · rw [← h.sum, hmasters, hmax]
    push_cast
    exact sum_congr rfl fun m _ => h.occupancies m
  · rw [h.tagsInUse]
    exact ⟨Int.natCast_nonneg _, hle _⟩
  · rw [h.occupancies]
    exact ⟨Int.natCast_nonneg _, hle _⟩

theorem run_occupancies_one : ∃ t, create 1 4 2 1 1 = .ok sampleStore ∧
    Runs Uses sampleStore [.fill 0 0 0 { valid := true }, .fill 0 4 0 { valid := true }, .evict 0] t ∧
    (t.tagsInUse = 1 ∧ t.occupancies 0 = 1) ∧ t.tagsInUse = t.count (·.isTouched) := by
  obtain ⟨t, ht⟩ : ∃ t, (do
      let t1 ← sampleStore.fill 0 0 0 { valid := true }
      let t2 ← t1.fill 0 4 0 { valid := true }
      let t3 ← t2.evict 0
      ensure (TagStore.numBlks t2 == 2 && t3.tagsInUse == 1 && t3.occupancies 0 == 1) "one block"
      return t3) = .ok t := ok_of_isSome (by decide +kernel)
  simp only [bind_eq_ok, ensure_eq_ok, pure_eq_ok, Bool.and_eq_true, beq_iff_eq] at ht
  obtain ⟨t1, h1, t2, h2, t3, h3, _, ⟨⟨hn, ht⟩, ho⟩, rfl⟩ := ht
  have hr : Runs Uses sampleStore [.fill 0 0 0 { valid := true },
      .fill 0 4 0 { valid := true }, .evict 0] t3 :=
    (Runs.single (a := TagOp.fill 0 0 0 _) ⟨rfl, h1⟩).snoc (a := TagOp.fill 0 4 0 _) ⟨rfl, h2⟩
      |>.snoc (a := TagOp.evict 0)
      ⟨by rw [hn]; decide, h3⟩
  exact ⟨t3, rfl, hr, ⟨ht, ho⟩,
    (run_occupancies (show create 1 4 2 1 1 = .ok sampleStore from rfl) hr).1⟩

end LRU

end Gem5
