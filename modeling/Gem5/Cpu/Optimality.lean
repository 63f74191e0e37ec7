import Gem5.Cpu.OptCPU

/-!
# The optimal cache has the fewest misses

For a set's references, the frames of the heap are the blocks of a cache that
replaces the block referenced last: the table finds each cached block in the
heap, and the rank of a frame is when its block is referenced next.
-/

namespace Gem5

open Lib List Nat Function

namespace LookupTable

variable {t : LookupTable}

def get (t : LookupTable) (addr : Nat) : Option Int :=
  (t.level3 (l1Index addr) (l2Index addr)).map fun row => row (l3Index addr)

theorem index_eq (a : Nat) :
    l1Index a = a / 2 ^ 32 % 2 ^ 4 ∧ l2Index a = a / 2 ^ 16 % 2 ^ 16 ∧ l3Index a = a % 2 ^ 16 := by
  refine ⟨?_, ?_, ?_⟩
  · rw [l1Index, shiftRight_eq_div_pow, show 0xf = 2 ^ 4 - 1 from rfl, and_two_pow_sub_one_eq_mod]
  · rw [l2Index, shiftRight_eq_div_pow, show 0xffff = 2 ^ 16 - 1 from rfl, and_two_pow_sub_one_eq_mod]
  · rw [l3Index, show 0xffff = 2 ^ 16 - 1 from rfl, and_two_pow_sub_one_eq_mod]

theorem checkIndex_ok (ha : a < 2 ^ 36) : checkIndex a = .ok () := by
  refine ensure_of ?_ _
  rw [beq_iff_eq, (index_eq a).1, shiftRight_eq_div_pow]
  omega

theorem lookupValue_eq (ha : a < 2 ^ 36) :
    t.lookupValue a = need (t.get a) (.undefined "lookupTable[l1][l2][l3]") := by
  rw [lookupValue, checkIndex_ok ha, ok_bind, get]
  cases t.level3 (l1Index a) (l2Index a) <;> rfl

theorem lookupValue_ok (ha : a < 2 ^ 36) (hg : t.get a = some v) : t.lookupValue a = .ok v := by
  rw [lookupValue_eq ha, hg, need]

theorem get_setRow (row : Nat → Int) :
    (t.setRow a row).get b = if l1Index b = l1Index a ∧ l2Index b = l2Index a
      then some (row (l3Index b)) else t.get b := by
  unfold get setRow
  by_cases h1 : l1Index b = l1Index a
  · by_cases h2 : l2Index b = l2Index a
    · simp [h1, h2]
    · simp [h1, h2]
  · simp [h1]

theorem setValue_ok (ha : a < 2 ^ 36) (hg : (t.get a).isSome = true) :
    ∃ t', t.setValue a v = .ok t' ∧ ∀ b < 2 ^ 36, t'.get b = if b = a then some v else t.get b := by
  obtain ⟨w, hw⟩ := Option.isSome_iff_exists.mp hg
  obtain ⟨row, hrow, rfl⟩ := Option.map_eq_some_iff.mp hw
  simp only [setValue, checkIndex_ok ha, hrow, need, ok_bind]
  refine ⟨_, rfl, fun b hb => ?_⟩
  rw [get_setRow]
  by_cases hba : b = a
  · simp [hba]
  · rw [if_neg hba]
    split
    · rename_i hrows
      have h3 : l3Index b ≠ l3Index a := by
        have hia := index_eq a
        have hib := index_eq b
        omega
      rw [update_of_ne h3, get, hrows.1, hrows.2, hrow]
      rfl
    · rfl

theorem initTable_ok (ha : a < 2 ^ 36) :
    ∃ t', t.initTable a v = .ok t' ∧ (t'.get a).isSome = true ∧
      ∀ b, (t'.get b).getD v = (t.get b).getD v ∧
        ((t.get b).isSome = true → (t'.get b).isSome = true) := by
  simp only [initTable, checkIndex_ok ha, ok_bind]
  cases hrow : t.level3 (l1Index a) (l2Index a) with
  | some row => exact ⟨t, rfl, by simp [get, hrow], fun b => ⟨rfl, id⟩⟩
  | none =>
    refine ⟨_, rfl, by simp [get_setRow], fun b => ?_⟩
    rw [get_setRow]
    split
    · rename_i hrows
      simp [get, hrows, hrow]
    · exact ⟨rfl, id⟩

theorem get_reset : t.reset.get a = (t.get a).map fun _ => -1 := by
  simp [get, reset, Function.comp_def]

end LookupTable

def nextRef (i : Nat) (l : List Nat) (a : Nat) : Int :=
  if a ∈ l then i + l.idxOf a else infiniteRef

section NextRef

variable {i : Nat} {l : List Nat} {a b : Nat}

theorem nextRef_head : nextRef i (a :: l) a = i := by simp [nextRef]

theorem nextRef_tail (h : a ≠ b) : nextRef i (b :: l) a = nextRef (i + 1) l a := by
  have hcond : (b == a) = false := by simpa using Ne.symm h
  simp only [nextRef, mem_cons, h, false_or, idxOf_cons, hcond, cond_false]
  split
  · push_cast
    omega
  · rfl

theorem nextRef_ge (h : (i : Int) ≤ infiniteRef) : (i : Int) ≤ nextRef i l a := by
  unfold nextRef
  split
  · omega
  · exact h

theorem idxOf_le_of_nextRef_le (hlen : (i + l.length : Int) ≤ infiniteRef)
    (h : nextRef i l a ≤ nextRef i l b) : l.idxOf a ≤ l.idxOf b := by
  by_cases hb : b ∈ l
  · have hlt := idxOf_lt_length_of_mem hb
    rw [nextRef, nextRef, if_pos hb] at h
    by_cases ha : a ∈ l
    · rw [if_pos ha] at h
      omega
    · rw [if_neg ha] at h
      omega
  · rw [idxOf_eq_length hb]
    exact idxOf_le_length

theorem nextRef_drop {addrs : List Nat} {j : Nat} (hji : j ≤ i)
    (hne : ∀ x, j ≤ x → x < i → addrs[x]? ≠ some a) :
    nextRef j (addrs.drop j) a = nextRef i (addrs.drop i) a := by
  induction hji with
  | refl => rfl
  | @step i hji ih =>
    rw [ih fun x hx hxi => hne x hx (lt_succ_of_lt hxi)]
    by_cases hlen : i < addrs.length
    · have hhead := hne i hji (lt_succ_self i)
      rw [List.getElem?_eq_getElem hlen] at hhead
      rw [drop_eq_getElem_cons hlen, nextRef_tail fun h => hhead (congrArg some h.symm)]
    · rw [drop_eq_nil_of_le (by omega), drop_eq_nil_of_le (by omega)]
      rfl

end NextRef

namespace OptCPU

def addrs (rs : List RefInfo) : List Nat := rs.map (·.addr)

def Annotated : Nat → List RefInfo → Prop
  | _, [] => True
  | i, r :: rs => r.nextRefTime = nextRef (i + 1) (addrs rs) r.addr ∧ Annotated (i + 1) rs

def Fresh (t : LookupTable) (a : Nat) : Prop := t.get a = none ∨ t.get a = some infiniteRef

def time (t : LookupTable) (a : Nat) : Int := (t.get a).getD infiniteRef

theorem fresh_iff : Fresh t a ↔ time t a = infiniteRef := by
  unfold Fresh time
  cases t.get a with
  | none => simp
  | some v => simp

theorem annotate_spec (i : Nat) (rs : List RefInfo)
    (hlt : ∀ a ∈ addrs rs, a < 2 ^ 36) (hfresh : ∀ a ∈ addrs rs, Fresh t a) :
    ∃ t' rs', annotate t i rs = .ok (t', rs') ∧ addrs rs' = addrs rs ∧ Annotated i rs' ∧
      (∀ a < 2 ^ 36, Fresh t a → time t' a = nextRef i (addrs rs) a) ∧
      ∀ a < 2 ^ 36, (t.get a).isSome = true ∨ a ∈ addrs rs → (t'.get a).isSome = true := by
  induction rs generalizing i with
  | nil => exact ⟨t, [], rfl, rfl, trivial, fun a _ h => fresh_iff.mp h, by simp [addrs]⟩
  | cons r rs ih =>
    have hr : r.addr < 2 ^ 36 := hlt _ (by simp [addrs])
    obtain ⟨t1, rs', h1, haddrs, hann, htime, hsome⟩ := ih (i + 1)
      (fun a ha => hlt a (mem_cons_of_mem _ ha)) fun a ha => hfresh a (mem_cons_of_mem _ ha)
    obtain ⟨t2, h2, hrow, hinit⟩ := t1.initTable_ok (v := infiniteRef) hr
    -- the table now says when the block is referenced next
    have hnext : t2.get r.addr = some (nextRef (i + 1) (addrs rs) r.addr) := by
      obtain ⟨v, hv⟩ := Option.isSome_iff_exists.mp hrow
      have := (hinit r.addr).1.trans (htime _ hr (hfresh _ (by simp [addrs])))
      rw [hv, Option.getD_some] at this
      rw [hv, this]
    obtain ⟨t3, h3, hset⟩ := t2.setValue_ok (v := i) hr hrow
    refine ⟨t3, { r with nextRefTime := nextRef (i + 1) (addrs rs) r.addr } :: rs', ?_,
      congrArg (r.addr :: ·) haddrs, ⟨by rw [haddrs], hann⟩, fun a ha hf => ?_, fun a ha hor => ?_⟩
    · simp only [annotate, h1, ok_bind, h2, LookupTable.lookupValue_ok hr hnext, h3]
      rfl
    · rw [time, hset a ha]
      change _ = nextRef i (r.addr :: addrs rs) a
      by_cases har : a = r.addr
      · rw [if_pos har, har, nextRef_head]
        rfl
      · rw [if_neg har, nextRef_tail har, ← htime a ha hf]
        exact (hinit a).1
    · rw [hset a ha]
      split
      · rfl
      · rename_i har
        exact (hinit a).2 (hsome a ha (hor.imp_right fun hmem => (mem_cons.mp hmem).resolve_left har))

theorem reached_eq (h : n ≤ 2 ^ 31) : reached n = n := by
  cases n with
  | zero => rfl
  | succ n =>
    have hwrap : BitVec.ofNat 32 (n + 1 + (2 ^ 64 - 1)) = BitVec.ofNat 32 n :=
      BitVec.eq_of_toNat_eq (by simp only [BitVec.toNat_ofNat]; omega)
    have hn : int32 n = n := int32_of_lt h
    rw [reached, int32, hwrap, ← int32, hn]
    omega

theorem annotateSets_spec (refInfo : Nat → List RefInfo) (ks : List Nat)
    (hnodup : ks.Nodup) (hlen : ∀ k, (addrs (refInfo k)).length ≤ 2 ^ 31)
    (hlt : ∀ k, ∀ a ∈ addrs (refInfo k), a < 2 ^ 36)
    (hdisj : ∀ k k', k ≠ k' → ∀ a ∈ addrs (refInfo k), a ∉ addrs (refInfo k'))
    (hfresh : ∀ k ∈ ks, ∀ a ∈ addrs (refInfo k), Fresh t a) :
    ∃ t' refInfo', annotateSets t refInfo ks = .ok (t', refInfo') ∧
      (∀ k, addrs (refInfo' k) = addrs (refInfo k)) ∧
      (∀ k ∈ ks, Annotated 0 (refInfo' k)) ∧ (∀ k, k ∉ ks → refInfo' k = refInfo k) ∧
      (∀ k ∈ ks, ∀ a ∈ addrs (refInfo k), (t'.get a).isSome = true) ∧
      ∀ a < 2 ^ 36, (t.get a).isSome = true → (t'.get a).isSome = true := by
  induction ks generalizing t refInfo with
  | nil => exact ⟨t, refInfo, rfl, fun _ => rfl, nofun, fun _ _ => rfl, nofun, fun _ _ h => h⟩
  | cons k ks ih =>
    obtain ⟨hk, hks⟩ := nodup_cons.mp hnodup
    obtain ⟨t1, rs, h1, haddrs, hann, htime, hsome⟩ := annotate_spec 0 (refInfo k) (hlt k)
      (hfresh k (by simp))
    have hsame : ∀ k', addrs (update refInfo k rs k') = addrs (refInfo k') :=
      (Function.forall_update_iff refInfo fun k' l => addrs l = addrs (refInfo k')).mpr
        ⟨haddrs, fun _ _ => rfl⟩
    obtain ⟨t', refInfo', h2, haddrs', hann', hout, hsome', hkeep'⟩ := ih _ hks
      (fun k' => hsame k' ▸ hlen k') (fun k' a ha => hlt k' a (hsame k' ▸ ha))
      (fun k1 k2 hne a ha => by rw [hsame] at ha ⊢; exact hdisj k1 k2 hne a ha)
      (t := t1) fun k' hk' a ha => by
        rw [hsame] at ha
        have hkk : k' ≠ k := ne_of_mem_of_not_mem hk' hk
        have hf := hfresh k' (mem_cons_of_mem _ hk') a ha
        rw [fresh_iff, htime a (hlt k' a ha) hf, nextRef, if_neg (hdisj k' k hkk a ha)]
    refine ⟨t', refInfo', ?_, fun k' => (haddrs' k').trans (hsame k'), ?_, ?_, ?_,
      fun a ha hs => hkeep' a ha (hsome a ha (.inl hs))⟩
    · have hall := hlen k
      rw [addrs, length_map] at hall
      simp [annotateSets, reached_eq hall, h1, h2]
    · intro k' hk'
      rcases mem_cons.mp hk' with rfl | hk'
      · rw [hout _ hk, update_self]
        exact hann
      · exact hann' k' hk'
    · intro k' hk'
      rw [mem_cons, not_or] at hk'
      rw [hout k' hk'.2, update_of_ne hk'.1]
    · intro k' hk' a ha
      rcases mem_cons.mp hk' with rfl | hk'
      · exact hkeep' a (hlt _ a ha) (hsome a (hlt _ a ha) (.inr ha))
      · exact hsome' k' hk' a (hsame k' ▸ ha)

theorem addrs_foldl_addRef (trace : List Nat) (refInfo : Nat → List RefInfo) (k : Nat) :
    addrs (trace.foldl (addRef logBlockSize setMask) refInfo k) =
      addrs (refInfo k) ++ (trace.map (· >>> logBlockSize)).filter (fun a => a &&& setMask = k) := by
  induction trace generalizing refInfo with
  | nil => simp
  | cons p trace ih =>
    rw [foldl_cons, ih, map_cons]
    by_cases hk : (p >>> logBlockSize) &&& setMask = k
    · rw [filter_cons_of_pos (by simpa using hk), addRef, hk]
      simp [addrs]
    · rw [filter_cons_of_neg (by simpa using hk), addRef, update_of_ne (Ne.symm hk)]

def ref (refs : List RefInfo) (j : Nat) : RefInfo := refs.getD j ⟨0, 0⟩

def block (refs : List RefInfo) (j : Nat) : Nat := (ref refs j).addr

def rank (refs : List RefInfo) (j : Nat) : Int := (ref refs j).nextRefTime

def blocks (refs : List RefInfo) (heap : Nat → Nat) (n : Nat) : Finset Nat :=
  (Finset.range n).image fun c => block refs (heap c)

/-- Before reference `i` the first `n` frames hold the latest references to
different blocks, and the table says which. -/
structure Cached (cpu : OptCPU) (set : Nat) (refs : List RefInfo) (n i : Nat) : Prop where
  here : cpu.refInfo set = refs
  past : i ≤ refs.length
  bound : ∀ c < n, cpu.cacheHeap c < i
  recent : ∀ c < n, ∀ j, cpu.cacheHeap c < j → j < i →
    block refs j ≠ block refs (cpu.cacheHeap c)
  table : ∀ c < n, cpu.lookupTable.get (block refs (cpu.cacheHeap c)) = some (c : Int)
  absent : ∀ a ∈ addrs refs, a ∉ blocks refs cpu.cacheHeap n → cpu.lookupTable.get a = some (-1)

structure Keeps (refs : List RefInfo) (cpu cpu' : OptCPU) (misses hits : Nat) : Prop where
  refInfo : cpu'.refInfo = cpu.refInfo
  assoc : cpu'.assoc = cpu.assoc
  numSets : cpu'.numSets = cpu.numSets
  misses : cpu'.misses = cpu.misses + misses
  hits : cpu'.hits = cpu.hits + hits
  frame : ∀ a < 2 ^ 36, a ∉ addrs refs → cpu'.lookupTable.get a = cpu.lookupTable.get a

section Set

variable {cpu : OptCPU} {set n i a c m m' : Nat} {refs : List RefInfo}

theorem Keeps.refl : Keeps refs cpu cpu 0 0 := ⟨rfl, rfl, rfl, rfl, rfl, fun _ _ _ => rfl⟩

theorem Keeps.trans (h1 : Keeps refs cpu cpu₁ m h) (h2 : Keeps refs cpu₁ cpu₂ m' h') :
    Keeps refs cpu cpu₂ (m + m') (h + h') where
  refInfo := h2.refInfo.trans h1.refInfo
  assoc := h2.assoc.trans h1.assoc
  numSets := h2.numSets.trans h1.numSets
  misses := by rw [h2.misses, h1.misses, add_assoc]
  hits := by rw [h2.hits, h1.hits, add_assoc]
  frame a ha hn := (h2.frame a ha hn).trans (h1.frame a ha hn)

theorem ref_eq (hj : j < refs.length) : refs[j]? = some (ref refs j) := by
  rw [ref, getD_eq_getElem?_getD, List.getElem?_eq_getElem hj, Option.getD_some]

theorem block_mem (hj : j < refs.length) : block refs j ∈ addrs refs :=
  mem_map.mpr ⟨ref refs j, mem_of_getElem? (ref_eq hj), rfl⟩

theorem mem_blocks : a ∈ blocks refs heap n ↔ ∃ c < n, block refs (heap c) = a := by
  simp [blocks]

theorem blocks_swapAt (ha : a < n) (hb : b < n) :
    blocks refs (swapAt heap a b) n = blocks refs heap n := by
  have hsub : ∀ h : Nat → Nat, blocks refs (swapAt h a b) n ⊆ blocks refs h n := by
    intro h x hx
    obtain ⟨c, hc, rfl⟩ := mem_blocks.mp hx
    exact swapAt_forall (P := fun j => block refs j ∈ blocks refs h n)
      (fun c hc => mem_blocks.mpr ⟨c, hc, rfl⟩) ha hb hc
  refine (hsub heap).antisymm ?_
  have := hsub (swapAt heap a b)
  rwa [swapAt_swapAt] at this

section

variable (hc : Cached cpu set refs n i)

include hc

theorem Cached.inRange (h : c < n) :
    cpu.cacheHeap c < refs.length := lt_of_lt_of_le (hc.bound c h) hc.past

theorem Cached.inj (ha : a < n) (hb : b < n)
    (h : block refs (cpu.cacheHeap a) = block refs (cpu.cacheHeap b)) : a = b := by
  have h1 := hc.table a ha
  rw [h, hc.table b hb, Option.some.injEq] at h1
  omega

theorem Cached.card : (blocks refs cpu.cacheHeap n).card = n := by
  rw [blocks, Finset.card_image_of_injOn, Finset.card_range]
  intro a ha b hb h
  exact hc.inj (Finset.mem_range.mp ha) (Finset.mem_range.mp hb) h

theorem Cached.refAt_ok (hj : j < refs.length) :
    cpu.refAt set j = .ok (ref refs j) := by
  rw [refAt, hc.here, ref_eq hj]
  rfl

omit hc in
theorem heapAt_ok (h : c < cpu.assoc) : cpu.heapAt c = .ok (cpu.cacheHeap c) := if_pos h

theorem Cached.heapRank_ok (hn : n = cpu.assoc) (h : c < n) :
    cpu.heapRank set c = .ok (rank refs (cpu.cacheHeap c)) := by
  simp only [heapRank, heapAt_ok (hn ▸ h), ok_bind, hc.refAt_ok (hc.inRange h)]
  rfl

omit hc in
theorem setValue_spec (cpu : OptCPU) (ha : a < 2 ^ 36) (hg : (cpu.lookupTable.get a).isSome = true) :
    ∃ t, cpu.setValue a v = .ok { cpu with lookupTable := t } ∧
      ∀ b < 2 ^ 36, t.get b = if b = a then some v else cpu.lookupTable.get b := by
  obtain ⟨t, ht, hget⟩ := LookupTable.setValue_ok (v := v) ha hg
  refine ⟨t, ?_, hget⟩
  rw [setValue, ht]
  rfl

omit hc in
theorem setValues_spec (cpu : OptCPU) (ha : a < 2 ^ 36) (hb : b < 2 ^ 36)
    (hga : (cpu.lookupTable.get a).isSome = true) (hgb : (cpu.lookupTable.get b).isSome = true) :
    ∃ t1 t2, cpu.setValue a v = .ok { cpu with lookupTable := t1 } ∧
      setValue { cpu with lookupTable := t1 } b w = .ok { cpu with lookupTable := t2 } ∧
        ∀ x < 2 ^ 36, t2.get x =
        if x = b then some w else if x = a then some v else cpu.lookupTable.get x := by
  obtain ⟨t1, h1, hget1⟩ := setValue_spec cpu (v := v) ha hga
  have hsome : (t1.get b).isSome = true := by
    rw [hget1 b hb]
    split
    · rfl
    · exact hgb
  obtain ⟨t2, h2, hget2⟩ := setValue_spec { cpu with lookupTable := t1 } (v := w) hb hsome
  exact ⟨t1, t2, h1, h2, fun x hx => by rw [hget2 x hx, ← hget1 x hx]⟩

theorem Cached.larger_ok (hn : n = cpu.assoc) (hm : m < n) :
    ∃ m', cpu.larger set m c = .ok m' ∧ m' < n ∧ (m' = m ∨ m' = c) ∧
      rank refs (cpu.cacheHeap m) ≤ rank refs (cpu.cacheHeap m') ∧
      (c < n → rank refs (cpu.cacheHeap c) ≤ rank refs (cpu.cacheHeap m')) := by
  unfold larger
  by_cases hcn : c < n
  · simp only [if_pos (hn ▸ hcn), hc.heapRank_ok hn hcn, hc.heapRank_ok hn hm, ok_bind]
    by_cases hgt : rank refs (cpu.cacheHeap c) > rank refs (cpu.cacheHeap m)
    · exact ⟨c, by simp [hgt], hcn, .inr rfl, hgt.le, fun _ => le_rfl⟩
    · exact ⟨m, by simp [hgt], hm, .inl rfl, le_rfl, fun _ => not_lt.mp hgt⟩
  · rw [if_neg (hn ▸ hcn)]
    exact ⟨m, rfl, hm, .inl rfl, le_rfl, fun h => absurd h hcn⟩

omit hc in
theorem int_ok (h : n < 2 ^ 31) : int n = .ok n := if_pos h

omit hc in
theorem addrs_getElem? (hj : j < refs.length) : (addrs refs)[j]? = some (block refs j) := by
  rw [addrs, List.getElem?_map, ref_eq hj]
  rfl

omit hc in
theorem drop_addrs (hj : j < refs.length) :
    (addrs refs).drop j = block refs j :: (addrs refs).drop (j + 1) := by
  have hlen : j < (addrs refs).length := by rwa [addrs, length_map]
  have hget := addrs_getElem? hj
  rw [List.getElem?_eq_getElem hlen, Option.some.injEq] at hget
  rw [drop_eq_getElem_cons hlen, hget]

omit hc in
theorem Annotated.rank_eq (hann : Annotated k refs) (hj : j < refs.length) :
    rank refs j = nextRef (k + j + 1) ((addrs refs).drop (j + 1)) (block refs j) := by
  induction refs generalizing j k with
  | nil => cases hj
  | cons r rs ih =>
    cases j with
    | zero => exact hann.1
    | succ j =>
      have := ih hann.2 (lt_of_succ_lt_succ hj)
      rw [show k + 1 + j + 1 = k + (j + 1) + 1 by omega] at this
      exact this

theorem Cached.rank_eq (hann : Annotated 0 refs) (h : c < n) :
    rank refs (cpu.cacheHeap c) = nextRef i ((addrs refs).drop i) (block refs (cpu.cacheHeap c)) := by
  rw [hann.rank_eq (hc.inRange h), zero_add]
  refine nextRef_drop (hc.bound c h) fun x hx hxi => ?_
  rw [addrs_getElem? (lt_of_lt_of_le hxi hc.past)]
  exact fun heq => hc.recent c h x hx hxi (Option.some.inj heq)

theorem blocks_top (hn : 0 < n) :
    blocks refs (update cpu.cacheHeap 0 i) n =
      insert (block refs i) ((blocks refs cpu.cacheHeap n).erase (block refs (cpu.cacheHeap 0))) := by
  ext x
  rw [Finset.mem_insert, Finset.mem_erase, mem_blocks, mem_blocks]
  constructor
  · rintro ⟨c, hcn, rfl⟩
    rw [update_apply]
    split
    · exact .inl rfl
    · rename_i hc0
      exact .inr ⟨fun heq => hc0 (hc.inj hcn hn heq), c, hcn, rfl⟩
  · rintro (rfl | ⟨hne, c, hcn, rfl⟩)
    · exact ⟨0, hn, by rw [update_self]⟩
    · have hc0 : c ≠ 0 := by
        rintro rfl
        exact hne rfl
      exact ⟨c, hcn, by rw [update_of_ne hc0]⟩

omit hc in
theorem drop_refs (hi : i < refs.length) : refs.drop i = ref refs i :: refs.drop (i + 1) := by
  have hget := ref_eq hi
  rw [List.getElem?_eq_getElem hi, Option.some.injEq] at hget
  rw [drop_eq_getElem_cons hi, hget]

theorem Cached.put {hits misses : Nat} (hi : i < refs.length)
    (hnot : ∀ b < n', b ≠ c → block refs (cpu.cacheHeap b) ≠ block refs i) (hcn : c < n')
    (hframes : ∀ b < n', b ≠ c → b < n)
    (hnew : t.get (block refs i) = some (c : Int))
    (hold : ∀ b < n', b ≠ c → t.get (block refs (cpu.cacheHeap b)) = some (b : Int))
    (habsent : ∀ a ∈ addrs refs, a ≠ block refs i →
      (∀ b < n', b ≠ c → block refs (cpu.cacheHeap b) ≠ a) →
      t.get a = some (-1)) :
    Cached { cpu with lookupTable := t, hits, misses,
                      cacheHeap := update cpu.cacheHeap c i } set refs n' (i + 1) := by
  refine ⟨hc.here, hi, fun b hb => ?_, fun b hb j hj hji => ?_, fun b hb => ?_, fun a ha hna => ?_⟩
  · simp only
    by_cases hbc : b = c
    · simp [hbc]
    · rw [update_of_ne hbc]
      exact Nat.lt_succ_of_lt (hc.bound b (hframes b hb hbc))
  · simp only at hj ⊢
    by_cases hbc : b = c
    · rw [hbc, update_self] at hj
      omega
    · rw [update_of_ne hbc] at hj ⊢
      rcases Nat.lt_succ_iff_lt_or_eq.mp hji with hji | rfl
      · exact hc.recent b (hframes b hb hbc) j hj hji
      · exact (hnot b hb hbc).symm
  · simp only
    rw [update_apply]
    split
    · subst c
      exact hnew
    · rename_i hbc
      exact hold b hb hbc
  · simp only [mem_blocks, not_exists, not_and] at hna
    refine habsent a ha ?_ fun b hb hbc => ?_
    · have := hna c hcn
      rw [update_self] at this
      exact Ne.symm this
    · have := hna b hb
      rwa [update_of_ne hbc] at this

theorem Cached.hit (hi : i < refs.length) (h : c < n)
    (hblock : block refs (cpu.cacheHeap c) = block refs i) :
    let cpu' := { cpu with hits := cpu.hits + 1, cacheHeap := update cpu.cacheHeap c i }
    Cached cpu' set refs n (i + 1) ∧
      blocks refs cpu'.cacheHeap n = blocks refs cpu.cacheHeap n ∧ Keeps refs cpu cpu' 0 1 := by
  intro cpu'
  refine ⟨hc.put hi (fun b hb hbc heq => hbc (hc.inj hb h (heq.trans hblock.symm))) h
    (fun _ hb _ => hb)
    (hblock ▸ hc.table c h) (fun b hb _ => hc.table b hb) fun a ha hne hother =>
    hc.absent a ha fun hmem => ?_, ?_, ⟨rfl, rfl, rfl, rfl, rfl, fun _ _ _ => rfl⟩⟩
  · obtain ⟨b, hb, rfl⟩ := mem_blocks.mp hmem
    by_cases hbc : b = c
    · exact hne (hbc ▸ hblock)
    · exact hother b hb hbc rfl
  · have hsame : ∀ b, block refs (update cpu.cacheHeap c i b) = block refs (cpu.cacheHeap b) := by
      intro b
      rw [update_apply]
      split
      · subst c
        rw [hblock]
      · rfl
    simp [blocks, cpu', hsame]

end

def Heaps (set : Nat) (refs : List RefInfo) (n i s : Nat) (cpu : OptCPU) (x : Chk OptCPU) : Prop :=
  ∃ cpu', x = .ok cpu' ∧ Cached cpu' set refs n i ∧ HeapFrom (rank refs) cpu'.cacheHeap n s ∧
    blocks refs cpu'.cacheHeap n = blocks refs cpu.cacheHeap n ∧ Keeps refs cpu cpu' 0 0

theorem Heaps.trans (hblocks : blocks refs cpu₁.cacheHeap n = blocks refs cpu.cacheHeap n)
    (hk : Keeps refs cpu cpu₁ 0 0) (h : Heaps set refs n i s cpu₁ x) : Heaps set refs n i s cpu x := by
  obtain ⟨cpu₂, hx, hc, hheap, hblocks₂, hk₂⟩ := h
  exact ⟨cpu₂, hx, hc, hheap, hblocks₂.trans hblocks, hk.trans hk₂⟩

variable (hlt : ∀ a ∈ addrs refs, a < 2 ^ 36)

include hlt

theorem Cached.heapSwap (hc : Cached cpu set refs n i)
    (hn : n = cpu.assoc) (ha : a < n) (hb : b < n) (hab : a ≠ b) :
    ∃ cpu', cpu.heapSwap set a b = .ok cpu' ∧ cpu'.cacheHeap = swapAt cpu.cacheHeap a b ∧
      Cached cpu' set refs n i ∧ Keeps refs cpu cpu' 0 0 := by
  have hra := hc.inRange ha
  have hrb := hc.inRange hb
  have hxa := hlt _ (block_mem hra)
  have hxb := hlt _ (block_mem hrb)
  have hne : block refs (cpu.cacheHeap a) ≠ block refs (cpu.cacheHeap b) :=
    fun h => hab (hc.inj ha hb h)
  let cpu₁ := { cpu with cacheHeap := swapAt cpu.cacheHeap a b }
  obtain ⟨t1, t2, h1, h2, hall⟩ := setValues_spec cpu₁ (v := a) (w := b) hxb hxa
    (Option.isSome_of_eq_some (hc.table b hb)) (Option.isSome_of_eq_some (hc.table a ha))
  have hrun : cpu.heapSwap set a b = .ok { cpu₁ with lookupTable := t2 } := by
    have hr1 : cpu₁.refAt set (cpu.cacheHeap b) = .ok (ref refs (cpu.cacheHeap b)) := hc.refAt_ok hrb
    have hr2 : OptCPU.refAt { cpu₁ with lookupTable := t1 } set (cpu.cacheHeap a) =
      .ok (ref refs (cpu.cacheHeap a)) := hc.refAt_ok hra
    simp only [OptCPU.heapSwap, heapAt_ok (hn ▸ ha), heapAt_ok (hn ▸ hb), ok_bind]
    rw [hr1, ok_bind]
    rw [show (ref refs (cpu.cacheHeap b)).addr = block refs (cpu.cacheHeap b) from rfl, h1,
      ok_bind, hr2, ok_bind]
    exact h2
  have hget : ∀ x ∈ addrs refs, t2.get x = _ := fun x hx => hall x (hlt x hx)
  refine ⟨_, hrun, rfl, ⟨hc.here, hc.past, fun c h => ?_, fun c h => ?_, fun c h => ?_,
    fun x hx hnot => ?_⟩, ⟨rfl, rfl, rfl, rfl, rfl, fun x hx hnot => ?_⟩⟩
  · exact swapAt_forall (P := (· < i)) hc.bound ha hb h
  · exact swapAt_forall (P := fun k => ∀ j, k < j → j < i → block refs j ≠ block refs k)
      hc.recent ha hb h
  · simp only [cpu₁]
    by_cases hca : c = a
    · rw [hca, swapAt_left, hget _ (block_mem hrb), if_neg hne.symm, if_pos rfl]
    · by_cases hcb : c = b
      · rw [hcb, swapAt_right, hget _ (block_mem hra), if_pos rfl]
      · rw [swapAt_of_ne hca hcb, hget _ (block_mem (hc.inRange h)),
          if_neg fun heq => hca (hc.inj h ha heq), if_neg fun heq => hcb (hc.inj h hb heq)]
        exact hc.table c h
  · simp only [cpu₁, blocks_swapAt ha hb] at hnot
    rw [hget x hx, if_neg, if_neg]
    · exact hc.absent x hx hnot
    · rintro rfl
      exact hnot (mem_blocks.mpr ⟨b, hb, rfl⟩)
    · rintro rfl
      exact hnot (mem_blocks.mpr ⟨a, ha, rfl⟩)
  · have hmem : ∀ {c}, c < n → x ≠ block refs (cpu.cacheHeap c) := by
      rintro c h rfl
      exact hnot (block_mem (hc.inRange h))
    rw [hall x hx, if_neg (hmem ha), if_neg (hmem hb)]

theorem Cached.heapify (hsmall : n < 2 ^ 30) (fuel : Nat)
    (hc : Cached cpu set refs n i) (hn : n = cpu.assoc) (hp : p < n) (hsp : s ≤ p)
    (hfuel : n - p ≤ fuel) (hs : SiftDown (rank refs) cpu.cacheHeap n s p) :
    Heaps set refs n i s cpu (OptCPU.heapify set fuel cpu p) := by
  induction fuel generalizing cpu p with
  | zero => omega
  | succ fuel ih =>
    obtain ⟨m1, hm1, hlt1, hor1, hself1, hleft⟩ := hc.larger_ok (c := p + p + 1) hn hp
    obtain ⟨m2, hm2, hlt2, hor2, hself2, hright⟩ := hc.larger_ok (c := p + p + 2) hn hlt1
    have hstart : rank refs (cpu.cacheHeap p) ≤ rank refs (cpu.cacheHeap m2) := hself1.trans hself2
    -- `m2` has the highest rank among `p` and its children
    have hmax : ∀ c, 0 < c → c < n → (c - 1) / 2 = p →
        rank refs (cpu.cacheHeap c) ≤ rank refs (cpu.cacheHeap m2) := by
      intro c hc0 hcn hcp
      rcases (by omega : c = p + p + 1 ∨ c = p + p + 2) with rfl | rfl
      · exact (hleft hcn).trans hself2
      · exact hright hcn
    simp only [OptCPU.heapify, heapLeft, heapRight, int_ok (show p + p + 1 < 2 ^ 31 by omega),
      int_ok (show p + p + 2 < 2 ^ 31 by omega), hm1, hm2, ok_bind]
    by_cases hmp : m2 = p
    · refine ⟨cpu, by rw [if_neg (by simpa using hmp)]; rfl, hc, hs.done ?_, rfl, .refl⟩
      rw [hmp] at hmax
      exact hmax
    · have hpos : 0 < m2 ∧ (m2 - 1) / 2 = p := by omega
      obtain ⟨cpu₁, h1, hheap, hc1, hk1⟩ := hc.heapSwap hlt hn hp hlt2 (Ne.symm hmp)
      rw [if_pos (by simpa using hmp), h1, ok_bind]
      refine .trans (by rw [hheap, blocks_swapAt hp hlt2]) hk1
        (ih hc1 (hn.trans hk1.assoc.symm) hlt2 (by omega) (by omega) ?_)
      exact hheap ▸ hs.swap hsp hpos.1 hlt2 hpos.2 hstart hmax

theorem Cached.processRankIncrease (fuel : Nat)
    (hc : Cached cpu set refs n i) (hn : n = cpu.assoc) (hp : p < n) (hfuel : p < fuel)
    (hs : SiftUp (rank refs) cpu.cacheHeap n p) :
    Heaps set refs n i 0 cpu (OptCPU.processRankIncrease set fuel cpu p) := by
  induction fuel generalizing cpu p with
  | zero => omega
  | succ fuel ih =>
    unfold OptCPU.processRankIncrease
    by_cases hp0 : p = 0
    · subst hp0
      exact ⟨cpu, rfl, hc, hs.done fun h => absurd h (lt_irrefl 0), rfl, .refl⟩
    · have hpos : 0 < p := pos_of_ne_zero hp0
      have hq : (p - 1) / 2 < n := by omega
      simp only [heapParent, if_pos hpos, hc.heapRank_ok hn hq, hc.heapRank_ok hn hp, ok_bind]
      by_cases hrank : rank refs (cpu.cacheHeap ((p - 1) / 2)) < rank refs (cpu.cacheHeap p)
      · obtain ⟨cpu₁, h1, hheap, hc1, hk1⟩ := hc.heapSwap hlt hn hq hp (by omega)
        rw [if_pos hrank, h1, ok_bind]
        refine .trans (by rw [hheap, blocks_swapAt hq hp]) hk1
          (ih hc1 (hn.trans hk1.assoc.symm) hq (by omega) ?_)
        exact hheap ▸ hs.swap hpos hp hrank.le
      · rw [if_neg hrank]
        exact ⟨cpu, rfl, hc, hs.done fun _ => not_lt.mp hrank, rfl, .refl⟩

section

variable (hc : Cached cpu set refs n i)
include hc

theorem Cached.lookup (hj : j < refs.length) : (∃ c < n, block refs (cpu.cacheHeap c) = block refs j ∧
      cpu.lookupValue (ref refs j).addr = .ok (c : Int)) ∨
    block refs j ∉ blocks refs cpu.cacheHeap n ∧ cpu.lookupValue (ref refs j).addr = .ok (-1) := by
  have hmem := block_mem hj
  by_cases hin : block refs j ∈ blocks refs cpu.cacheHeap n
  · obtain ⟨c, hcn, hblock⟩ := mem_blocks.mp hin
    refine .inl ⟨c, hcn, hblock, LookupTable.lookupValue_ok (hlt _ hmem) ?_⟩
    rw [← hc.table c hcn, hblock]
    rfl
  · exact .inr ⟨hin, LookupTable.lookupValue_ok (hlt _ hmem) (hc.absent _ hmem hin)⟩

theorem Cached.fillRef_miss (hi : i < refs.length)
    (hnot : block refs i ∉ blocks refs cpu.cacheHeap n) :
    ∃ cpu', cpu.fillRef n i (ref refs i) = .ok (cpu', n + 1) ∧ Cached cpu' set refs (n + 1) (i + 1) ∧
      cpu'.cacheHeap = update cpu.cacheHeap n i ∧ Keeps refs cpu cpu' 1 0 := by
  have hmem := block_mem hi
  have h36 := hlt _ hmem
  have hlook : cpu.lookupValue (ref refs i).addr = .ok (-1) :=
    LookupTable.lookupValue_ok h36 (hc.absent _ hmem hnot)
  obtain ⟨t, hset, hget⟩ := setValue_spec cpu (v := n) h36
    (by rw [hc.absent _ hmem hnot]; rfl)
  refine ⟨{ cpu with
    lookupTable := t
    misses := cpu.misses + 1
    cacheHeap := update cpu.cacheHeap n i }, ?_, ?_, rfl, ?_⟩
  · simp only [OptCPU.fillRef, hlook, ok_bind, if_true]
    rw [show (ref refs i).addr = block refs i from rfl, hset]
    rfl
  · refine hc.put hi (fun b hb hbc heq => hnot (mem_blocks.mpr ⟨b, by omega, heq⟩)) (lt_succ_self n)
      (fun b hb hbc => by omega) ?_ ?_ ?_
    · rw [hget _ h36, if_pos rfl]
    · intro b hb hbn
      have hbn : b < n := by omega
      rw [hget _ (hlt _ (block_mem (hc.inRange hbn))),
        if_neg fun heq => hnot (mem_blocks.mpr ⟨b, hbn, heq⟩)]
      exact hc.table b hbn
    · intro a ha hai hrest
      rw [hget a (hlt a ha), if_neg hai]
      refine hc.absent a ha fun hin => ?_
      obtain ⟨b, hb, rfl⟩ := mem_blocks.mp hin
      exact hrest b (by omega) (by omega) rfl
  · refine ⟨rfl, rfl, rfl, rfl, rfl, fun a ha hna => ?_⟩
    rw [hget a ha, if_neg]
    rintro rfl
    exact hna hmem

theorem Cached.fillRef (hi : i < refs.length) (hk : n < k) :
    ∃ cpu' c, cpu.fillRef n i (ref refs i) = .ok (cpu', n + c) ∧
      Cached cpu' set refs (n + c) (i + 1) ∧ c ≤ 1 ∧ Keeps refs cpu cpu' c (1 - c) ∧
      Serve k (blocks refs cpu.cacheHeap n) (block refs i) (blocks refs cpu'.cacheHeap (n + c)) c ∧
      blocks refs cpu.cacheHeap n ⊆ blocks refs cpu'.cacheHeap (n + c) := by
  rcases hc.lookup hlt hi with ⟨c, hcn, hblock, hlook⟩ | ⟨hnot, -⟩
  · obtain ⟨hc', hblocks, hk'⟩ := hc.hit hi hcn hblock
    refine ⟨_, 0, ?_, hc', zero_le 1, hk', ?_, hblocks.ge⟩
    · simp only [OptCPU.fillRef, hlook, ok_bind]
      rw [if_neg (by omega)]
      rfl
    · show Serve k _ _ (blocks refs _ n) 0
      rw [hblocks]
      exact .hit (mem_blocks.mpr ⟨c, hcn, hblock⟩)
  · obtain ⟨cpu', h, hc', hheap, hk'⟩ := hc.fillRef_miss hlt hi hnot
    have hblocks : blocks refs cpu'.cacheHeap (n + 1) =
        insert (block refs i) (blocks refs cpu.cacheHeap n) := by
      rw [hheap, blocks, Finset.range_add_one, Finset.image_insert, update_self]
      exact congrArg _ (Finset.image_congr
        fun c hc => by rw [update_of_ne (Finset.mem_range.mp hc).ne])
    refine ⟨cpu', 1, h, hc', le_rfl, hk', ?_, ?_⟩
    · rw [hblocks]
      exact .fetch hnot (by rw [hc.card]; exact hk)
    · rw [hblocks]
      exact Finset.subset_insert ..

theorem Cached.checkCached (hj : j < refs.length) (hin : block refs j ∈ blocks refs cpu.cacheHeap n) :
    cpu.checkCached (ref refs j) = .ok cpu := by
  rcases hc.lookup hlt hj with ⟨c, -, -, hlook⟩ | ⟨hnot, -⟩
  · have hne : ((c : Int) != -1) = true := by
      rw [bne_iff_ne]
      omega
    simp only [OptCPU.checkCached, hlook, ok_bind, hne, ensure_true]
    rfl
  · exact absurd hin hnot

end

theorem Cached.buildHeap (hsmall : n < 2 ^ 30) (start : Nat)
    (hc : Cached cpu set refs n i) (hn : n = cpu.assoc) (hs : start < n)
    (hheap : HeapFrom (rank refs) cpu.cacheHeap n (start + 1)) :
    Heaps set refs n i 0 cpu (OptCPU.buildHeap set cpu start) := by
  induction start generalizing cpu with
  | zero =>
    exact hc.heapify hlt hsmall _ hn hs le_rfl (by omega) (.of_next hheap)
  | succ start ih =>
    obtain ⟨cpu₁, h1, hc1, hheap1, hblocks1, hk1⟩ := hc.heapify hlt hsmall (cpu.assoc + 1) hn hs
      le_rfl (by omega) (.of_next hheap)
    rw [OptCPU.buildHeap, h1, ok_bind]
    exact .trans hblocks1 hk1 (ih hc1 (hn.trans hk1.assoc.symm) (by omega) hheap1)

def Fills (set : Nat) (refs : List RefInfo) (cpu : OptCPU) (n i : Nat) : Prop :=
  ∃ cpu' m, (OptCPU.fillLoop cpu n i (refs.drop i) = .ok (cpu', none) ∧
      Farthest cpu.assoc (blocks refs cpu.cacheHeap n) ((addrs refs).drop i) m ∧
      m ≤ refs.length - i ∧ Keeps refs cpu cpu' m (refs.length - i - m)) ∨
    ∃ i', OptCPU.fillLoop cpu n i (refs.drop i) = .ok (cpu', some (i', refs.drop i')) ∧
      i ≤ i' ∧ m ≤ i' - i ∧ Cached cpu' set refs cpu.assoc i' ∧ Keeps refs cpu cpu' m (i' - i - m) ∧
      ∀ m', Farthest cpu.assoc (blocks refs cpu'.cacheHeap cpu.assoc) ((addrs refs).drop i') m' →
        Farthest cpu.assoc (blocks refs cpu.cacheHeap n) ((addrs refs).drop i) (m + m')

theorem Cached.fillLoop (hc : Cached cpu set refs n i)
    (hn : n ≤ cpu.assoc) (hi : i < refs.length) : Fills set refs cpu n i := by
  obtain ⟨d, hd⟩ : ∃ d, refs.length - i = d := ⟨_, rfl⟩
  induction d generalizing cpu n i with
  | zero => omega
  | succ d ih =>
    by_cases hfull : n < cpu.assoc
    · obtain ⟨cpu₁, c, h1, hc₁, hc1, hk1, hserve, hsub⟩ := hc.fillRef hlt hi hfull
      have hfar : ∀ v ∈ blocks refs cpu.cacheHeap n, v ∉ blocks refs cpu₁.cacheHeap (n + c) →
          ∀ u ∈ blocks refs cpu.cacheHeap n,
            ((addrs refs).drop (i + 1)).idxOf u ≤ ((addrs refs).drop (i + 1)).idxOf v :=
        fun v hv hnv => absurd (hsub hv) hnv
      by_cases hlast : i + 1 < refs.length
      · have hrun : ∀ r, OptCPU.fillLoop cpu₁ (n + c) (i + 1) (refs.drop (i + 1)) = .ok r →
            OptCPU.fillLoop cpu n i (refs.drop i) = .ok r := by
          intro r hr
          rw [drop_refs hlast] at hr
          rw [drop_refs hi, drop_refs hlast, OptCPU.fillLoop, if_pos hfull, h1]
          exact hr
        obtain ⟨cpu₂, m, hend⟩ := ih hc₁ (by rw [hk1.assoc]; omega) hlast (by omega)
        rw [hk1.assoc] at hend
        refine ⟨cpu₂, c + m, ?_⟩
        rcases hend with ⟨h2, hfar2, hm, hk2⟩ | ⟨i', h2, hi', hm, hc2, hk2, hfar2⟩
        · refine .inl ⟨hrun _ h2, ?_, by omega, ?_⟩
          · rw [drop_addrs hi]
            exact .cons hserve hfar hfar2
          · rw [show refs.length - i - (c + m) = 1 - c + (refs.length - (i + 1) - m) by omega]
            exact hk1.trans hk2
        · refine .inr ⟨i', hrun _ h2, by omega, by omega, hc2, ?_, fun m' hm' => ?_⟩
          · rw [show i' - i - (c + m) = 1 - c + (i' - (i + 1) - m) by omega]
            exact hk1.trans hk2
          · rw [drop_addrs hi, Nat.add_assoc]
            exact .cons hserve hfar (hfar2 m' hm')
      · have hnil : refs.drop (i + 1) = [] := drop_eq_nil_of_le (by omega)
        refine ⟨cpu₁, c, .inl ⟨?_, ?_, by omega, ?_⟩⟩
        · rw [drop_refs hi, hnil, OptCPU.fillLoop, if_pos hfull, h1]
          rfl
        · have hnil' : (addrs refs).drop (i + 1) = [] :=
            drop_eq_nil_of_le (by rw [addrs, length_map]; omega)
          rw [drop_addrs hi]
          refine .cons (m := 0) hserve hfar ?_
          rw [hnil']
          exact .nil
        · rw [show refs.length - i - c = 1 - c by omega]
          exact hk1
    · have hn : n = cpu.assoc := by omega
      refine ⟨cpu, 0, .inr ⟨i, ?_, le_rfl, by omega, hn ▸ hc, ?_, fun m' hm' => ?_⟩⟩
      · rw [drop_refs hi, OptCPU.fillLoop, if_neg hfull]
        rfl
      · rw [Nat.sub_self]
        exact .refl
      · rw [Nat.zero_add, hn]
        exact hm'

def Replaces (set : Nat) (refs : List RefInfo) (n i : Nat) (cpu : OptCPU) : Prop :=
  ∃ cpu' c, cpu.replaceRef set i (ref refs i) = .ok cpu' ∧ Cached cpu' set refs n (i + 1) ∧
    HeapFrom (rank refs) cpu'.cacheHeap n 0 ∧ c ≤ 1 ∧ Keeps refs cpu cpu' c (1 - c) ∧
    Serve n (blocks refs cpu.cacheHeap n) (block refs i) (blocks refs cpu'.cacheHeap n) c ∧
    ∀ v ∈ blocks refs cpu.cacheHeap n, v ∉ blocks refs cpu'.cacheHeap n →
      ∀ u ∈ blocks refs cpu.cacheHeap n,
        ((addrs refs).drop (i + 1)).idxOf u ≤ ((addrs refs).drop (i + 1)).idxOf v

variable (hann : Annotated 0 refs) (hlen : (refs.length : Int) < infiniteRef)

include hann

omit hlt in
theorem Cached.rank_now (hc : Cached cpu set refs n i) (hi : i < refs.length) (hcn : c < n)
    (hblock : block refs (cpu.cacheHeap c) = block refs i) : rank refs (cpu.cacheHeap c) = i := by
  rw [hc.rank_eq hann hcn, drop_addrs hi, hblock, nextRef_head]

include hlen

omit hlt in
theorem Cached.leaf (hc : Cached cpu set refs n i) (hheap : HeapFrom (rank refs) cpu.cacheHeap n 0)
    (hi : i < refs.length) (hcn : c < n) (hblock : block refs (cpu.cacheHeap c) = block refs i) :
    n ≤ c + c + 1 := by
  by_contra hlt
  have hchild := hheap (c + c + 1) (by omega) (by omega) (zero_le _)
  rw [show (c + c + 1 - 1) / 2 = c by omega, hc.rank_now hann hi hcn hblock] at hchild
  -- the child holds another block, which is referenced later
  have hne : block refs (cpu.cacheHeap (c + c + 1)) ≠ block refs i := fun heq => by
    have := hc.inj (by omega) hcn (heq.trans hblock.symm)
    omega
  rw [hc.rank_eq hann (by omega), drop_addrs hi, nextRef_tail hne] at hchild
  have := (nextRef_ge (by push_cast; omega)).trans hchild
  omega

section

variable (hc : Cached cpu set refs n i) (hn : n = cpu.assoc)
  (hsmall : n < 2 ^ 30) (hheap : HeapFrom (rank refs) cpu.cacheHeap n 0)
include hc hn hsmall hheap

variable (hi : i < refs.length)
include hi

theorem Cached.replaceRef_hit (hcn : c < n) (hblock : block refs (cpu.cacheHeap c) = block refs i)
    (hlook : cpu.lookupValue (ref refs i).addr = .ok (c : Int)) : Replaces set refs n i cpu := by
  obtain ⟨hc', hblocks, hk⟩ := hc.hit hi hcn hblock
  have hnow := hc.rank_now hann hi hcn hblock
  have hleaf := hc.leaf hann hlen hheap hi hcn hblock
  have hraise : rank refs (cpu.cacheHeap c) ≤ rank refs i := by
    rw [hnow, hann.rank_eq hi, zero_add]
    have := nextRef_ge (i := i + 1) (l := (addrs refs).drop (i + 1)) (a := block refs i)
      (by push_cast; omega)
    omega
  obtain ⟨cpu₂, h2, hc2, hheap2, hblocks2, hk2⟩ := hc'.processRankIncrease hlt (c + 1) hn hcn
    (lt_succ_self c) (.of_raise hheap hcn hraise)
  rw [hblocks] at hblocks2
  have hin : block refs i ∈ blocks refs cpu.cacheHeap n := mem_blocks.mpr ⟨c, hcn, hblock⟩
  have haddr : ((ref refs (cpu.cacheHeap c)).addr == (ref refs i).addr) = true := by
    rw [beq_iff_eq]
    exact hblock
  have htime : ((ref refs (cpu.cacheHeap c)).nextRefTime == (i : Int)) = true := by
    rw [beq_iff_eq]
    exact hnow
  refine ⟨cpu₂, 0, ?_, hc2, hheap2, zero_le 1, hk.trans hk2, ?_, ?_⟩
  · simp only [replaceRef, hlook, ok_bind]
    rw [if_neg (by omega)]
    simp only [Int.toNat_natCast, heapAt_ok (hn ▸ hcn), ok_bind, hc.refAt_ok (hc.inRange hcn), haddr,
      htime, ensure_true, heapLeft, int_ok (show c + c + 1 < 2 ^ 31 by omega),
      ensure_of (decide_eq_true (hn ▸ hleaf)), h2]
    exact hc2.checkCached hlt hi (hblocks2 ▸ hin)
  · rw [hblocks2]
    exact .hit hin
  · rw [hblocks2]
    exact fun v hv hnv => absurd hv hnv

theorem Cached.replaceRef_miss (hpos : 0 < n) (hnot : block refs i ∉ blocks refs cpu.cacheHeap n)
    (hlook : cpu.lookupValue (ref refs i).addr = .ok (-1)) : Replaces set refs n i cpu := by
  have hmem := block_mem hi
  have htop := block_mem (hc.inRange hpos)
  have hother : ∀ b < n, block refs (cpu.cacheHeap b) ≠ block refs i :=
    fun b hb heq => hnot (mem_blocks.mpr ⟨b, hb, heq⟩)
  obtain ⟨t1, t2, h1, h2, hget⟩ := setValues_spec cpu (v := -1) (w := 0) (hlt _ htop) (hlt _ hmem)
    (Option.isSome_of_eq_some (hc.table 0 hpos)) (Option.isSome_of_eq_some (hc.absent _ hmem hnot))
  have hc' : Cached { cpu with
      lookupTable := t2
      misses := cpu.misses + 1
      cacheHeap := update cpu.cacheHeap 0 i } set refs n (i + 1) := by
    refine hc.put hi (fun b hb _ heq => hnot (mem_blocks.mpr ⟨b, hb, heq⟩)) hpos
      (fun b hb _ => hb) ?_ ?_ ?_
    · rw [hget _ (hlt _ hmem), if_pos rfl]
      rfl
    · intro b hb hb0
      rw [hget _ (hlt _ (block_mem (hc.inRange hb))), if_neg (hother b hb),
        if_neg fun heq => hb0 (hc.inj hb hpos heq)]
      exact hc.table b hb
    · intro a ha hai hrest
      rw [hget a (hlt a ha), if_neg hai]
      split
      · rfl
      · rename_i hat
        refine hc.absent a ha fun hin => ?_
        obtain ⟨b, hb, rfl⟩ := mem_blocks.mp hin
        refine hrest b hb ?_ rfl
        rintro rfl
        exact hat rfl
  obtain ⟨cpu3, h3, hc3, hheap3, hblocks3, hk3⟩ := hc'.heapify hlt hsmall (cpu.assoc + 1) hn hpos
    (zero_le 0) (by omega) (.of_root hheap i)
  have hblocks := blocks_top hc hpos
  have hk : Keeps refs cpu { cpu with
      lookupTable := t2
      misses := cpu.misses + 1
      cacheHeap := update cpu.cacheHeap 0 i } 1 0 := by
    refine ⟨rfl, rfl, rfl, rfl, rfl, fun a ha hna => ?_⟩
    rw [hget a ha, if_neg (by rintro rfl; exact hna hmem), if_neg (by rintro rfl; exact hna htop)]
  simp only [hblocks] at hblocks3
  refine ⟨cpu3, 1, ?_, hc3, hheap3, le_rfl, hk.trans hk3, ?_, ?_⟩
  · simp only [replaceRef, hlook, ok_bind, if_true, heapAt_ok (hn ▸ hpos),
      hc.refAt_ok (hc.inRange hpos)]
    rw [show (ref refs (cpu.cacheHeap 0)).addr = block refs (cpu.cacheHeap 0) from rfl, h1, ok_bind,
      show (ref refs i).addr = block refs i from rfl, h2, ok_bind]
    simp only [h3, ok_bind]
    exact hc3.checkCached hlt hi (hblocks3 ▸ Finset.mem_insert_self ..)
  · rw [hblocks3]
    exact .replace hnot hc.card (mem_blocks.mpr ⟨0, hpos, rfl⟩)
  · intro v hv hnv u hu
    -- only the block on top is gone
    have hvtop : v = block refs (cpu.cacheHeap 0) := by
      by_contra hne
      rw [hblocks3] at hnv
      exact hnv (Finset.mem_insert_of_mem (Finset.mem_erase.mpr ⟨hne, hv⟩))
    obtain ⟨c, hcn, rfl⟩ := mem_blocks.mp hu
    have hrank := hheap.root hcn
    rw [hc.rank_eq hann hcn, hc.rank_eq hann hpos, drop_addrs hi, nextRef_tail (hother c hcn),
      nextRef_tail (hother 0 hpos)] at hrank
    rw [hvtop]
    refine idxOf_le_of_nextRef_le ?_ hrank
    rw [length_drop, addrs, length_map]
    omega

theorem Cached.replaces (hpos : 0 < n) : Replaces set refs n i cpu := by
  rcases hc.lookup hlt hi with ⟨c, hcn, hblock, hlook⟩ | ⟨hnot, hlook⟩
  · exact hc.replaceRef_hit hlt hann hlen hn hsmall hheap hi hcn hblock hlook
  · exact hc.replaceRef_miss hlt hann hlen hn hsmall hheap hi hpos hnot hlook

end

theorem Cached.replaceLoop (hpos : 0 < n) (hsmall : n < 2 ^ 30)
    (hc : Cached cpu set refs n i) (hn : n = cpu.assoc)
    (hheap : HeapFrom (rank refs) cpu.cacheHeap n 0) :
    ∃ cpu' m, OptCPU.replaceLoop set cpu i (refs.drop i) = .ok cpu' ∧
      Farthest n (blocks refs cpu.cacheHeap n) ((addrs refs).drop i) m ∧ m ≤ refs.length - i ∧
      Keeps refs cpu cpu' m (refs.length - i - m) := by
  obtain ⟨d, hd⟩ : ∃ d, refs.length - i = d := ⟨_, rfl⟩
  induction d generalizing cpu i with
  | zero =>
    have hi : refs.length ≤ i := by omega
    refine ⟨cpu, 0, ?_, ?_, by omega, ?_⟩
    · rw [drop_eq_nil_of_le hi]
      rfl
    · rw [drop_eq_nil_of_le (by rwa [addrs, length_map])]
      exact .nil
    · rw [hd]
      exact .refl
  | succ d ih =>
    have hi : i < refs.length := by omega
    obtain ⟨cpu₁, c, h1, hc₁, hheap1, hc1, hk1, hserve, hfar⟩ :=
      hc.replaces hlt hann hlen hn hsmall hheap hi hpos
    obtain ⟨cpu₂, m, h2, hfar2, hm, hk2⟩ := ih hc₁ (hn.trans hk1.assoc.symm) hheap1 (by omega)
    refine ⟨cpu₂, c + m, ?_, ?_, by omega, ?_⟩
    · rw [drop_refs hi]
      simp [OptCPU.replaceLoop, h1, h2]
    · rw [drop_addrs hi]
      exact .cons hserve hfar hfar2
    · have hsum : refs.length - i - (c + m) = 1 - c + (refs.length - (i + 1) - m) := by omega
      rw [hsum]
      exact hk1.trans hk2

omit hann hlen in
theorem processSet_start (hrefs : cpu.refInfo set = refs) (hpos : 0 < cpu.assoc)
    (hsmall : cpu.assoc < 2 ^ 30) (hne : refs ≠ [])
    (habsent : ∀ a ∈ addrs refs, cpu.lookupTable.get a = some (-1)) :
    ∃ cpu₁ m, (OptCPU.fillLoop { cpu with cacheHeap := fun _ => 0 } 0 0 refs = .ok (cpu₁, none) ∧
        Farthest cpu.assoc ∅ (addrs refs) m ∧ m ≤ refs.length ∧
        Keeps refs cpu cpu₁ m (refs.length - m)) ∨
      ∃ cpu₂ i, OptCPU.fillLoop { cpu with cacheHeap := fun _ => 0 } 0 0 refs =
          .ok (cpu₁, some (i, refs.drop i)) ∧ OptCPU.buildHeap set cpu₁ (cpu₁.assoc / 2) = .ok cpu₂ ∧
        Cached cpu₂ set refs cpu.assoc i ∧ HeapFrom (rank refs) cpu₂.cacheHeap cpu.assoc 0 ∧ m ≤ i ∧
        Keeps refs cpu cpu₂ m (i - m) ∧
        ∀ m', Farthest cpu.assoc (blocks refs cpu₂.cacheHeap cpu.assoc) ((addrs refs).drop i) m' →
          Farthest cpu.assoc ∅ (addrs refs) (m + m') := by
  have hc : Cached { cpu with cacheHeap := fun _ => 0 } set refs 0 0 :=
    ⟨hrefs, zero_le _, nofun, nofun, nofun, fun a ha _ => habsent a ha⟩
  have hk : Keeps refs cpu { cpu with cacheHeap := fun _ => 0 } 0 0 :=
    ⟨rfl, rfl, rfl, rfl, rfl, fun _ _ _ => rfl⟩
  obtain ⟨cpu₁, m, ⟨h1, hfar, hm, hk1⟩ | ⟨i, h1, -, hm, hc1, hk1, hfar⟩⟩ :=
    hc.fillLoop hlt (zero_le _) (length_pos_of_ne_nil hne)
  · exact ⟨cpu₁, m, .inl ⟨h1, hfar, hm, by simpa using hk.trans hk1⟩⟩
  · have hassoc : cpu.assoc = cpu₁.assoc := hk1.assoc.symm
    obtain ⟨cpu₂, h2, hc2, hheap, hblocks, hk2⟩ := hc1.buildHeap hlt hsmall (cpu₁.assoc / 2)
      hassoc (show _ < cpu.assoc by omega) fun c _ hcn hs => by
        omega
    refine ⟨cpu₁, m, .inr ⟨cpu₂, i, h1, h2, hc2, hheap, hm, ?_, fun m' hm' => hfar m' ?_⟩⟩
    · simpa using (hk.trans hk1).trans hk2
    · rw [← hblocks]
      exact hm'

theorem processSet_spec (hrefs : cpu.refInfo set = refs) (hpos : 0 < cpu.assoc)
    (hsmall : cpu.assoc < 2 ^ 30) (hne : refs ≠ [])
    (habsent : ∀ a ∈ addrs refs, cpu.lookupTable.get a = some (-1)) :
    ∃ cpu' m, cpu.processSet set = .ok cpu' ∧ Farthest cpu.assoc ∅ (addrs refs) m ∧
      m ≤ refs.length ∧ Keeps refs cpu cpu' m (refs.length - m) := by
  unfold processSet
  rw [hrefs]
  obtain ⟨cpu₁, m, ⟨h1, hend⟩ | ⟨cpu₂, i, h1, h2, hc, hheap, hm, hk, hfar⟩⟩ :=
    processSet_start hlt hrefs hpos hsmall hne habsent
  · refine ⟨cpu₁, m, ?_, hend⟩
    rw [h1]
    rfl
  · obtain ⟨cpu3, m', h3, hfar3, hm', hk3⟩ := hc.replaceLoop hlt hann hlen hpos hsmall
      hk.assoc.symm hheap
    have hpast := hc.past
    refine ⟨cpu3, m + m', ?_, hfar m' hfar3, by omega, ?_⟩
    · rw [h1, ok_bind]
      simp [h2, h3]
    · rw [show refs.length - (m + m') = i - m + (refs.length - i - m') by omega]
      exact hk.trans hk3

end Set

structure Ready (cpu : OptCPU) (ks : List Nat) : Prop where
  pos : 0 < cpu.assoc
  small : cpu.assoc < 2 ^ 30
  addr : ∀ k, ∀ a ∈ addrs (cpu.refInfo k), a < 2 ^ 36
  apart : ∀ k k', k ≠ k' → ∀ a ∈ addrs (cpu.refInfo k), a ∉ addrs (cpu.refInfo k')
  short : ∀ k, ((cpu.refInfo k).length : Int) < infiniteRef
  annotated : ∀ k ∈ ks, Annotated 0 (cpu.refInfo k)
  absent : ∀ k ∈ ks, ∀ a ∈ addrs (cpu.refInfo k), cpu.lookupTable.get a = some (-1)

theorem Ready.tickSets {cpu : OptCPU} {ks rest : List Nat} (h : cpu.Ready (ks ++ rest))
    (hks : (ks ++ rest).Nodup) (references : Nat) :
    ∃ cpu' ms, cpu.tickSets references ks = .ok
      (cpu', references + (ks.map fun k => (cpu.refInfo k).length).sum) ∧
      (∀ k ∈ ks, Farthest cpu.assoc ∅ (addrs (cpu.refInfo k)) (ms k)) ∧
        cpu'.misses = cpu.misses + (ks.map ms).sum ∧
      cpu'.hits + (ks.map ms).sum = cpu.hits + (ks.map fun k => (cpu.refInfo k).length).sum ∧
      cpu'.Ready rest ∧ cpu'.refInfo = cpu.refInfo ∧ cpu'.assoc = cpu.assoc := by
  induction ks generalizing cpu references with
  | nil => exact ⟨cpu, fun _ => 0, rfl, nofun, rfl, rfl, h, rfl, rfl⟩
  | cons k ks ih =>
    obtain ⟨hk, hks⟩ := nodup_cons.mp hks
    -- the set itself
    obtain ⟨cpu₁, m, h1, hfar, hm, hk1⟩ : ∃ cpu₁ m,
        (if (cpu.refInfo k).isEmpty then .ok cpu else cpu.processSet k) = .ok cpu₁ ∧
        Farthest cpu.assoc ∅ (addrs (cpu.refInfo k)) m ∧ m ≤ (cpu.refInfo k).length ∧
        Keeps (cpu.refInfo k) cpu cpu₁ m ((cpu.refInfo k).length - m) := by
      by_cases hne : cpu.refInfo k = []
      · rw [hne]
        exact ⟨cpu, 0, rfl, .nil, le_rfl, .refl⟩
      · rw [if_neg (by simpa using hne)]
        exact processSet_spec (h.addr k) (h.annotated k (by simp)) (h.short k) rfl h.pos h.small hne
          (h.absent k (by simp))
    have hready : cpu₁.Ready (ks ++ rest) := by
      refine ⟨by rw [hk1.assoc]; exact h.pos, by rw [hk1.assoc]; exact h.small,
        by rw [hk1.refInfo]; exact h.addr, by rw [hk1.refInfo]; exact h.apart,
        by rw [hk1.refInfo]; exact h.short, fun k' hk' => ?_, fun k' hk' a ha => ?_⟩
      · rw [hk1.refInfo]
        exact h.annotated k' (mem_cons_of_mem _ hk')
      · rw [hk1.refInfo] at ha
        rw [hk1.frame a (h.addr k' a ha) (h.apart k' k (ne_of_mem_of_not_mem hk' hk) a ha)]
        exact h.absent k' (mem_cons_of_mem _ hk') a ha
    obtain ⟨cpu₂, ms, h2, hfar2, hmisses, hhits, hrest, hrefs, hassoc⟩ :=
      ih hready hks (references + (cpu.refInfo k).length)
    rw [hk1.refInfo] at h2 hhits
    have hupdate : ks.map (update ms k m) = ks.map ms := map_congr_left fun k' hk' =>
      update_of_ne (ne_of_mem_of_not_mem (mem_append_left _ hk') hk) ..
    refine ⟨cpu₂, update ms k m, ?_, fun k' hk' => ?_, ?_, ?_, hrest, hrefs.trans hk1.refInfo,
      hassoc.trans hk1.assoc⟩
    · rw [map_cons, sum_cons, ← add_assoc, ← h2, OptCPU.tickSets]
      split at h1
      · rename_i hempty
        cases h1
        rw [if_pos hempty]
      · rename_i hempty
        rw [if_neg hempty, h1, ok_bind]
    · rw [update_apply]
      split
      · subst k
        exact hfar
      · rename_i hkk
        rw [← hk1.refInfo, ← hk1.assoc]
        exact hfar2 k' ((mem_cons.mp hk').resolve_left hkk)
    · rw [map_cons, sum_cons, update_self, hupdate, hmisses, hk1.misses, add_assoc]
    · rw [map_cons, sum_cons, update_self, hupdate, map_cons, sum_cons]
      rw [hk1.hits] at hhits
      omega

theorem sum_length_filter (f : Nat → Nat) (n : Nat) (l : List Nat) (h : ∀ a ∈ l, f a < n) :
    ∑ s ∈ Finset.range n, (l.filter fun a => f a = s).length = l.length := by
  induction l with
  | nil => simp
  | cons a l ih =>
    have hsplit : ∀ s, ((a :: l).filter fun b => f b = s).length =
        (l.filter fun b => f b = s).length + if f a = s then 1 else 0 := by
      intro s
      by_cases hs : f a = s
      · simp [hs]
      · simp [hs]
    simp only [hsplit]
    rw [Finset.sum_add_distrib, ih fun b hb => h b (mem_cons_of_mem _ hb),
      Finset.sum_ite_eq, if_pos (Finset.mem_range.mpr (h a (by simp))), length_cons]

def setOf (numSets a : Nat) : Nat := a &&& (numSets - 1)

structure Created (trace : List Nat) (b assoc numSets : Nat) (cpu : OptCPU) : Prop where
  ways : cpu.assoc = assoc
  sets : cpu.numSets = numSets
  misses : cpu.misses = 0
  hits : cpu.hits = 0
  refs : ∀ k, addrs (cpu.refInfo k) = (trace.map (· >>> b)).filter fun a => setOf numSets a = k
  annotated : ∀ k < numSets, Annotated 0 (cpu.refInfo k)
  absent : ∀ k < numSets, ∀ a ∈ addrs (cpu.refInfo k), cpu.lookupTable.get a = some (-1)

section Create

variable {trace : List Nat} {b cacheSize assoc numSets : Nat} (hassoc : 0 < assoc)
  (hnum : cacheSize / 2 ^ b / assoc = numSets) (hsets : 0 < numSets)
  (haddr : ∀ p ∈ trace, p >>> b < 2 ^ 36)

include hassoc hnum hsets haddr

theorem create_spec (hlen : ∀ k,
    ((trace.map (· >>> b)).filter fun a => setOf numSets a = k).length ≤ 2 ^ 31) :
    ∃ cpu, create trace (2 ^ b) cacheSize assoc = .ok cpu ∧ Created trace b assoc numSets cpu := by
  let refInfo := trace.foldl (addRef b (numSets - 1)) fun _ => []
  have haddrs : ∀ k, addrs (refInfo k) = (trace.map (· >>> b)).filter fun a =>
    setOf numSets a = k := fun k => by
    rw [show refInfo k = trace.foldl (addRef b (numSets - 1)) (fun _ => []) k from rfl,
      addrs_foldl_addRef]
    rfl
  have hmem : ∀ k, ∀ a ∈ addrs (refInfo k), a < 2 ^ 36 ∧ setOf numSets a = k := by
    intro k a ha
    rw [haddrs, mem_filter, mem_map] at ha
    obtain ⟨⟨p, hp, rfl⟩, hk⟩ := ha
    exact ⟨haddr p hp, of_decide_eq_true hk⟩
  obtain ⟨t, refInfo', hrun, hsame, hann, -, hsome, -⟩ := annotateSets_spec
    (t := ⟨fun _ _ => none⟩) refInfo (List.range numSets) nodup_range
    (fun k => haddrs k ▸ hlen k) (fun k a ha => (hmem k a ha).1)
    (fun k k' hne a ha ha' => hne ((hmem k a ha).2.symm.trans (hmem k' a ha').2))
    (fun k _ a _ => .inl rfl)
  have hpos : ¬ (2 ^ b = 0 ∨ assoc = 0) := by
    rintro (h | h)
    · exact absurd h (Nat.two_pow_pos b).ne'
    · exact absurd h hassoc.ne'
  have hread : readTrace trace b numSets = .ok (t, refInfo') := by
    rw [readTrace, if_neg fun h => hsets.ne' h.1]
    exact hrun
  let cpu : OptCPU := ⟨refInfo', t.reset, fun _ => 0, assoc, numSets, 0, 0⟩
  refine ⟨cpu, ?_, rfl, rfl, rfl, rfl, fun k => ?_, fun k hk => ?_, fun k hk a ha => ?_⟩
  · simp only [create, if_neg hpos, Nat.log2_two_pow, Nat.one_shiftLeft, beq_self_eq_true, ensure_true,
      ok_bind, hnum, hread]
    rfl
  · exact (hsame k).trans (haddrs k)
  · exact hann k (mem_range.mpr hk)
  · have ha' := hsome k (mem_range.mpr hk) a (hsame k ▸ ha)
    obtain ⟨v, hv⟩ := Option.isSome_iff_exists.mp ha'
    rw [LookupTable.get_reset, hv]
    rfl

theorem create_ready (hsmall : assoc < 2 ^ 30) (hshort : trace.length < 2 ^ 31 - 1) :
    ∃ cpu, create trace (2 ^ b) cacheSize assoc = .ok cpu ∧ Created trace b assoc numSets cpu ∧
      cpu.Ready (List.range numSets) := by
  have hlen : ∀ k, ((trace.map (· >>> b)).filter fun a => setOf numSets a = k).length ≤
    trace.length := fun k =>
    (length_filter_le ..).trans (length_map _).le
  obtain ⟨cpu, hcreate, hcpu⟩ := create_spec hassoc hnum hsets haddr fun k => (hlen k).trans (by omega)
  have haddrs := hcpu.refs
  refine ⟨cpu, hcreate, hcpu, hcpu.ways ▸ hassoc, hcpu.ways ▸ hsmall, fun k a ha => ?_,
    fun k k' hne a ha ha' => ?_, fun k => ?_, fun k hk => hcpu.annotated k (mem_range.mp hk),
    fun k hk => hcpu.absent k (mem_range.mp hk)⟩
  · rw [haddrs, mem_filter, mem_map] at ha
    obtain ⟨⟨p, hp, rfl⟩, -⟩ := ha
    exact haddr p hp
  · rw [haddrs, mem_filter] at ha ha'
    exact hne ((of_decide_eq_true ha.2).symm.trans (of_decide_eq_true ha'.2))
  · have := hlen k
    rw [← haddrs, addrs, length_map] at this
    rw [infiniteRef]
    omega

def later (refs : List RefInfo) (i : Nat) : Set Nat :=
  { j | i < j ∧ j < refs.length ∧ block refs j = block refs i }

structure NextRefs (refs : List RefInfo) : Prop where
  least : ∀ i < refs.length, ∀ j, IsLeast (later refs i) j → rank refs i = j
  never : ∀ i < refs.length, later refs i = ∅ → rank refs i = infiniteRef
  distinct : ∀ i j, i < j → j < refs.length → rank refs i = rank refs j → rank refs i = infiniteRef

omit hassoc hnum hsets haddr in
theorem Annotated.nextRefs (h : Annotated 0 refs) : NextRefs refs := by
  have hskip : ∀ i j, i < j → j ≤ refs.length → (∀ x < j, x ∉ later refs i) →
      rank refs i = nextRef j ((addrs refs).drop j) (block refs i) := by
    intro i j hij hj hnot
    rw [h.rank_eq (hij.trans_le hj), zero_add]
    refine nextRef_drop hij fun x hx hxj => ?_
    rw [addrs_getElem? (hxj.trans_le hj)]
    exact fun heq => hnot x hxj ⟨hx, hxj.trans_le hj, Option.some.inj heq⟩
  have hleast : ∀ i < refs.length, ∀ j, IsLeast (later refs i) j → rank refs i = j := by
    rintro i - j ⟨⟨hij, hj, hsame⟩, hmin⟩
    rw [hskip i j hij hj.le fun x hx hmem => hx.not_ge (hmin hmem), drop_addrs hj, hsame, nextRef_head]
  have hnever : ∀ i < refs.length, later refs i = ∅ → rank refs i = infiniteRef := by
    intro i hi hnone
    rw [hskip i _ hi le_rfl (by simp [hnone]), drop_eq_nil_of_le (by simp [addrs]), nextRef,
      if_neg not_mem_nil]
  refine ⟨hleast, hnever, fun i j hij hj heq => ?_⟩
  rcases (later refs i).eq_empty_or_nonempty with hnone | hsome
  · exact hnever i (hij.trans hj) hnone
  rcases (later refs j).eq_empty_or_nonempty with hnone | hsome'
  · exact heq.trans (hnever j hj hnone)
  -- both wait for the same reference, but `j` itself is an earlier one to the block of `i`
  have hm := isLeast_csInf hsome
  have hm' := isLeast_csInf hsome'
  rw [hleast i (hij.trans hj) _ hm, hleast j hj _ hm', Nat.cast_inj] at heq
  rw [← heq] at hm'
  exact absurd (hm.2 ⟨hij, hj, hm'.1.2.2.symm.trans hm.1.2.2⟩) hm'.1.1.not_ge

/-- The constructor annotates every reference and leaves each block of the trace at -1. The table is
a map on the
blocks that have a row. -/
theorem create_annotates
    (hlen : ∀ k, ((trace.map (· >>> b)).filter fun a => setOf numSets a = k).length ≤ 2 ^ 31) :
    ∃ cpu, create trace (2 ^ b) cacheSize assoc = .ok cpu ∧
      (∀ k < numSets, addrs (cpu.refInfo k) =
        (trace.map (· >>> b)).filter (fun a => setOf numSets a = k) ∧
        NextRefs (cpu.refInfo k)) ∧
      (∀ p ∈ trace, cpu.lookupValue (p >>> b) = .ok (-1)) ∧
      ∀ cpu a u v, a < 2 ^ 36 → lookupValue cpu a = .ok u → ∃ cpu', cpu.setValue a v = .ok cpu' ∧
        ∀ c < 2 ^ 36, cpu'.lookupValue c = if c = a then .ok v else cpu.lookupValue c := by
  obtain ⟨cpu, hcreate, hcpu⟩ := create_spec hassoc hnum hsets haddr hlen
  refine ⟨cpu, hcreate, fun k hk => ⟨hcpu.refs k, (hcpu.annotated k hk).nextRefs⟩, fun p hp => ?_,
    fun cpu a u v ha hu => ?_⟩
  · have hset : setOf numSets (p >>> b) < numSets := lt_of_le_of_lt Nat.and_le_right (by omega)
    refine LookupTable.lookupValue_ok (haddr p hp) (hcpu.absent _ hset _ ?_)
    rw [hcpu.refs]
    exact mem_filter.mpr ⟨mem_map_of_mem hp, decide_eq_true rfl⟩
  · rw [OptCPU.lookupValue, LookupTable.lookupValue_eq ha, need_eq_ok] at hu
    obtain ⟨t, hset, hget⟩ := cpu.lookupTable.setValue_ok (v := v) ha (by simp [hu])
    refine ⟨{ cpu with lookupTable := t }, by simp only [OptCPU.setValue, hset, ok_bind]; rfl,
      fun c hc => ?_⟩
    rw [OptCPU.lookupValue, LookupTable.lookupValue_eq hc, hget c hc,
      apply_ite (need · _), ← LookupTable.lookupValue_eq hc]
    rfl

end Create

/-- One block, referenced more often than an `int` can count: no reference is annotated, and there
is no row. -/
theorem create_uncounted : ∃ cpu, create (List.replicate (2 ^ 31 + 1) 0) (2 ^ 0) 1 1 = .ok cpu ∧
    cpu.lookupValue 0 = .error (.undefined "lookupTable[l1][l2][l3]") := by
  obtain ⟨n, hn⟩ : ∃ n, n = 2 ^ 31 + 1 := ⟨_, rfl⟩
  rw [← hn]
  obtain ⟨refInfo, hrefs⟩ : ∃ refInfo,
    (List.replicate n 0).foldl (addRef 0 0) (fun _ => []) = refInfo := ⟨_, rfl⟩
  have hlen : (refInfo 0).length = n := by
    simpa [addrs, hrefs] using congrArg length
      (@addrs_foldl_addRef 0 0 (List.replicate n 0) (fun _ => []) 0)
  have hreached : reached n = 0 := by
    rw [hn]
    rfl
  have hread : readTrace (List.replicate n 0) 0 1 =
      .ok (⟨fun _ _ => none⟩, update refInfo 0 (refInfo 0)) := by
    rw [readTrace, if_neg fun h => Nat.one_ne_zero h.1]
    simp only [Nat.sub_self, hrefs, range_one, annotateSets, hlen, hreached, take_zero, annotate]
    rfl
  refine ⟨⟨update refInfo 0 (refInfo 0), LookupTable.reset ⟨fun _ _ => none⟩, fun _ => 0, 1,
    1, 0, 0⟩, ?_, rfl⟩
  rw [create, if_neg (by decide)]
  simp only [Nat.log2_two_pow, hread, ok_bind, show 1 / 2 ^ 0 / 1 = 1 from rfl]
  rfl

theorem create_annotates_small : ∃ cpu, create [0, 1, 0] (2 ^ 0) 1 1 = .ok cpu ∧
    NextRefs (cpu.refInfo 0) := by
  obtain ⟨cpu, hcreate, hsets, -⟩ :=
    @create_annotates [0, 1, 0] 0 1 1 1 Nat.one_pos rfl Nat.one_pos (by decide)
    fun k => (length_filter_le ..).trans (by decide)
  exact ⟨cpu, hcreate, (hsets 0 Nat.one_pos).2⟩

/-- `tick` counts every reference, and no cache with the same sets and frames
that fetches on demand has fewer misses. -/
theorem tick_optimal {trace : List Nat} {b cacheSize assoc numSets : Nat} (hassoc : 1 ≤ assoc)
    (hsmall : assoc < 2 ^ 30) (hnum : cacheSize / 2 ^ b / assoc = numSets) (hsets : 1 ≤ numSets)
    (haddr : ∀ p ∈ trace, p >>> b < 2 ^ 36) (hlen : trace.length < 2 ^ 31 - 1) :
    ∃ cpu cpu', create trace (2 ^ b) cacheSize assoc = .ok cpu ∧
      cpu.tick = .ok (cpu', trace.length) ∧ cpu'.hits + cpu'.misses = trace.length ∧
      ∀ m, ServesSets (setOf numSets) assoc (fun _ => ∅) (trace.map (· >>> b)) m →
        cpu'.misses ≤ m := by
  obtain ⟨cpu, hcreate, ⟨rfl, rfl, hmiss, hhit, haddrs, -⟩, hready⟩ :=
    create_ready hassoc hnum hsets haddr hsmall hlen
  have hset : ∀ a, setOf cpu.numSets a < cpu.numSets := fun a =>
    lt_of_le_of_lt Nat.and_le_right (by omega)
  have hlength : ∀ k, (cpu.refInfo k).length =
      ((trace.map (· >>> b)).filter fun a => setOf cpu.numSets a = k).length := fun k => by
    rw [← haddrs, addrs, length_map]
  rw [← append_nil (List.range _)] at hready
  obtain ⟨cpu', ms, htick, hfar, hmisses, hhits, -⟩ :=
    hready.tickSets (by simpa using nodup_range) 0
  have hrefs : ((List.range cpu.numSets).map fun k => (cpu.refInfo k).length).sum = trace.length := by
    rw [← sum_toFinset _ nodup_range, toFinset_range]
    simp only [hlength]
    rw [sum_length_filter _ _ _ fun a _ => hset a, length_map]
  rw [hrefs] at htick hhits
  rw [Nat.zero_add] at htick
  refine ⟨cpu, cpu', hcreate, htick, by omega, fun m hm => ?_⟩
  obtain ⟨ns, hserves, hsum⟩ := hm.split
  rw [hmisses, hmiss, Nat.zero_add, ← sum_toFinset _ nodup_range, toFinset_range,
    hsum (Finset.range cpu.numSets) fun a _ => Finset.mem_range.mpr (hset a)]
  refine Finset.sum_le_sum fun k hk => ?_
  have := hfar k (mem_range.mpr (Finset.mem_range.mp hk))
  rw [haddrs] at this
  exact this.optimal (hserves k)

theorem tick_optimal_small :
    ∃ cpu cpu', create [0, 1, 2, 0, 1] (2 ^ 0) 2 2 = .ok cpu ∧ cpu.tick = .ok (cpu', 5) ∧
      cpu'.hits + cpu'.misses = 5 ∧
      ∀ m, ServesSets (setOf 1) 2 (fun _ => ∅) ([0, 1, 2, 0, 1].map (· >>> 0)) m → cpu'.misses ≤ m :=
  tick_optimal (by decide) (by decide) (by decide) (by decide) (by decide) (by decide)

section Overflow

variable {cpu : OptCPU} {set n i p fuel : Nat} {refs : List RefInfo}

theorem Cached.fillLoop_distinct (hlt : ∀ a ∈ addrs refs, a < 2 ^ 36) (hn : n < refs.length)
    (hdist : ∀ j < n, block refs j = j) (hc : Cached cpu set refs i i) (hassoc : cpu.assoc = n)
    (hheap : ∀ c < i, cpu.cacheHeap c = c) (hi : i ≤ n) :
    ∃ cpu', OptCPU.fillLoop cpu i i (refs.drop i) = .ok (cpu', some (n, refs.drop n)) ∧
      Cached cpu' set refs n n ∧ cpu'.assoc = n ∧ ∀ c < n, cpu'.cacheHeap c = c := by
  obtain ⟨d, hd⟩ : ∃ d, n - i = d := ⟨_, rfl⟩
  induction d generalizing cpu i with
  | zero =>
    obtain rfl : i = n := by omega
    refine ⟨cpu, ?_, hc, hassoc, hheap⟩
    rw [drop_refs hn, OptCPU.fillLoop, if_neg (by omega)]
    rfl
  | succ d ih =>
    have hin : i < n := by omega
    have hnot : block refs i ∉ blocks refs cpu.cacheHeap i := by
      intro hmem
      obtain ⟨c, hci, heq⟩ := mem_blocks.mp hmem
      rw [hheap c hci, hdist c (by omega), hdist i hin] at heq
      omega
    obtain ⟨cpu₁, h1, hc1, hheap1, hk1⟩ := hc.fillRef_miss hlt (hin.trans hn) hnot
    obtain ⟨cpu₂, h2, hend⟩ := ih hc1 (hk1.assoc.trans hassoc) (fun c hci => by
      rw [hheap1]
      by_cases hc : c = i
      · rw [hc, update_self]
      · rw [update_of_ne hc, hheap c (by omega)]) hin (by omega)
    refine ⟨cpu₂, ?_, hend⟩
    have hlast : i + 1 < refs.length := by omega
    rw [drop_refs hlast] at h2
    rw [drop_refs (hin.trans hn), drop_refs hlast, OptCPU.fillLoop, if_pos (hassoc ▸ hin), h1]
    exact h2

theorem heapify_leaf (h : cpu.assoc ≤ p + p + 1) (hp : p + p + 2 < 2 ^ 31) :
    OptCPU.heapify set (fuel + 1) cpu p = .ok cpu := by
  have hlarger : ∀ c, cpu.assoc ≤ c → cpu.larger set p c = .ok p := fun c hc =>
    if_neg (not_lt.mpr hc)
  simp only [OptCPU.heapify, heapLeft, heapRight, int_ok (show p + p + 1 < 2 ^ 31 by omega),
    int_ok hp, hlarger _ h, hlarger _ (show cpu.assoc ≤ p + p + 2 by omega), ok_bind]
  rw [if_neg (by simp)]
  rfl

theorem Cached.heapify_last (fuel : Nat) (hc : Cached cpu set refs n i)
    (hlt : ∀ a ∈ addrs refs, a < 2 ^ 36) (hn : n = cpu.assoc) (hlast : p + p + 2 = n)
    (hp : p + p + 2 < 2 ^ 31)
    (hrank : rank refs (cpu.cacheHeap p) < rank refs (cpu.cacheHeap (p + p + 1))) :
    ∃ cpu', OptCPU.heapify set (fuel + 1) cpu p = OptCPU.heapify set fuel cpu' (p + p + 1) := by
  have hleft : p + p + 1 < n := by omega
  obtain ⟨cpu', hswap, -⟩ := hc.heapSwap hlt hn (show p < n by omega) hleft (by omega)
  have hlarger1 : cpu.larger set p (p + p + 1) = .ok (p + p + 1) := by
    simp only [larger, if_pos (hn ▸ hleft), hc.heapRank_ok hn hleft,
      hc.heapRank_ok hn (show p < n by omega), ok_bind, if_pos hrank, gt_iff_lt]
    rfl
  have hlarger2 : cpu.larger set (p + p + 1) (p + p + 2) = .ok (p + p + 1) := if_neg (by omega)
  refine ⟨cpu', ?_⟩
  simp only [OptCPU.heapify, heapLeft, heapRight, int_ok (show p + p + 1 < 2 ^ 31 by omega),
    int_ok hp, hlarger1, hlarger2, ok_bind, hswap]
  rw [if_pos (by omega)]

/-- A cache with `2 ^ 30` frames, full, when the block in the last inner position
of the heap is referenced again. -/
theorem processSet_overflow (hn : n = 2 ^ 30) (hrefs : cpu.refInfo set = refs)
    (haddrs : addrs refs = List.range n ++ [n / 2 - 1]) (hann : Annotated 0 refs)
    (hassoc : cpu.assoc = n) (habsent : ∀ a ∈ addrs refs, cpu.lookupTable.get a = some (-1)) :
    cpu.processSet set = .error (.undefined "signed overflow") := by
  have hlen : refs.length = n + 1 := by
    have := congrArg List.length haddrs
    rw [addrs, length_map] at this
    simpa using this
  have hlt : ∀ a ∈ addrs refs, a < 2 ^ 36 := by
    intro a ha
    rw [haddrs, mem_append, mem_range, mem_singleton] at ha
    omega
  have hdist : ∀ j < n, block refs j = j := by
    intro j hj
    have hget := addrs_getElem? (show j < refs.length by omega)
    rw [haddrs, List.getElem?_append_left (by rwa [length_range]), List.getElem?_range hj] at hget
    exact (Option.some.inj hget).symm
  have hdrop : (addrs refs).drop n = [n / 2 - 1] := by
    rw [haddrs, drop_left' length_range]
  have hc : Cached { cpu with cacheHeap := fun _ => 0 } set refs 0 0 :=
    ⟨hrefs, zero_le _, nofun, nofun, nofun, fun a ha _ => habsent a ha⟩
  obtain ⟨cpu₁, h1, hc1, hassoc1, hheap⟩ :=
    hc.fillLoop_distinct hlt (by omega) hdist hassoc nofun (zero_le n)
  -- the block referenced again is the parent of the last one, which is not
  have hrank : rank refs (cpu₁.cacheHeap (n / 2 - 1)) <
      rank refs (cpu₁.cacheHeap (n / 2 - 1 + (n / 2 - 1) + 1)) := by
    rw [hc1.rank_eq hann (by omega), hc1.rank_eq hann (by omega), hheap _ (by omega),
      hheap _ (by omega), hdist _ (by omega), hdist _ (by omega), hdrop, nextRef_head, nextRef,
      if_neg (by rw [mem_singleton]; omega), infiniteRef]
    omega
  obtain ⟨k, hk⟩ : ∃ k, n / 2 = k + 1 := ⟨n / 2 - 1, by omega⟩
  obtain ⟨f, hf⟩ : ∃ f, n = f + 1 := ⟨n - 1, by omega⟩
  obtain ⟨cpu₂, h2⟩ := Cached.heapify_last n (p := k) hc1 hlt hassoc1.symm (by omega) (by omega)
    (by rw [hk] at hrank; exact hrank)
  have h3 : OptCPU.heapify set n cpu₂ (k + k + 1) = .error (.undefined "signed overflow") := by
    simp only [hf, OptCPU.heapify, heapLeft, heapRight,
      int_ok (show k + k + 1 + (k + k + 1) + 1 < 2 ^ 31 by omega), ok_bind]
    rw [int, if_neg (by omega)]
    rfl
  have hbuild : OptCPU.buildHeap set cpu₁ (k + 1) = .error (.undefined "signed overflow") := by
    have hleaf : OptCPU.heapify set (n + 1) cpu₁ (k + 1) = .ok cpu₁ :=
      heapify_leaf (by omega) (by omega)
    cases k with
    | zero => omega
    | succ k =>
      simp only [OptCPU.buildHeap, hassoc1, hleaf, ok_bind]
      rw [h2, h3]
      rfl
  rw [drop_zero] at h1
  simp only [processSet, hrefs, h1, ok_bind, hassoc1, hk, hbuild]
  rfl

def overflowTrace (n : Nat) : List Nat := List.range n ++ [n / 2 - 1]

theorem overflowTrace_fits (hn : n = 2 ^ 30) : (∀ p ∈ overflowTrace n, p >>> 0 < 2 ^ 36) ∧
    (overflowTrace n).length < 2 ^ 31 - 1 ∧ n / 2 ^ 0 / n = 1 := by
  refine ⟨fun p hp => ?_, ?_, ?_⟩
  · rw [overflowTrace, mem_append, mem_range, mem_singleton] at hp
    rw [shiftRight_zero]
    omega
  · rw [overflowTrace, length_append, length_range, length_singleton]
    omega
  · rw [pow_zero, Nat.div_one, Nat.div_self (by omega)]

theorem create_overflow (hn : n = 2 ^ 30) :
    ∃ cpu, create (overflowTrace n) (2 ^ 0) n n = .ok cpu ∧ cpu.numSets = 1 ∧
      cpu.refInfo 0 ≠ [] ∧ cpu.processSet 0 = .error (.undefined "signed overflow") := by
  obtain ⟨hlt, hlen, hnum⟩ := overflowTrace_fits hn
  obtain ⟨cpu, hcreate, hassoc, hsets, -, -, haddrs, hann, habsent⟩ :=
    create_spec (show 0 < n by omega) hnum Nat.one_pos
    hlt fun k => (length_filter_le ..).trans (by rw [length_map]; omega)
  have haddrs0 : addrs (cpu.refInfo 0) = List.range n ++ [n / 2 - 1] := by
    rw [haddrs, filter_eq_self.mpr fun a _ => decide_eq_true (by simp [setOf]), overflowTrace]
    simp [Nat.shiftRight_zero, map_id']
  refine ⟨cpu, hcreate, hsets, fun hnil => ?_, processSet_overflow hn rfl haddrs0
    (hann 0 Nat.one_pos) hassoc (habsent 0 Nat.one_pos)⟩
  rw [hnil] at haddrs0
  simp [addrs] at haddrs0

/-- With `2 ^ 30` frames the index of a child overflows. -/
theorem tick_overflow :
    (∀ p ∈ List.range (2 ^ 30) ++ [2 ^ 29 - 1], p >>> 0 < 2 ^ 36) ∧
    (List.range (2 ^ 30) ++ [2 ^ 29 - 1]).length < 2 ^ 31 - 1 ∧ 2 ^ 30 / 2 ^ 0 / 2 ^ 30 = 1 ∧
    ∃ cpu, create (List.range (2 ^ 30) ++ [2 ^ 29 - 1]) (2 ^ 0) (2 ^ 30) (2 ^ 30) = .ok cpu ∧
      cpu.tick = .error (.undefined "signed overflow") := by
  obtain ⟨n, hn⟩ : ∃ n, n = 2 ^ 30 := ⟨_, rfl⟩
  have hp : 2 ^ 29 - 1 = n / 2 - 1 := by omega
  rw [← hn, hp]
  obtain ⟨hlt, hlen, hnum⟩ := overflowTrace_fits hn
  obtain ⟨cpu, hcreate, hsets, hne, hrun⟩ := create_overflow hn
  refine ⟨hlt, hlen, hnum, cpu, hcreate, ?_⟩
  simp only [tick, hsets, range_one, tickSets, List.isEmpty_iff, hne, if_false, hrun]
  rfl

end Overflow

end OptCPU

end Gem5
