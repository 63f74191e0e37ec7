import Gem5.Mem.Cache.Tags.FALRU
import Gem5.Mem.Cache.Tags.IICChains

/-!
# What a fill leaves in the tag stores

A cache that put an address into a victim relies on finding it there again. The
LRU store always keeps that promise. The fully associative and the
indirect-index stores never write a block's tag, which stays 0, so that only a
fill of block 0 can be found again.
-/

namespace Gem5

open Lib TagStore Function

namespace LRU

variable {t t' u : LRU} {spec : Nat → Recency Nat} {b : Nat}

def SamePlace (old new : CacheBlk) : Prop :=
  new.tag = old.tag ∧ new.set = old.set ∧ new.srcMasterId = old.srcMasterId ∧
    new.isValid = old.isValid

theorem Refines.rewrite {blks : Nat → CacheBlk} (h : t.Refines spec)
    (hsame : ∀ a, SamePlace (t.blks a) (blks a)) : { t with blks := blks }.Refines spec := by
  refine ⟨h.frames, fun s hs a ha => ?_, fun s hs => ?_⟩
  · obtain ⟨-, hset, hsrc, hvalid⟩ := hsame a
    obtain ⟨hown, hmaster⟩ := h.owned s hs a ha
    exact ⟨hset.trans hown, fun hv => hsrc ▸ hmaster (hvalid ▸ hv)⟩
  · obtain ⟨v, w, hl, hv, hw, hr⟩ := h.order s hs
    refine ⟨v, w, hl, fun a ha => ?_, fun a ha => ?_, ?_⟩
    · rw [(hsame a).2.2.2]
      exact hv a ha
    · rw [(hsame a).2.2.2]
      exact hw a ha
    · have hnum : ∀ a, t.geom.blkNumber (blks a) = t.geom.blkNumber (t.blks a) := by
        intro a
        rw [LRUGeometry.blkNumber, (hsame a).1, (hsame a).2.1, LRUGeometry.blkNumber]
      rw [List.map_congr_left fun a _ => hnum a]
      exact hr

theorem Refines.setBlk {blk : CacheBlk} (h : t.Refines spec) (hsame : SamePlace (t.blks b) blk) :
    (t.setBlk b blk).Refines spec := by
  refine h.rewrite fun a => ?_
  rw [update_apply]
  split
  · subst b
    exact hsame
  · exact ⟨rfl, rfl, rfl, rfl⟩

theorem Refines.mem_sets (h : t.Refines spec) (hb : b < t.geom.numSets * t.geom.assoc) :
    b / t.geom.assoc < t.geom.numSets ∧ b ∈ t.sets (b / t.geom.assoc) := by
  have hs := Nat.div_lt_of_lt_mul (Nat.mul_comm .. ▸ hb)
  refine ⟨hs, (h.frames _ hs).mem_iff.mpr (List.mem_range'_1.mpr ⟨Nat.div_mul_le_self .., ?_⟩)⟩
  exact Nat.lt_div_mul_add t.geom.assoc_pos

theorem insert_eq_ok (h : insert t now addr master = .ok (t1, b)) :
    t.findVictim addr = .ok b ∧ t.insertBlock now addr b master = .ok t1 := by
  obtain ⟨⟨u, c, wb⟩, hv, h⟩ := bind_eq_ok.mp h
  obtain ⟨c', hc, hv⟩ := bind_eq_ok.mp hv
  cases hv
  obtain ⟨u', hins, h⟩ := bind_eq_ok.mp h
  cases h
  exact ⟨hc, hins⟩

theorem Refines.tagStep (h : t.Refines spec) (hs : TagStore.Step t op t') :
    ∃ spec', t'.Refines spec' := by
  cases op with
  | access now addr =>
    obtain ⟨-, r, hacc⟩ := hs
    obtain ⟨t1, lat, hacc', -, spec', -, h'⟩ := h.accessBlock now addr
    cases hacc'.symm.trans hacc
    exact ⟨spec', h'⟩
  | victim now addr =>
    obtain ⟨-, -, b, wb, hv, -⟩ := hs
    obtain ⟨c, -, hv⟩ := bind_eq_ok.mp hv
    cases hv
    exact ⟨spec, h⟩
  | fill now addr master status =>
    obtain ⟨-, hmiss, hstatus, t1, b, hins, rfl⟩ := hs
    obtain ⟨hv, hins⟩ := insert_eq_ok hins
    have hfill : t.fill now addr master status = .ok (setStatus t1 b status) := by
      simp only [LRU.fill, hv, hins, ok_bind]
      rfl
    obtain ⟨t2, hfill', -, spec', -, h'⟩ :=
      h.fill (pure_eq_ok.mp hmiss) (fill_master h hfill) hstatus now
    cases hfill'.symm.trans hfill
    exact ⟨spec', h'⟩
  | evict b =>
    obtain ⟨hb, hv, hevict⟩ := hs
    obtain ⟨hlt, hmem⟩ := h.mem_sets hb
    obtain ⟨t1, hevict', -, spec', -, h'⟩ := h.evict hlt hmem hv
    cases hevict'.symm.trans hevict
    exact ⟨spec', h'⟩
  | write b new =>
    obtain ⟨-, hv, ⟨hnew, heq⟩, rfl⟩ := hs
    refine ⟨spec, h.setBlk ?_⟩
    rw [heq]
    exact ⟨rfl, rfl, rfl, hnew.trans hv.symm⟩
  | clearLocks =>
    cases hs
    refine ⟨spec, h.rewrite fun a => ?_⟩
    split <;> exact ⟨rfl, rfl, rfl, rfl⟩

theorem find?_erase {p : Nat → Bool} {l : List Nat} (h : l.find? p ≠ some b) :
    (l.erase b).find? p = l.find? p := by
  induction l with
  | nil => rfl
  | cons a l ih =>
    by_cases hab : a = b
    · subst hab
      rw [List.erase_cons_head]
      cases hp : p a with
      | true => rw [List.find?_cons, hp] at h; exact absurd rfl h
      | false => rw [List.find?_cons, hp]
    · rw [List.erase_cons_tail (by simpa using hab), List.find?_cons, List.find?_cons]
      cases hp : p a with
      | true => rfl
      | false =>
        rw [List.find?_cons, hp] at h
        exact ih h

section

-- block `b` has moved to the front of set `s` and was overwritten
variable {blk : CacheBlk} (hgeom : u.geom = t.geom)
  (hsets : u.sets = Function.update t.sets s (b :: (t.sets s).erase b))
  (hblks : u.blks = Function.update t.blks b blk)
include hgeom hsets hblks

theorem findBlock_front (hset : t.geom.extractSet a = s) (htag : blk.tag = t.geom.extractTag a)
    (hvalid : blk.isValid = true) : u.findBlock a = some b := by
  subst hset
  rw [LRU.findBlock, hgeom, hsets, hblks, update_self, List.find?_cons, update_self, htag, hvalid]
  simp

theorem findBlock_other (hset : t.geom.extractSet a ≠ s → b ∉ t.sets (t.geom.extractSet a))
    (htag : t.geom.extractSet a = s → blk.tag ≠ t.geom.extractTag a) (hn : (t.sets s).Nodup)
    (hne : t.findBlock a ≠ some b) : u.findBlock a = t.findBlock a := by
  have hcongr : ∀ l : List Nat, b ∉ l →
      l.find? (fun c => (u.blks c).tag == t.geom.extractTag a && (u.blks c).isValid) =
        l.find? (fun c => (t.blks c).tag == t.geom.extractTag a && (t.blks c).isValid) := by
    intro l hl
    refine List.find?_congr fun c hc => ?_
    have hcb : c ≠ b := by
      rintro rfl
      exact hl hc
    rw [hblks, update_of_ne hcb]
  unfold LRU.findBlock at hne ⊢
  rw [hgeom, hsets]
  by_cases hs : t.geom.extractSet a = s
  · subst hs
    have hbt : (u.blks b).tag ≠ t.geom.extractTag a := by
      rw [hblks, update_self]
      exact htag rfl
    rw [update_self, List.find?_cons, beq_false_of_ne hbt, Bool.false_and,
      hcongr _ hn.not_mem_erase, find?_erase hne]
  · rw [update_of_ne hs]
    exact hcongr _ (hset hs)

end

theorem Refines.agrees (h : t.Refines spec) (haddr : addr < 2 ^ 64) (hm : master < t.maxMasters)
    (now : Nat) : ∃ t1 b, insert t now addr master = .ok (t1, b) ∧
      ∀ status, status.valid = true → Agrees t addr t1 b status := by
  have hs := t.geom.extractSet_lt addr
  obtain ⟨b, l, hvictim, hl, hb⟩ := h.findVictim addr
  obtain ⟨t1, blk, hins, hgeom, hmax, hsets, hblks, htag, hvalid, hset, -⟩ :=
    insertBlock_spec now (h.owned _ hs b hb) hb hm
  have hset := hset.trans (h.owned _ hs b hb).1
  have hblk : t1.blks b = blk := by rw [hblks, update_self]
  have hblks' : ∀ status, (setStatus t1 b status).blks =
      Function.update t.blks b { blk with status := status } := by
    intro status
    change Function.update t1.blks b { t1.blks b with status := status } = _
    rw [hblk, hblks, update_idem]
  refine ⟨t1, b, ?_, fun status hstatus => ⟨?_, ?_, fun a ha hab => ?_, fun a ha hab hne => ?_⟩⟩
  · change (do
      let (t, b, _) ← (do let b ← t.findVictim addr; return (t, b, []) : Chk (LRU × Nat × List Packet))
      let t ← t.insertBlock now addr b master
      return (t, b)) = _
    simp [hvictim, hins]
  · change (t1.blks b).isValid = false
    rw [hblk]
    exact hvalid
  · change t1.geom.regenerateBlkAddr (t1.blks b).tag (t1.blks b).set = t1.geom.blkAlign addr
    rw [hblk, hgeom, htag, hset]
    exact t.geom.regenerateBlkAddr_extract haddr
  · obtain ⟨hset', htag'⟩ := (t.geom.blkAlign_eq_iff ha haddr).mp hab
    exact congrArg pure (findBlock_front (u := setStatus t1 b status) hgeom hsets (hblks' status)
      hset' (htag.trans htag'.symm) hstatus)
  · refine congrArg pure (findBlock_other (u := setStatus t1 b status) hgeom hsets (hblks' status)
      (fun hs' hmem => ?_) (fun hs' htag' => ?_) (h.nodup hs) fun hf => hne (congrArg pure hf))
    · exact hs' ((h.owned _ (t.geom.extractSet_lt a) b hmem).1.symm.trans (h.owned _ hs b hb).1)
    · exact hab ((t.geom.blkAlign_eq_iff ha haddr).mpr ⟨hs', htag'.symm.trans htag⟩)

end LRU

namespace FALRU

variable {t t' u v : FALRU} {b : Nat}

def SameBlocks (t t' : FALRU) : Prop :=
  t'.geom = t.geom ∧ t'.tagHash = t.tagHash ∧
    ∀ b, (t'.blks b).toCacheBlk = (t.blks b).toCacheBlk

theorem SameBlocks.refl (t : FALRU) : t.SameBlocks t := ⟨rfl, rfl, fun _ => rfl⟩

theorem SameBlocks.trans (h : t.SameBlocks t') (h' : t'.SameBlocks u) : t.SameBlocks u :=
  ⟨h'.1.trans h.1, h'.2.1.trans h.2.1, fun b => (h'.2.2 b).trans (h.2.2 b)⟩

theorem SameBlocks.of_eq (h : t.SameBlocks v) (hgeom : u.geom = v.geom)
    (hhash : u.tagHash = v.tagHash) (hblks : u.blks = v.blks) : t.SameBlocks u :=
  h.trans ⟨hgeom, hhash, fun b => by rw [hblks]⟩

theorem sameBlocks_modifyBlk
    (hf : (f (t.blks b)).toCacheBlk = (t.blks b).toCacheBlk) : t.SameBlocks (t.modifyBlk b f) := by
  refine ⟨rfl, rfl, fun a => ?_⟩
  unfold modifyBlk
  by_cases ha : a = b
  · subst ha
    simp only [update_self]
    exact hf
  · simp [update_of_ne ha]

theorem shiftBoundary_sameBlocks (h : shiftBoundary b mask t i = .ok t') : t.SameBlocks t' := by
  unfold shiftBoundary at h
  split at h
  · obtain ⟨last, -, h⟩ := bind_eq_ok.mp h
    cases h
    exact SameBlocks.of_eq (v := t.modifyBlk last fun blk =>
      { blk with inCache := clearBit blk.inCache i }) (sameBlocks_modifyBlk rfl) rfl rfl rfl
  · split at h
    · cases h
      exact ⟨rfl, rfl, fun _ => rfl⟩
    · cases h
      exact .refl _

theorem unlink_sameBlocks (h : t.unlink b = .ok t') : t.SameBlocks t' := by
  unfold unlink at h
  split at h
  · replace h := of_guard h
    obtain ⟨prev, -, h⟩ := bind_eq_ok.mp h
    cases h
    exact SameBlocks.of_eq (v := t.modifyBlk prev fun blk => { blk with next := none })
      (sameBlocks_modifyBlk rfl) rfl rfl rfl
  · obtain ⟨prev, -, h⟩ := bind_eq_ok.mp h
    obtain ⟨next, -, h⟩ := bind_eq_ok.mp h
    cases h
    exact (sameBlocks_modifyBlk rfl).trans (sameBlocks_modifyBlk rfl)

theorem linkHead_sameBlocks (t : FALRU) (b : Nat) : t.SameBlocks (t.linkHead b) := by
  let u := t.modifyBlk b fun blk => { blk with next := some t.head, prev := none }
  have hu : t.SameBlocks u := sameBlocks_modifyBlk rfl
  exact SameBlocks.of_eq (v := u.modifyBlk u.head fun blk => { blk with prev := some b })
    (hu.trans (sameBlocks_modifyBlk rfl)) rfl rfl rfl

theorem shiftBoundaries_sameBlocks {l : List Nat} (h : l.foldlM (shiftBoundary b mask) t = .ok t') :
    t.SameBlocks t' := by
  induction l generalizing t with
  | nil =>
    cases h
    exact .refl _
  | cons i l ih =>
    rw [List.foldlM_cons] at h
    obtain ⟨t2, h2, h⟩ := bind_eq_ok.mp h
    exact (shiftBoundary_sameBlocks h2).trans (ih h)

theorem moveToHead_sameBlocks (h : t.moveToHead b = .ok t') : t.SameBlocks t' := by
  obtain ⟨t1, h1, h⟩ := bind_eq_ok.mp h
  have hb : t.SameBlocks (t1.modifyBlk b fun blk => { blk with inCache := t1.geom.cacheMask }) :=
    (shiftBoundaries_sameBlocks h1).trans (sameBlocks_modifyBlk rfl)
  dsimp only at h
  split at h
  · cases h
    exact hb
  · obtain ⟨t2, h2, h⟩ := bind_eq_ok.mp h
    cases h
    exact (hb.trans (unlink_sameBlocks h2)).trans (linkHead_sameBlocks t2 b)

theorem sameBlocks_countVictim (t : FALRU) (now b : Nat) : t.SameBlocks (t.countVictim now b) := by
  unfold countVictim
  split
  · exact ⟨rfl, rfl, fun _ => rfl⟩
  · dsimp only
    split <;> exact ⟨rfl, rfl, fun _ => rfl⟩

theorem findVictim_spec (h : t.findVictim now addr = .ok (t', b)) :
    b = t.tail ∧ t'.geom = t.geom ∧ (∀ a, (t'.blks a).toCacheBlk = (t.blks a).toCacheBlk) ∧
      t'.tagHash = Function.update (Function.update t.tagHash (t.blks b).tag none)
        (t.geom.blkAlign addr) (some b) := by
  replace h := of_guard h
  obtain ⟨t1, h1, h⟩ := bind_eq_ok.mp h
  cases h
  obtain ⟨hgeom, hhash, hblks⟩ := moveToHead_sameBlocks h1
  obtain ⟨hgeom', hhash', hblks'⟩ := sameBlocks_countVictim (t1.rehash t.tail addr) now t.tail
  refine ⟨rfl, hgeom'.trans hgeom, fun a => (hblks' a).trans (hblks a), hhash'.trans ?_⟩
  have htag : (t1.blks t.tail).tag = (t.blks t.tail).tag := by rw [hblks t.tail]
  unfold rehash
  rw [hhash, hgeom, htag]

def Untagged (t : FALRU) : Prop := ∀ b, (t.blks b).tag = 0

theorem SameBlocks.untagged (h : t.SameBlocks t') (ht : t.Untagged) : t'.Untagged := by
  intro b
  rw [h.2.2 b]
  exact ht b

theorem untagged_setBlk {blk : CacheBlk} (ht : t.Untagged) (hblk : blk.tag = (t.blks b).tag) :
    (t.setBlk b blk).Untagged := by
  intro a
  unfold setBlk modifyBlk
  by_cases ha : a = b
  · subst ha
    simp only [update_self]
    exact hblk.trans (ht a)
  · simp only [update_of_ne ha]
    exact ht a

theorem create_untagged (h : create blkSize size hitLatency = .ok t) : t.Untagged := by
  obtain ⟨g, -, h⟩ := bind_eq_ok.mp h
  replace h := of_guard h
  replace h := of_guard h
  cases h
  exact fun b => rfl

theorem insert_eq_ok (h : insert t now addr master = .ok (t1, b)) :
    t.findVictim now addr = .ok (t1, b) := by
  obtain ⟨⟨u, c, wb⟩, hv, h⟩ := bind_eq_ok.mp h
  obtain ⟨⟨u', c'⟩, hc, hv⟩ := bind_eq_ok.mp hv
  cases hv
  obtain ⟨u'', hins, h⟩ := bind_eq_ok.mp h
  cases hins
  cases h
  exact hc

theorem accessBlock_sameBlocks (h : t.accessBlock addr = .ok (t', r)) : t.SameBlocks t' := by
  obtain ⟨found, -, h⟩ := bind_eq_ok.mp h
  cases found with
  | none =>
    cases h
    exact ⟨rfl, rfl, fun _ => rfl⟩
  | some b =>
    obtain ⟨u, hu, h⟩ := bind_eq_ok.mp h
    cases h
    unfold touch at hu
    split at hu
    · cases hu
      exact ⟨rfl, rfl, fun _ => rfl⟩
    · obtain ⟨hgeom, hhash, hblks⟩ := moveToHead_sameBlocks hu
      exact ⟨hgeom, hhash, hblks⟩

theorem untagged_step (ht : t.Untagged) (hs : TagStore.Step t op t') : t'.Untagged := by
  cases op with
  | access now addr =>
    obtain ⟨-, r, h⟩ := hs
    obtain ⟨⟨u, b, lat, inCache⟩, hu, h⟩ := bind_eq_ok.mp h
    cases h
    exact (accessBlock_sameBlocks hu).untagged ht
  | victim now addr =>
    obtain ⟨-, -, b, wb, h, -⟩ := hs
    obtain ⟨⟨u, b'⟩, hu, h⟩ := bind_eq_ok.mp h
    cases h
    intro a
    rw [(findVictim_spec hu).2.2.1 a]
    exact ht a
  | fill now addr master status =>
    obtain ⟨-, -, -, t1, b, h, rfl⟩ := hs
    refine untagged_setBlk (fun a => ?_) rfl
    rw [(findVictim_spec (insert_eq_ok h)).2.2.1 a]
    exact ht a
  | evict b =>
    obtain ⟨-, -, h⟩ := hs
    obtain ⟨u, hu, h⟩ := bind_eq_ok.mp h
    cases hu
    cases h
    exact untagged_setBlk (t := t.invalidate) ht rfl
  | write b new =>
    obtain ⟨-, -, ⟨-, heq⟩, rfl⟩ := hs
    exact untagged_setBlk ht (by rw [heq]; rfl)
  | clearLocks =>
    cases hs
    intro b
    change (if b < t.geom.numBlocks then _ else t.blks b : FALRUBlk).tag = 0
    split <;> exact ht b

theorem lookup_eq (ht : t.Untagged) (addr : Nat) :
    t.findBlock addr = match t.hashLookup (t.geom.blkAlign addr) with
      | none => .ok none
      | some b =>
        if (t.blks b).isValid then
          if t.geom.blkAlign addr = 0 then .ok (some b) else .error (.assertion "blk->tag == blkAddr")
        else .ok none := by
  unfold findBlock lookup
  dsimp only
  cases t.hashLookup (t.geom.blkAlign addr) with
  | none => rfl
  | some b =>
    dsimp only
    split
    · by_cases h0 : t.geom.blkAlign addr = 0
      · simp [ht b, ensure, h0]
      · simp [ht b, ensure, h0, Ne.symm h0]
    · rfl

theorem setStatus_spec (status : BlkStatus) (h : insert t now addr master = .ok (t1, b))
    (ht' : t' = setStatus t1 b status) :
    t'.geom = t.geom ∧
      t'.tagHash = Function.update (Function.update t.tagHash (t.blks b).tag none)
        (t.geom.blkAlign addr) (some b) ∧
      (t'.blks b).isValid = status.valid ∧
      (∀ a, a ≠ b → (t'.blks a).toCacheBlk = (t.blks a).toCacheBlk) := by
  subst ht'
  obtain ⟨-, hgeom, hblks, hhash⟩ := findVictim_spec (insert_eq_ok h)
  refine ⟨hgeom, hhash, ?_, fun a ha => ?_⟩
  · change (Function.update t1.blks b _ b : FALRUBlk).isValid = _
    rw [update_self]
    rfl
  · change (Function.update t1.blks b _ a : FALRUBlk).toCacheBlk = _
    rw [update_of_ne ha]
    exact hblks a

def Unhashed (t : FALRU) (b : Nat) : Prop :=
  ∀ a < 2 ^ 64, t.geom.blkAlign a ≠ 0 → t.hashLookup (t.geom.blkAlign a) ≠ some b

theorem create_unhashed (h : create blkSize size hitLatency = .ok t) : t.Unhashed b := by
  obtain ⟨g, -, h⟩ := bind_eq_ok.mp h
  replace h := of_guard h
  replace h := of_guard h
  cases h
  exact fun a _ _ => nofun

theorem Unhashed.fill (h : t.Unhashed c) (hins : insert t now addr master = .ok (t1, b))
    (hne : c ≠ b) (status : BlkStatus) : (setStatus t1 b status).Unhashed c := by
  obtain ⟨hgeom, hhash, -⟩ := setStatus_spec status hins rfl
  intro a ha hnz
  rw [hgeom] at hnz ⊢
  rw [hashLookup, hhash, update_apply, update_apply]
  split_ifs
  · simpa using hne.symm
  · nofun
  · exact h a ha hnz

theorem agrees_iff (ht : t.Untagged)
    (hins : insert t now addr master = .ok (t1, b)) (hstatus : status.valid = true) :
    Agrees t addr t1 b status ↔ t.geom.blkAlign addr = 0 ∧ (t.blks t.tail).isValid = false ∧
      t.Unhashed t.tail := by
  obtain ⟨rfl, hgeom, hblks, hhash⟩ := findVictim_spec (insert_eq_ok hins)
  obtain ⟨hgeom', hhash', hvalid', hblks'⟩ := setStatus_spec _ hins rfl
  have ht' : (setStatus t1 t.tail status).Untagged :=
    untagged_setBlk (fun a => by rw [hblks a]; exact ht a) rfl
  rw [ht t.tail] at hhash'
  constructor
  · intro h
    have hzero : t.geom.blkAlign addr = 0 := by
      have haddr := h.blkAddr
      change (t1.blks t.tail).tag = t1.geom.blkAlign addr at haddr
      rw [hblks, ht t.tail, hgeom] at haddr
      exact haddr.symm
    have hinv : (t.blks t.tail).isValid = false := by
      have hv := h.notValid
      change (t1.blks t.tail).isValid = false at hv
      rw [hblks] at hv
      exact hv
    refine ⟨hzero, hinv, fun a ha hne hlookup => ?_⟩
    -- the block was not valid, so the address was not found; now the lookup stops
    have hbefore : t.findBlock a = .ok none := by
      rw [lookup_eq ht, hlookup]
      simp [hinv, Bool.false_eq_true]
    have hafter := h.others a ha (by rw [← hzero] at hne; exact hne)
      (by change t.findBlock a ≠ _; rw [hbefore]; nofun)
    change FALRU.findBlock _ a = t.findBlock a at hafter
    rw [hbefore, lookup_eq ht', hashLookup, hgeom', hhash', hzero, update_of_ne hne,
      update_of_ne hne, show t.tagHash _ = _ from hlookup] at hafter
    simp only [hvalid', hstatus, if_true, if_neg hne] at hafter
    cases hafter
  · rintro ⟨hzero, hinv, hstale⟩
    refine ⟨?_, ?_, fun a ha hab => ?_, fun a ha hab hne => ?_⟩
    · change (t1.blks t.tail).isValid = false
      rw [hblks]
      exact hinv
    · change (t1.blks t.tail).tag = t1.geom.blkAlign addr
      rw [hblks, ht t.tail, hgeom, hzero]
    · change t.geom.blkAlign a = t.geom.blkAlign addr at hab
      change FALRU.findBlock _ a = _
      rw [lookup_eq ht', hashLookup, hgeom', hhash', hab, update_self]
      simp [hvalid', hstatus, if_pos hzero]
    · change t.geom.blkAlign a ≠ t.geom.blkAlign addr at hab
      change FALRU.findBlock _ a = t.findBlock a
      rw [hzero] at hab hhash'
      rw [lookup_eq ht', lookup_eq ht, hashLookup, hashLookup, hgeom', hhash',
        update_of_ne hab, update_of_ne hab]
      cases hc : t.tagHash (t.geom.blkAlign a) with
      | none => rfl
      | some c =>
        have hcb : c ≠ t.tail := by
          rintro rfl
          exact hstale a ha hab hc
        simp [hblks' c hcb]

end FALRU

namespace IIC

variable {t t' : IIC} {b : Nat} {L : Option Nat → List Nat}

theorem insert_eq_ok (h : insert t now addr master = .ok (t1, b)) :
    ∃ wb, t.findVictim addr = .ok (t1, b, wb) := by
  obtain ⟨⟨u, c, wb⟩, hv, h⟩ := bind_eq_ok.mp h
  obtain ⟨u', hins, h⟩ := bind_eq_ok.mp h
  cases hins
  cases h
  exact ⟨wb, hv⟩

theorem quiet_setBlk {blk : CacheBlk} (htag : blk.tag = (t.tagStore b).tag)
    (hb : t.geom.primaryBound ≤ b → blk.isValid = true → (t.tagStore b).isValid = true) :
    t.Quiet (t.setBlk b blk) :=
  quiet_modifyTag htag fun hle => ⟨rfl, hb hle⟩

theorem Rep.tagStep (h : t.Rep L) (hs : TagStore.Step t op t') :
    (∃ L', t'.Rep L') ∧ t'.geom = t.geom := by
  cases op with
  | access now addr =>
    obtain ⟨-, r, ha⟩ := hs
    have hq := accessBlock_quiet h ha
    exact ⟨⟨L, h.quiet hq⟩, hq.geom⟩
  | victim now addr =>
    obtain ⟨-, -, b, wb, hv, -⟩ := hs
    obtain ⟨hrep, hgeom, -⟩ := findVictim_rep h hv
    exact ⟨hrep, hgeom⟩
  | fill now addr master status =>
    obtain ⟨-, -, -, t1, b, hins, rfl⟩ := hs
    obtain ⟨wb, hv⟩ := insert_eq_ok hins
    obtain ⟨⟨L', h'⟩, hgeom, -, hlt, -⟩ := findVictim_rep h hv
    have hq : t1.Quiet (setStatus t1 b status) := quiet_setBlk rfl fun hle =>
      absurd (hgeom ▸ hlt) (Nat.not_lt.mpr hle)
    exact ⟨⟨L', h'.quiet hq⟩, hq.geom.trans hgeom⟩
  | evict b =>
    obtain ⟨-, hv, he⟩ := hs
    obtain ⟨u, hu, he⟩ := bind_eq_ok.mp he
    cases he
    obtain ⟨⟨L', h'⟩, hgeom⟩ := invalidate_rep h hv hu
    have hq : u.Quiet (u.setBlk b (u.tagStore b).toCacheBlk.invalidate) := quiet_setBlk rfl nofun
    exact ⟨⟨L', h'.quiet hq⟩, hq.geom.trans hgeom⟩
  | write b new =>
    obtain ⟨-, hv, ⟨-, heq⟩, rfl⟩ := hs
    have hq : t.Quiet (t.setBlk b new) := quiet_setBlk (by rw [heq]; rfl) fun _ _ => hv
    exact ⟨⟨L, h.quiet hq⟩, hq.geom⟩
  | clearLocks =>
    cases hs
    have hq : t.Quiet t.clearLocks := by
      refine ⟨rfl, rfl, fun _ => ⟨rfl, .refl _⟩, fun h0 i => ?_, fun i _ => ?_⟩
      · change (if i < t.geom.numTags then _ else t.tagStore i : IICTag).tag = 0
        split <;> exact h0 i
      · change (if i < t.geom.numTags then _ else t.tagStore i : IICTag).chainPtr = _ ∧
          ((if i < t.geom.numTags then _ else t.tagStore i : IICTag).isValid = true → _)
        split <;> exact ⟨rfl, id⟩
    exact ⟨⟨L, h.quiet hq⟩, hq.geom⟩

theorem agrees_iff (h : t.Rep L) (haddr : addr < 2 ^ 64)
    (hins : insert t now addr master = .ok (t1, b)) (hstatus : status.valid = true) :
    Agrees t addr t1 b status ↔ t.geom.blkAlign addr = 0 := by
  obtain ⟨wb, hv⟩ := insert_eq_ok hins
  obtain ⟨⟨L', h'⟩, hgeom, hinv, hlt, hhead⟩ := findVictim_rep h hv
  have hq : t1.Quiet (setStatus t1 b status) := quiet_setBlk rfl fun hle =>
    absurd (hgeom ▸ hlt) (Nat.not_lt.mpr hle)
  have hgeom' := hq.geom.trans hgeom
  constructor
  · intro hag
    have haddr := hag.blkAddr
    change wrap64 ((t1.tagStore b).tag <<< t1.geom.tagShift) = t1.geom.blkAlign addr at haddr
    rw [h'.untagged b, hgeom, Nat.zero_shiftLeft] at haddr
    exact haddr.symm
  · intro hzero
    have htag : t.geom.extractTag addr = 0 := by
      rw [t.geom.blkAlign_eq haddr, Nat.shiftLeft_eq] at hzero
      exact (Nat.mul_eq_zero.mp hzero).resolve_right (Nat.two_pow_pos _).ne'
    refine ⟨hinv, ?_, fun a ha hab => ?_, fun a ha hab hne => ?_⟩
    · change wrap64 ((t1.tagStore b).tag <<< t1.geom.tagShift) = t1.geom.blkAlign addr
      rw [h'.untagged b, hgeom, hzero, Nat.zero_shiftLeft]
      rfl
    · have htag' := (t.geom.blkAlign_eq_iff ha haddr).mp hab
      refine findBlock_head ?_ ?_
      · rw [hgeom', show t.geom.hash a = t.geom.hash addr by
          rw [IICGeometry.hash, IICGeometry.hash, htag']]
        exact hhead
      · rw [isTag, (h'.quiet hq).untagged b, hgeom', htag', htag]
        change (0 == 0 && (Function.update t1.tagStore b _ b : IICTag).isValid) = true
        rw [update_self]
        exact hstatus
    · have hne' : t.geom.extractTag a ≠ 0 := fun h0 =>
        hab ((t.geom.blkAlign_eq_iff ha haddr).mpr (h0.trans htag.symm))
      change IIC.findBlock _ a = t.findBlock a
      rw [h.findBlock_none hne', (h'.quiet hq).findBlock_none (by rw [hgeom']; exact hne')]

end IIC

/-- After a fill in any reachable state, an LRU store finds the address again in
the block that took it, and everything else as before. A fully associative
store does so exactly for block 0, and only if the tail of its list is not valid
and no other address leads to it. An indirect-index store does so exactly for
block 0. -/
theorem fill_agrees (now addr master : Nat) (status : BlkStatus) (haddr : addr < 2 ^ 64)
    (hstatus : status.valid = true) :
    (∀ numSets blkSize assoc hitLatency masters (t₀ t : LRU) ops,
      LRU.create numSets blkSize assoc hitLatency masters = .ok t₀ → Runs Step t₀ ops t →
      findBlock t addr = .ok none → master < t.maxMasters →
        ∃ t₁ b, insert t now addr master = .ok (t₁, b) ∧ Agrees t addr t₁ b status) ∧
    (∀ blkSize size hitLatency (t₀ t t₁ : FALRU) b ops,
      FALRU.create blkSize size hitLatency = .ok t₀ → Runs Step t₀ ops t →
      findBlock t addr = .ok none → insert t now addr master = .ok (t₁, b) →
        (Agrees t addr t₁ b status ↔
          t.geom.blkAlign addr = 0 ∧ (t.blks t.tail).isValid = false ∧ t.Unhashed t.tail)) ∧
    (∀ p repl (t₀ t t₁ : IIC) b ops, IIC.create p repl = .ok t₀ → Runs Step t₀ ops t →
      findBlock t addr = .ok none → insert t now addr master = .ok (t₁, b) →
        (Agrees t addr t₁ b status ↔ t.geom.blkAlign addr = 0)) := by
  refine ⟨?_, ?_, ?_⟩
  · intro numSets blkSize assoc hitLatency masters t₀ t ops hc hr _ hm
    obtain ⟨spec, h⟩ := hr.invariant (P := fun t => ∃ spec, t.Refines spec)
      ⟨_, LRU.create_refines hc⟩ fun t op t' ⟨spec, h⟩ hs => h.tagStep hs
    obtain ⟨t₁, b, hins, hagrees⟩ := h.agrees haddr hm now
    exact ⟨t₁, b, hins, hagrees status hstatus⟩
  · intro blkSize size hitLatency t₀ t t₁ b ops hc hr _ hins
    exact FALRU.agrees_iff (hr.invariant (FALRU.create_untagged hc)
      fun t op t' => FALRU.untagged_step) hins hstatus
  · intro p repl t₀ t t₁ b ops hc hr _ hins
    obtain ⟨L, h⟩ := hr.invariant (P := fun t => ∃ L, t.Rep L) (IIC.create_rep hc)
      fun t op t' ⟨L, h⟩ hs => (h.tagStep hs).1
    exact IIC.agrees_iff h haddr hins hstatus

theorem trial_spec [TagStore T] (create : Chk T) (addr : Nat) (check : T → T × Nat → Prop)
    [∀ t r, Decidable (check t r)] (h : (do
      let t ← create
      ensure (findBlock t addr = .ok none) "miss"
      let filled ← insert t 0 addr 0
      ensure (check t filled) "check"
      return (t, filled) : Chk (T × T × Nat)).toOption.isSome = true) :
    ∃ t t₁ b, create = .ok t ∧ findBlock t addr = .ok none ∧ insert t 0 addr 0 = .ok (t₁, b) ∧
      check t (t₁, b) := by
  obtain ⟨r, h⟩ := ok_of_isSome h
  simp only [bind_eq_ok, ensure_eq_ok, decide_eq_true_eq] at h
  obtain ⟨t, hc, _, hmiss, ⟨t₁, b⟩, hins, _, hcheck, -⟩ := h
  exact ⟨t, t₁, b, hc, hmiss, hins, hcheck⟩

def validStatus : BlkStatus := ⟨true, false, true, false, false, false⟩

/-- A fully associative store of two blocks loses the second block as soon as it
is filled: the lookup stops at an assertion. An indirect-index store does not
find block 1 after it was filled with it. -/
theorem fill_disagrees :
    (∃ t t₁ b, FALRU.create 65536 131072 1 = .ok t ∧ findBlock t 65536 = .ok none ∧
      insert t 0 65536 0 = .ok (t₁, b) ∧
      findBlock (setStatus t₁ b validStatus) 65536 = .error (.assertion "blk->tag == blkAddr") ∧
      ¬ Agrees t 65536 t₁ b validStatus) ∧
    ∃ t t₁ b, IIC.create ⟨8, 1, 4, 1, 1, 1, 4⟩ { numPools := 2, freshRes := 1, poolRes := 1 } = .ok t ∧
      findBlock t 4 = .ok none ∧ insert t 0 4 0 = .ok (t₁, b) ∧
      findBlock (setStatus t₁ b validStatus) 4 = .ok none ∧ ¬ Agrees t 4 t₁ b validStatus := by
  constructor
  · obtain ⟨t, t₁, b, hc, hmiss, hins, hstop⟩ := trial_spec (FALRU.create 65536 131072 1) 65536
      (fun _ t => findBlock (setStatus t.1 t.2 validStatus) 65536 =
        .error (.assertion "blk->tag == blkAddr")) (by decide +kernel)
    refine ⟨t, t₁, b, hc, hmiss, hins, hstop, fun h => ?_⟩
    have hfound := h.found 65536 (by decide) rfl
    rw [hstop] at hfound
    cases hfound
  · obtain ⟨t, t₁, b, hc, hmiss, hins, hlost⟩ := trial_spec
      (IIC.create ⟨8, 1, 4, 1, 1, 1, 4⟩ { numPools := 2, freshRes := 1, poolRes := 1 }) 4
      (fun _ t => findBlock (setStatus t.1 t.2 validStatus) 4 = .ok none) (by decide +kernel)
    refine ⟨t, t₁, b, hc, hmiss, hins, hlost, fun h => ?_⟩
    have hfound := h.found 4 (by decide) rfl
    rw [hlost] at hfound
    cases hfound

theorem fill_agrees_first :
    (∃ t₁ b, insert LRU.sampleStore 0 4 0 = .ok (t₁, b) ∧
      Agrees LRU.sampleStore 4 t₁ b validStatus) ∧
    (∃ t₀ t t₁ b, FALRU.create 65536 131072 1 = .ok t₀ ∧
      Runs Step t₀ [.fill 0 65536 0 validStatus] t ∧ insert t 0 0 0 = .ok (t₁, b) ∧
      Agrees t 0 t₁ b validStatus) ∧
    ∃ t t₁ b, IIC.create ⟨8, 1, 4, 1, 1, 1, 4⟩ { numPools := 2, freshRes := 1, poolRes := 1 } = .ok t ∧
      insert t 0 0 0 = .ok (t₁, b) ∧ Agrees t 0 t₁ b validStatus := by
  refine ⟨?_, ?_, ?_⟩
  · exact (fill_agrees 0 4 0 validStatus (by decide) rfl).1 1 4 2 1 1 _ LRU.sampleStore [] rfl .nil rfl
      (by decide)
  · obtain ⟨t, t₁, b, hc, hmiss, hins, hmiss', hins', hzero, hinv, hne⟩ :=
      trial_spec (FALRU.create 65536 131072 1) 65536 (fun _ r =>
        findBlock (setStatus r.1 r.2 validStatus) 0 = .ok none ∧
        (insert (setStatus r.1 r.2 validStatus) 0 0 0).toOption.isSome = true ∧
        (setStatus r.1 r.2 validStatus).geom.blkAlign 0 = 0 ∧
        ((setStatus r.1 r.2 validStatus).blks (setStatus r.1 r.2 validStatus).tail).isValid = false ∧
        (setStatus r.1 r.2 validStatus).tail ≠ r.2) (by decide +kernel)
    obtain ⟨⟨t₂, b₂⟩, hins'⟩ := ok_of_isSome hins'
    have hrun : Runs Step t [.fill 0 65536 0 validStatus] (setStatus t₁ b validStatus) :=
      .single ⟨by decide, hmiss, rfl, t₁, b, hins, rfl⟩
    have hunhashed := (FALRU.create_unhashed (b := (setStatus t₁ b validStatus).tail) hc).fill
      hins hne validStatus
    exact ⟨t, _, t₂, b₂, hc, hrun, hins', ((fill_agrees 0 0 0 validStatus (by decide) rfl).2.1
      _ _ _ t _ t₂ b₂ _ hc hrun hmiss' hins').mpr ⟨hzero, hinv, hunhashed⟩⟩
  · obtain ⟨t, t₁, b, hc, hmiss, hins, hzero⟩ := trial_spec
      (IIC.create ⟨8, 1, 4, 1, 1, 1, 4⟩ { numPools := 2, freshRes := 1, poolRes := 1 }) 0
      (fun t _ => t.geom.blkAlign 0 = 0) (by decide +kernel)
    exact ⟨t, t₁, b, hc, hins, ((fill_agrees 0 0 0 validStatus (by decide) rfl).2.2 _ _ t t t₁ b []
      hc .nil hmiss hins).mpr hzero⟩

end Gem5
