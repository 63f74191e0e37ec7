import Gem5.Lib.Chains
import Gem5.Mem.Cache.Tags.IIC

/-!
# The chains of the indirect-index tag store

The secondary tags are partitioned into the chains of the sets and the free
list, and a tag on the free list is not valid. Most of what the store does is
quiet: it leaves the chains alone. A tag that is freed, and a way that is
spilled, go from one list to another.

No function of the store writes the tag field of a tag, so it keeps the value
the constructor gave it.
-/

namespace Gem5

open Lib List Function Nat

namespace IICTag

@[simp] theorem assign_isValid (x y : IICTag) : (x.assign y).isValid = y.isValid := rfl
@[simp] theorem assign_tag (x y : IICTag) : (x.assign y).tag = y.tag := rfl
@[simp] theorem assign_chainPtr (x y : IICTag) : (x.assign y).chainPtr = y.chainPtr := rfl

end IICTag

namespace IICGeometry

theorem sizes_lt (g : IICGeometry) : g.numSets < 2 ^ 32 ∧ g.blkSize < 2 ^ 32 := by
  have hblk : 0 < g.blkSize := (Nat.zero_lt_succ 3).trans_le g.blkSize_ge
  have hsets : g.numSets ≤ g.numSets * g.assoc := Nat.le_mul_of_pos_right _ g.assoc_pos
  constructor
  · refine lt_of_le_of_lt ?_ g.data_lt
    exact (Nat.le_add_right_of_le (Nat.le_add_left_of_le hsets)).trans (Nat.le_mul_of_pos_right _ hblk)
  · exact lt_of_le_of_lt (Nat.le_mul_of_pos_left _ (Nat.add_pos_right _ g.numSecondary_pos)) g.data_lt

theorem blkSize_eq (g : IICGeometry) : g.blkSize = 2 ^ g.tagShift :=
  isPowerOf2_log2 g.blkSize_pow g.sizes_lt.2

theorem hash_lt (g : IICGeometry) (addr : Nat) : g.hash addr < g.hashSets := by
  unfold hash
  rw [hashSets, isPowerOf2_log2 g.numSets_pow g.sizes_lt.1, Nat.log2_two_pow]
  exact Nat.xor_lt_two_pow (Nat.and_lt_two_pow _ (Nat.sub_one_lt (Nat.two_pow_pos _).ne'))
    (Nat.and_lt_two_pow _ (Nat.sub_one_lt (Nat.two_pow_pos _).ne'))

theorem blkAlign_eq (g : IICGeometry) (h : addr < 2 ^ 64) :
    g.blkAlign addr = g.extractTag addr <<< g.tagShift := by
  have hk : g.tagShift < 32 := (Nat.pow_lt_pow_iff_right (by decide)).mp (g.blkSize_eq ▸ g.sizes_lt.2)
  rw [blkAlign, blkMask, blkSize_eq, and_not_lowBits (by omega) h, extractTag]

theorem blkAlign_eq_iff (g : IICGeometry) (ha : a < 2 ^ 64) (hb : b < 2 ^ 64) :
    g.blkAlign a = g.blkAlign b ↔ g.extractTag a = g.extractTag b := by
  rw [blkAlign_eq g ha, blkAlign_eq g hb]
  exact shiftRight_shiftLeft_inj

end IICGeometry

namespace IIC

variable {t t' u : IIC} {L : Option Nat → List Nat} {i j set : Nat}

def ptr (t : IIC) (n : Nat) : Option Nat := if n = t.geom.tagNull then none else some n

def next (t : IIC) (i : Nat) : Option Nat := t.ptr (t.tagStore i).chainPtr

def top (t : IIC) : Option Nat → Option Nat
  | none => t.ptr t.freelist
  | some s => t.ptr (t.sets s).chainPtr

structure Rep (t : IIC) (L : Option Nat → List Nat) : Prop where
  chains : Chains t.next t.top L
  cells : ∀ i, (∃ k, i ∈ L k) ↔ t.geom.primaryBound ≤ i ∧ i < t.geom.tagNull
  free : ∀ i ∈ L none, (t.tagStore i).isValid = false
  ways : ∀ s, (t.sets s).tags.Perm (List.range' (s * t.geom.assoc) t.geom.assoc)
  untagged : ∀ i, (t.tagStore i).tag = 0

theorem ptr_eq_some : t.ptr n = some i ↔ n = i ∧ i ≠ t.geom.tagNull := by
  unfold ptr
  split
  · rename_i h
    subst h
    simp [eq_comm]
  · rename_i h
    rw [Option.some.injEq]
    exact ⟨fun hn => ⟨hn, hn ▸ h⟩, fun hn => hn.1⟩

theorem ptr_eq_none : t.ptr n = none ↔ n = t.geom.tagNull := by
  unfold ptr
  split <;> simp [*]

theorem Rep.way_lt (h : t.Rep L) (hs : set < t.geom.hashSets) (hi : i ∈ (t.sets set).tags) :
    i < t.geom.primaryBound := by
  obtain ⟨-, hlt⟩ := mem_range'_1.mp ((h.ways set).mem_iff.mp hi)
  refine hlt.trans_le ?_
  rw [← succ_mul]
  exact mul_le_mul_right _ hs

theorem Rep.bounds (h : t.Rep L) (hi : i ∈ L k) : t.geom.primaryBound ≤ i ∧ i < t.geom.tagNull :=
  (h.cells i).mp ⟨k, hi⟩

def QuietTags (bound : Nat) (tags tags' : Nat → IICTag) : Prop :=
  ((∀ i, (tags i).tag = 0) → ∀ i, (tags' i).tag = 0) ∧
    ∀ i, bound ≤ i → (tags' i).chainPtr = (tags i).chainPtr ∧
      ((tags' i).isValid = true → (tags i).isValid = true)

structure Quiet (t t' : IIC) : Prop where
  geom : t'.geom = t.geom
  freelist : t'.freelist = t.freelist
  sets : ∀ s, (t'.sets s).chainPtr = (t.sets s).chainPtr ∧ (t'.sets s).tags.Perm (t.sets s).tags
  tags : QuietTags t.geom.primaryBound t.tagStore t'.tagStore

theorem QuietTags.refl (bound : Nat) (tags : Nat → IICTag) : QuietTags bound tags tags :=
  ⟨id, fun _ _ => ⟨rfl, id⟩⟩

theorem QuietTags.trans (h : QuietTags b x y) (h' : QuietTags b y z) : QuietTags b x z :=
  ⟨fun hx => h'.1 (h.1 hx), fun i hi =>
    ⟨(h'.2 i hi).1.trans (h.2 i hi).1, fun hv => (h.2 i hi).2 ((h'.2 i hi).2 hv)⟩⟩

theorem Quiet.refl (t : IIC) : t.Quiet t :=
  ⟨rfl, rfl, fun _ => ⟨rfl, .refl _⟩, .refl _ _⟩

theorem Quiet.trans (h : t.Quiet t') (h' : t'.Quiet u) : t.Quiet u :=
  ⟨h'.geom.trans h.geom, h'.freelist.trans h.freelist,
    fun s => ⟨(h'.sets s).1.trans (h.sets s).1, (h'.sets s).2.trans (h.sets s).2⟩,
    h.tags.trans (h.geom ▸ h'.tags)⟩

theorem Quiet.ptr (h : t.Quiet t') : t'.ptr = t.ptr := by
  funext n
  rw [IIC.ptr, IIC.ptr, h.geom]

theorem Rep.quiet (h : t.Rep L) (hq : t.Quiet t') : t'.Rep L := by
  have hcell : ∀ k, ∀ i ∈ L k, (t'.tagStore i).chainPtr = (t.tagStore i).chainPtr ∧
      ((t'.tagStore i).isValid = true → (t.tagStore i).isValid = true) :=
        fun k i hi => hq.tags.2 i (h.bounds hi).1
  refine ⟨h.chains.congr (fun k => ?_) (fun k i hi => ?_), ?_, fun i hi => ?_, fun s => ?_,
    hq.tags.1 h.untagged⟩
  · cases k with
    | none => rw [top, top, hq.ptr, hq.freelist]
    | some s => rw [top, top, hq.ptr, (hq.sets s).1]
  · rw [next, next, hq.ptr, (hcell k i hi).1]
  · rw [hq.geom]
    exact h.cells
  · refine Bool.eq_false_of_not_eq_true fun hv => ?_
    exact absurd ((hcell none i hi).2 hv) (by rw [h.free i hi]; exact Bool.false_ne_true)
  · rw [hq.geom]
    exact (hq.sets s).2.trans (h.ways s)

variable {tags : Nat → IICTag} {x : IICTag} {f : IICTag → IICTag}

def Alike (t t' : IIC) : Prop :=
  t'.geom = t.geom ∧ t'.freelist = t.freelist ∧ t'.sets = t.sets ∧ t'.tagStore = t.tagStore

theorem Alike.quiet (h : t.Alike t') : t.Quiet t' := by
  obtain ⟨hgeom, hfree, hsets, htags⟩ := h
  refine ⟨hgeom, hfree, fun s => ?_, ?_⟩
  · rw [hsets]
    exact ⟨rfl, .refl _⟩
  · rw [htags]
    exact .refl ..

theorem Alike.trans (h : t.Alike t') (h' : t'.Alike u) : t.Alike u :=
  ⟨h'.1.trans h.1, h'.2.1.trans h.2.1, h'.2.2.1.trans h.2.2.1, h'.2.2.2.trans h.2.2.2⟩

theorem sets_modifySet : (t.modifySet set g).sets = update t.sets set (g (t.sets set)) := rfl

theorem tagStore_modifyTag :
    (t.modifyTag i f).tagStore = update t.tagStore i (f (t.tagStore i)) := rfl

theorem quiet_tagStore (h : QuietTags t.geom.primaryBound t.tagStore tags) (repl : GenRepl) :
    t.Quiet { t with repl := repl, tagStore := tags } :=
  ⟨rfl, rfl, fun _ => ⟨rfl, .refl _⟩, h⟩

theorem quietTags_update (htag : x.tag = (tags i).tag)
    (hi : bound ≤ i → x.chainPtr = (tags i).chainPtr ∧ (x.isValid = true → (tags i).isValid = true)) :
    QuietTags bound tags (update tags i x) := by
  refine ⟨fun h j => ?_, fun j hj => ?_⟩
  · rw [update_apply]
    split
    · subst i
      rw [htag]
      exact h j
    · exact h j
  · rw [update_apply]
    split
    · subst i
      exact hi hj
    · exact ⟨rfl, id⟩

theorem quiet_modifyTag (htag : (f (t.tagStore i)).tag = (t.tagStore i).tag)
    (hi : t.geom.primaryBound ≤ i → (f (t.tagStore i)).chainPtr = (t.tagStore i).chainPtr ∧
      ((f (t.tagStore i)).isValid = true → (t.tagStore i).isValid = true)) :
    t.Quiet (t.modifyTag i f) :=
  quiet_tagStore (quietTags_update htag hi) t.repl

theorem clearRef_quiet (bound i : Nat) (tags : Nat → IICTag) :
    QuietTags bound tags (clearRef i tags).2 :=
  quietTags_update rfl fun _ => ⟨rfl, id⟩

theorem getRepl_quiet (bound : Nat) (h : GenRepl.getRepl clearRef r tags = .ok (r', tags', i)) :
    QuietTags bound tags tags' :=
  GenRepl.getRepl_keeps (P := QuietTags bound tags)
    (fun _ _ hs => hs.trans (clearRef_quiet ..)) h (.refl ..)

theorem doAdvance_quiet (bound : Nat) (h : GenRepl.doAdvance clearRef r tags = .ok (r', tags')) :
    QuietTags bound tags tags' :=
  GenRepl.doAdvance_keeps (P := QuietTags bound tags)
    (fun _ _ hs => hs.trans (clearRef_quiet ..)) h (.refl ..)

theorem foldlM_alike {g : IIC → Nat → Chk IIC} (hg : ∀ t d t', g t d = .ok t' → t.Alike t')
    {ds : List Nat} (h : ds.foldlM g t = .ok t') : t.Alike t' := by
  induction ds generalizing t with
  | nil =>
    cases h
    exact ⟨rfl, rfl, rfl, rfl⟩
  | cons d ds ih =>
    rw [foldlM_cons] at h
    obtain ⟨u, hu, h⟩ := bind_eq_ok.mp h
    exact (hg _ _ _ hu).trans (ih h)

theorem dropData_alike (h : t.dropData d = .ok t') : t.Alike t' := by
  unfold dropData at h
  dsimp only at h
  split at h
  · replace h := of_guard h
    cases h
    exact ⟨rfl, rfl, rfl, rfl⟩
  · cases h
    exact ⟨rfl, rfl, rfl, rfl⟩

theorem addData_alike (ds : List Nat) : t.Alike (ds.foldl addData t) := by
  induction ds generalizing t with
  | nil => exact ⟨rfl, rfl, rfl, rfl⟩
  | cons d ds ih => exact ih (t := t.addData d)

theorem modifySet_quiet (hl : l.Perm (t.sets set).tags) :
    t.Quiet (t.modifySet set fun s => { s with tags := l }) := by
  refine ⟨rfl, rfl, fun s => ?_, .refl _ _⟩
  rw [sets_modifySet, update_apply]
  split
  · subst set
    exact ⟨rfl, hl⟩
  · exact ⟨rfl, .refl _⟩

theorem setMoveToHead_quiet (h : t.setMoveToHead set i = .ok t') :
    t.Quiet t' ∧ (t'.sets set).tags.head? = some i ∧ t'.tagStore = t.tagStore := by
  obtain ⟨l, hl, h⟩ := bind_eq_ok.mp h
  cases h
  obtain ⟨hhead, hperm⟩ := CacheSet.moveToHead_perm hl
  refine ⟨modifySet_quiet hperm, ?_, rfl⟩
  rw [sets_modifySet, update_self]
  exact hhead

theorem setMoveToTail_quiet (h : t.setMoveToTail set i = .ok t') : t.Quiet t' := by
  obtain ⟨l, hl, h⟩ := bind_eq_ok.mp h
  cases h
  exact modifySet_quiet (CacheSet.moveToTail_perm hl)

def swapTags (tags : Nat → IICTag) (i j : Nat) : Nat → IICTag :=
  update (update tags i ((tags i).assign (tags j))) j ((tags j).assign (tags i))

theorem tagSwap_spec (h : t.tagSwap i j = .ok t') :
    t'.geom = t.geom ∧ t'.freelist = t.freelist ∧ t'.sets = t.sets ∧
      t'.tagStore = swapTags t.tagStore i j := by
  obtain ⟨r1, -, h⟩ := bind_eq_ok.mp h
  obtain ⟨r2, -, h⟩ := bind_eq_ok.mp h
  cases h
  exact ⟨rfl, rfl, rfl, rfl⟩

theorem swapTags_right (tags : Nat → IICTag) (i j : Nat) :
    swapTags tags i j j = (tags j).assign (tags i) := update_self ..

theorem swapTags_left (h : i ≠ j) : swapTags tags i j i = (tags i).assign (tags j) := by
  rw [swapTags, update_of_ne h, update_self]

theorem swapTags_other (hi : k ≠ i) (hj : k ≠ j) : swapTags tags i j k = tags k := by
  rw [swapTags, update_of_ne hj, update_of_ne hi]

theorem swapTags_tag (h : ∀ k, (tags k).tag = 0) (k : Nat) : (swapTags tags i j k).tag = 0 := by
  by_cases hj : k = j
  · subst hj
    rw [swapTags_right]
    exact h i
  · by_cases hi : k = i
    · subst hi
      rw [swapTags_left hj]
      exact h j
    · rw [swapTags_other hi hj]
      exact h k

theorem secondaryChain_isTag (h : t.secondaryChain tag n p depth = .ok (some i, d)) :
    t.isTag tag i = true := by
  induction n generalizing p depth with
  | zero => cases h
  | succ n ih =>
    rw [secondaryChain] at h
    split at h
    · cases h
    · split at h
      · cases h
        assumption
      · exact ih h

theorem promote_quiet (h : t.Rep L) (hs : set < t.geom.hashSets)
    (hp : t.promote set tag = .ok (t', r)) : t.Quiet t' := by
  unfold promote at hp
  split at hp
  · cases hp
    exact .refl t
  · split at hp
    · cases hp
      exact .refl t
    · obtain ⟨⟨found, depth⟩, hchain, hp⟩ := bind_eq_ok.mp hp
      cases found with
      | none =>
        cases hp
        exact .refl t
      | some i =>
        obtain ⟨last, hlast, hp⟩ := bind_eq_ok.mp hp
        obtain ⟨u, hswap, hp⟩ := bind_eq_ok.mp hp
        obtain ⟨j, -, hp⟩ := bind_eq_ok.mp hp
        cases hp
        obtain ⟨hgeom, hfree, hsets, htags⟩ := tagSwap_spec hswap
        have hlast := h.way_lt hs (mem_of_getElem? (need_eq_ok.mp hlast))
        have hvalid : (t.tagStore i).isValid = true := by
          have := secondaryChain_isTag hchain
          simp only [isTag, Bool.and_eq_true] at this
          exact this.2
        refine ⟨hgeom, hfree, fun s => ?_, ?_⟩
        · rw [hsets]
          exact ⟨rfl, .refl _⟩
        rw [htags]
        refine ⟨fun h0 => swapTags_tag fun k => ?_, fun k hk => ?_⟩
        · exact (quiet_modifyTag rfl (fun hle => absurd hlast (not_lt.mpr hle))).tags.1 h0 k
        · have hne : k ≠ last := by
            rintro rfl
            exact absurd hlast (not_lt.mpr hk)
          by_cases hki : k = i
          · subst hki
            rw [swapTags_left hne]
            simp only [modifyTag, IICTag.assign_chainPtr, IICTag.assign_isValid, update_self]
            exact ⟨trivial, fun _ => hvalid⟩
          · rw [swapTags_other hki hne, tagStore_modifyTag, update_of_ne hne]
            exact ⟨rfl, id⟩

theorem accessBlock_quiet (h : t.Rep L) (ha : t.accessBlock now addr = .ok (t', r)) :
    t.Quiet t' := by
  obtain ⟨⟨u, found, lookups⟩, hp, ha⟩ := bind_eq_ok.mp ha
  have hq := promote_quiet h (t.geom.hash_lt addr) hp
  cases found with
  | none =>
    cases ha
    exact hq
  | some i =>
    obtain ⟨v, hv, ha⟩ := bind_eq_ok.mp ha
    cases ha
    exact (hq.trans (setMoveToHead_quiet hv).1).trans (quiet_modifyTag rfl fun _ => ⟨rfl, id⟩)

def SameTag (t t' : IIC) (j : Nat) : Prop :=
  (t'.tagStore j).chainPtr = (t.tagStore j).chainPtr ∧
    (t'.tagStore j).isValid = (t.tagStore j).isValid

section

variable (hgeom : t'.geom = t.geom)
include hgeom

theorem ptr_congr (n : Nat) : t'.ptr n = t.ptr n := by
  rw [ptr, ptr, hgeom]

theorem next_congr (h : (t'.tagStore i).chainPtr = (t.tagStore j).chainPtr) :
    t'.next i = t.next j := by
  rw [next, next, h, ptr_congr hgeom]

theorem Rep.ptr_cell (h : t.Rep L) (hi : i ∈ L k) : t'.ptr i = some i :=
  ptr_eq_some.mpr ⟨rfl, hgeom ▸ (h.bounds hi).2.ne⟩

theorem Rep.moved (h : t.Rep L) (hk : k ≠ d) (hl : (L k).Perm (i :: l))
    (hchains : Chains t'.next t'.top (Chains.moved L k l d i))
    (hv : d = none → (t'.tagStore i).isValid = false)
    (hsame : ∀ j ∈ L none, j ≠ i → (t'.tagStore j).isValid = (t.tagStore j).isValid)
    (hways : ∀ s, (t'.sets s).tags = (t.sets s).tags) (htag : ∀ j, (t'.tagStore j).tag = 0) :
    ∃ L', t'.Rep L' := by
  refine ⟨_, hchains, fun j => ?_, fun j hj => ?_, fun s => ?_, htag⟩
  · rw [h.chains.exists_mem_moved hk hl, hgeom]
    exact h.cells j
  · rcases (h.chains.mem_moved hk hl).mp hj with ⟨rfl, hd⟩ | ⟨hne, hj⟩
    · exact hv hd.symm
    · rw [hsame j hj hne]
      exact h.free j hj
  · rw [hways, hgeom]
    exact h.ways s

def head (t : IIC) : Option Nat → Nat
  | none => t.freelist
  | some s => (t.sets s).chainPtr

theorem top_eq (hk : t'.head k = n) : t'.top k = t.ptr n := by
  subst hk
  cases k <;> exact ptr_congr hgeom _

theorem Rep.moveHead (h : t.Rep L) (hk : k ≠ d) (hnone : k = none ∨ d = none) (hl : L k = i :: l)
    (hlink : (t'.tagStore i).chainPtr = t.head d) (hd : t'.head d = i)
    (hrest : t'.head k = (t.tagStore i).chainPtr)
    (hsets : ∀ s, some s ≠ k → some s ≠ d → (t'.sets s).chainPtr = (t.sets s).chainPtr)
    (hways : ∀ s, (t'.sets s).tags = (t.sets s).tags)
    (hv : d = none → (t'.tagStore i).isValid = false)
    (hsame : ∀ j, t.geom.primaryBound ≤ j → j ≠ i → t.SameTag t' j)
    (htag : ∀ j, (t'.tagStore j).tag = 0) : ∃ L', t'.Rep L' := by
  refine h.moved hgeom hk (.of_eq hl)
    (h.chains.moveHead hk hl ?_ ?_ (top_eq hgeom hrest) (fun j hj hj' => ?_)
    fun _ j hj hne => next_congr hgeom (hsame j (h.bounds hj).1 hne).1) hv
    (fun j hj hne => (hsame j (h.bounds hj).1 hne).2) hways htag
  · rw [next, hlink, ptr_congr hgeom, top_eq rfl rfl]
  · rw [top_eq hgeom hd, h.ptr_cell rfl (hl ▸ mem_cons_self)]
  · cases j with
    | none => exact absurd hnone (not_or.mpr ⟨hj.symm, hj'.symm⟩)
    | some s => rw [top_eq (k := some s) hgeom (hsets s hj hj'), top]

theorem Rep.free_next (h : t.Rep L) (hl : L (some set) = l1 ++ c :: i :: l2)
    (hfreelist : t'.freelist = i) (hlink : (t'.tagStore i).chainPtr = t.freelist)
    (hc : (t'.tagStore c).chainPtr = (t.tagStore i).chainPtr) (hsets : t'.sets = t.sets)
    (hv : (t'.tagStore i).isValid = false)
    (hsame : ∀ j, t.geom.primaryBound ≤ j → j ≠ i → j ≠ c → t.SameTag t' j)
    (htag : ∀ j, (t'.tagStore j).tag = 0) : ∃ L', t'.Rep L' := by
  have hi : i ∈ L (some set) ∧ c ∈ L (some set) := by simp [hl]
  have hperm : (L (some set)).Perm (i :: (l1 ++ c :: l2)) := by
    rw [hl]
    exact (List.Perm.append_left l1 (.swap ..)).trans perm_middle
  refine h.moved (k := some set) (d := none) hgeom nofun hperm
    (h.chains.moveAfter nofun hl (next_congr hgeom hc) ?_ ?_
    (fun k hk => ?_) fun k j hj hne hne' =>
    next_congr hgeom (hsame j (h.bounds hj).1 hne hne').1) (fun _ => hv)
    (fun j hj hne => (hsame j (h.bounds hj).1 hne ?_).2) (fun s => by rw [hsets]) htag
  · rw [next, hlink, ptr_congr hgeom, top]
  · rw [top, hfreelist, h.ptr_cell hgeom hi.1]
  · cases k with
    | none => exact absurd rfl hk
    | some s => rw [top, top, hsets, ptr_congr hgeom]
  · rintro rfl
    exact absurd (h.chains.disjoint hj hi.2) nofun

end

theorem Rep.cons_of_top (h : t.Rep L) (hk : t.top k = some i) : ∃ l, L k = i :: l := by
  have hlinked := h.chains.linked k
  rw [hk] at hlinked
  cases hL : L k with
  | nil =>
    rw [hL] at hlinked
    cases hlinked
  | cons j l =>
    rw [hL] at hlinked
    cases hlinked.1
    exact ⟨l, rfl⟩

theorem findBefore_spec (hl : Linked t.next (t.ptr p) l)
    (hb : t.findBefore i n p = .ok b) (hne : b ≠ t.geom.tagNull) :
    b ∈ l ∧ (t.tagStore b).chainPtr = i := by
  induction n generalizing p l with
  | zero => cases hb
  | succ n ih =>
    rw [findBefore] at hb
    cases l with
    | nil =>
      rw [Linked.nil_iff, ptr_eq_none] at hl
      rw [if_neg (fun hc => hc.1 hl)] at hb
      cases hb
      exact absurd hl hne
    | cons c l =>
      obtain ⟨hp, hl⟩ := hl
      obtain ⟨rfl, hnull⟩ := ptr_eq_some.mp hp
      split at hb
      · obtain ⟨hmem, hbi⟩ := ih hl hb
        exact ⟨mem_cons_of_mem _ hmem, hbi⟩
      · rename_i hstop
        cases hb
        exact ⟨mem_cons_self, by_contra fun hbi => hstop ⟨hnull, hbi⟩⟩

theorem tagStore_pushFree : (t.pushFree i).tagStore =
    update t.tagStore i { t.tagStore i with chainPtr := t.freelist } := rfl

theorem sets_pushFree : (t.pushFree i).sets = t.sets := rfl

theorem tagStore_modifySet : (t.modifySet set g).tagStore = t.tagStore := rfl

theorem untagged_update (h : ∀ j, (tags j).tag = 0) (hx : x.tag = 0) (j : Nat) :
    (update tags i x j).tag = 0 := by
  rw [update_apply]
  split
  · exact hx
  · exact h j

theorem tags_modifySet_chainPtr (t : IIC) (set p s : Nat) :
    ((t.modifySet set fun x => { x with chainPtr := p }).sets s).tags = (t.sets s).tags := by
  rw [sets_modifySet]
  by_cases hs : s = set
  · subst hs
    rw [update_self]
  · rw [update_of_ne hs]

theorem chainPtr_modifySet (t : IIC) (set p s : Nat) :
    ((t.modifySet set fun x => { x with chainPtr := p }).sets s).chainPtr =
      if s = set then p else (t.sets s).chainPtr := by
  rw [sets_modifySet]
  split
  · rename_i hs
    subst hs
    rw [update_self]
  · rename_i hs
    rw [update_of_ne hs]

section

variable (h : t.Rep L)
include h

section

variable (hv : (t.tagStore i).isValid = false)
include hv

theorem cutChain_rep (hnull : i < t.geom.tagNull) (hlast : (t.tagStore i).chainPtr = t.geom.tagNull)
    (hc : t.cutChain i = .ok t') : (∃ L', (t'.pushFree i).Rep L') ∧ t'.geom = t.geom := by
  unfold cutChain at hc
  dsimp only at hc
  generalize t.geom.hash (wrap64 ((t.tagStore i).tag <<< t.geom.tagShift)) = s at hc
  split at hc
  · rename_i hfirst
    cases hc
    obtain ⟨l, hl⟩ := h.cons_of_top (k := some s) (ptr_eq_some.mpr ⟨hfirst, hnull.ne⟩)
    refine ⟨h.moveHead (t := t) (k := some s) (d := none) rfl nofun (.inr rfl) hl ?_ rfl ?_
      (fun s' hs _ => ?_) (tags_modifySet_chainPtr t s _)
      (fun _ => ?_) (fun j _ hj => ?_) (untagged_update h.untagged (h.untagged i)), rfl⟩
    · rw [tagStore_pushFree, update_self]
      rfl
    · rw [head, sets_pushFree, chainPtr_modifySet, if_pos rfl, hlast]
    · rw [sets_pushFree, chainPtr_modifySet, if_neg fun heq => hs (congrArg some heq)]
    · rw [tagStore_pushFree, update_self]
      exact hv
    · rw [SameTag, tagStore_pushFree, update_of_ne hj]
      exact ⟨rfl, rfl⟩
  · obtain ⟨b, hb, hc⟩ := bind_eq_ok.mp hc
    obtain ⟨_, hne, hc⟩ := bind_eq_ok.mp hc
    cases hc
    have hne := bne_iff_ne.mp (ensure_eq_ok.mp hne)
    obtain ⟨hmem, hbi⟩ := findBefore_spec (h.chains.linked (some s)) hb hne
    obtain ⟨l1, l2, hl⟩ := (h.chains.linked (some s)).split_next hmem
      (ptr_eq_some.mpr ⟨hbi, hnull.ne⟩)
    have hbne : b ≠ i := by
      rintro rfl
      exact hnull.ne (hbi.symm.trans hlast)
    have htag := untagged_update (i := b) (x := { t.tagStore b with chainPtr := t.geom.tagNull })
      h.untagged (h.untagged b)
    refine ⟨h.free_next (t := t) rfl hl rfl ?_ ?_ rfl ?_ (fun j _ hj hjb => ?_)
      (untagged_update htag (htag i)), rfl⟩
    · rw [tagStore_pushFree, update_self]
      rfl
    · rw [tagStore_pushFree, update_of_ne hbne, tagStore_modifyTag, update_self, hlast]
    · rw [tagStore_pushFree, update_self, tagStore_modifyTag, update_of_ne hbne.symm]
      exact hv
    · rw [SameTag, tagStore_pushFree, update_of_ne hj, tagStore_modifyTag, update_of_ne hjb]
      exact ⟨rfl, rfl⟩

theorem freeSecondaryTag_rep (hi : t.geom.primaryBound ≤ i) (hfree : i ∉ L none)
    (hf : t.freeSecondaryTag i = .ok t') : (∃ L', t'.Rep L') ∧ t'.geom = t.geom := by
  obtain ⟨_, hnull, hf⟩ := bind_eq_ok.mp hf
  have hnull := of_decide_eq_true (ensure_eq_ok.mp hnull)
  split at hf
  · rename_i hlast
    obtain ⟨u, hu, hf⟩ := bind_eq_ok.mp hf
    cases hf
    exact cutChain_rep h hv hnull hlast hu
  · rename_i hnext
    obtain ⟨u, hu, hf⟩ := bind_eq_ok.mp hf
    cases hf
    obtain ⟨hgeom, hfreelist, hsets, htags⟩ := tagSwap_spec hu
    obtain ⟨k, hk⟩ := (h.cells i).mpr ⟨hi, hnull⟩
    cases k with
    | none => exact absurd hk hfree
    | some s =>
      obtain ⟨l1, l2, hl⟩ := (h.chains.linked (some s)).split_next hk
        (ptr_eq_some.mpr ⟨rfl, hnext⟩)
      have hne : i ≠ (t.tagStore i).chainPtr := by
        intro he
        have hn := h.chains.nodup (some s)
        rw [hl, ← he] at hn
        simpa using (nodup_append.mp hn).2.1
      have htag := swapTags_tag (i := (t.tagStore i).chainPtr) (j := i) h.untagged
      rw [← htags] at htag
      refine ⟨h.free_next hgeom hl rfl ?_ ?_ hsets ?_ (fun j _ hj hji => ?_)
        (untagged_update htag (htag _)), hgeom⟩
      · rw [tagStore_pushFree, update_self, hfreelist]
      · rw [tagStore_pushFree, update_of_ne hne, htags, swapTags_right]
        rfl
      · rw [tagStore_pushFree, update_self, htags, swapTags_left hne.symm]
        exact hv
      · rw [SameTag, tagStore_pushFree, update_of_ne hj, htags, swapTags_other hj hji]
        exact ⟨rfl, rfl⟩

theorem freePrimaryTag_rep (hi : i < t.geom.primaryBound) (hf : t.freePrimaryTag i = .ok t') :
    (∃ L', t'.Rep L') ∧ t'.geom = t.geom := by
  unfold freePrimaryTag at hf
  dsimp only at hf
  generalize t.geom.hash (wrap64 ((t.tagStore i).tag <<< t.geom.tagShift)) = s at hf
  split at hf
  · cases hf
    exact ⟨⟨L, h⟩, rfl⟩
  · rename_i hchain
    obtain ⟨u, hu, hf⟩ := bind_eq_ok.mp hf
    obtain ⟨hgeom, hfreelist, hsets, htags⟩ := tagSwap_spec hu
    have hq := setMoveToTail_quiet hf
    obtain ⟨l, hl⟩ := h.cons_of_top (k := some s) (ptr_eq_some.mpr ⟨rfl, hchain⟩)
    have hne : ∀ j, t.geom.primaryBound ≤ j → j ≠ i := by
      rintro j hj rfl
      exact absurd hi (not_lt.mpr hj)
    have hfirst := hne _ (h.bounds (hl ▸ mem_cons_self)).1
    have htag := swapTags_tag (i := i) (j := (t.sets s).chainPtr) h.untagged
    rw [← htags] at htag
    have hrep : ∃ L', ((u.pushFree (t.sets s).chainPtr).modifySet s fun x =>
        { x with chainPtr := ((u.pushFree (t.sets s).chainPtr).tagStore i).chainPtr }).Rep L' := by
      refine h.moveHead (k := some s) (d := none) hgeom nofun (.inr rfl) hl ?_ rfl ?_
        (fun s' hs _ => ?_) (fun s' => ?_) (fun _ => ?_)
        (fun j hj hji => ?_) (untagged_update htag (htag _))
      · rw [tagStore_modifySet, tagStore_pushFree, update_self, hfreelist, head]
      · rw [head, chainPtr_modifySet, if_pos rfl, tagStore_pushFree, update_of_ne hfirst.symm, htags,
          swapTags_left hfirst.symm, IICTag.assign_chainPtr]
      · rw [chainPtr_modifySet, if_neg fun heq => hs (congrArg some heq), sets_pushFree, hsets]
      · rw [tags_modifySet_chainPtr, sets_pushFree, hsets]
      · rw [tagStore_modifySet, tagStore_pushFree, update_self, htags, swapTags_right]
        exact hv
      · rw [SameTag, tagStore_modifySet, tagStore_pushFree, update_of_ne hji, htags,
          swapTags_other (hne j hj) hji]
        exact ⟨rfl, rfl⟩
    obtain ⟨L', hL'⟩ := hrep
    exact ⟨⟨L', hL'.quiet hq⟩, hq.geom.trans hgeom⟩

end

theorem freeTag_rep (hv : (t.tagStore i).isValid = true)
    (hf : t.freeTag i = .ok t') : (∃ L', t'.Rep L') ∧ t'.geom = t.geom := by
  have hfree : i ∉ L none := fun hi => by
    rw [h.free i hi] at hv
    cases hv
  have hq : t.Quiet (t.modifyTag i IICTag.clear) := quiet_modifyTag rfl fun _ => ⟨rfl, fun _ => hv⟩
  have hclear : ((t.modifyTag i IICTag.clear).tagStore i).isValid = false := by
    rw [tagStore_modifyTag, update_self]
    rfl
  unfold freeTag at hf
  dsimp only at hf
  generalize t.modifyTag i IICTag.clear = u at hq hclear hf
  rw [← hq.geom]
  split at hf
  · exact freeSecondaryTag_rep (h.quiet hq) hclear ‹_› hfree hf
  · exact freePrimaryTag_rep (h.quiet hq) hclear (Nat.lt_of_not_le ‹_›) hf

theorem freeReplacementBlock_rep
    (hf : t.freeReplacementBlock wb = .ok (t', wb')) : (∃ L', t'.Rep L') ∧ t'.geom = t.geom := by
  obtain ⟨⟨repl, tags, i⟩, hrepl, hf⟩ := bind_eq_ok.mp hf
  obtain ⟨_, hvalid, hf⟩ := bind_eq_ok.mp hf
  obtain ⟨u, hdrop, hf⟩ := bind_eq_ok.mp hf
  obtain ⟨v, hfree, hf⟩ := bind_eq_ok.mp hf
  cases hf
  have hvalid := ensure_eq_ok.mp hvalid
  have hq := (quiet_tagStore (getRepl_quiet t.geom.primaryBound hrepl) repl).trans
    (quiet_modifyTag (i := i) (f := fun x => { x with refCount := 0 }) rfl fun _ => ⟨rfl, id⟩)
  have ha := foldlM_alike (fun _ _ _ h => dropData_alike (of_guard h)) hdrop
  obtain ⟨hrep, hgeom⟩ := freeTag_rep (h.quiet (hq.trans ha.quiet)) (by
    rw [ha.2.2.2, tagStore_modifyTag, update_self]
    exact hvalid) hfree
  exact ⟨hrep, hgeom.trans (hq.trans ha.quiet).geom⟩

theorem freeUntil_rep (hf : freeUntil enough n t wb = .ok (t', wb')) :
    (∃ L', t'.Rep L') ∧ t'.geom = t.geom ∧ enough t' = true := by
  induction n generalizing t L wb with
  | zero => cases hf
  | succ n ih =>
    rw [freeUntil] at hf
    split at hf
    · cases hf
      exact ⟨⟨L, h⟩, rfl, ‹_›⟩
    · obtain ⟨⟨u, wb1⟩, hu, hf⟩ := bind_eq_ok.mp hf
      obtain ⟨⟨L', h'⟩, hgeom⟩ := freeReplacementBlock_rep h hu
      obtain ⟨hrep, hgeom', hen⟩ := ih h' hf
      exact ⟨hrep, hgeom'.trans hgeom, hen⟩

theorem invalidate_rep (hv : (t.tagStore i).isValid = true)
    (hi : t.invalidate i = .ok t') : (∃ L', t'.Rep L') ∧ t'.geom = t.geom := by
  obtain ⟨u, hdrop, hi⟩ := bind_eq_ok.mp hi
  obtain ⟨repl, -, hi⟩ := bind_eq_ok.mp hi
  have hu := foldlM_alike (fun _ _ _ => dropData_alike) hdrop
  have ha : t.Alike { u with repl := repl } := hu
  obtain ⟨hrep, hgeom⟩ := freeTag_rep (h.quiet ha.quiet) (by rw [ha.2.2.2]; exact hv) hi
  exact ⟨hrep, hgeom.trans ha.1⟩

theorem getFreeDataBlocks_rep (hf : getFreeDataBlocks n t wb = .ok (t', wb', ds)) :
    (∃ L', t'.Rep L') ∧ t'.geom = t.geom := by
  induction n generalizing t L wb ds with
  | zero =>
    cases hf
    exact ⟨⟨L, h⟩, rfl⟩
  | succ n ih =>
    obtain ⟨⟨u, wb1, d⟩, hu, hf⟩ := bind_eq_ok.mp hf
    replace hf := of_guard hf
    obtain ⟨⟨v, wb2, ds'⟩, hv, hf⟩ := bind_eq_ok.mp hf
    cases hf
    obtain ⟨⟨w, wb3⟩, hw, hu⟩ := bind_eq_ok.mp hu
    obtain ⟨d', -, hu⟩ := bind_eq_ok.mp hu
    cases hu
    obtain ⟨⟨L', h'⟩, hgeom, -⟩ := freeUntil_rep h hw
    have ha : w.Alike { w with blkFreelist := w.blkFreelist.tail } := ⟨rfl, rfl, rfl, rfl⟩
    obtain ⟨hrep, hgeom'⟩ := ih (h'.quiet ha.quiet) hv
    exact ⟨hrep, hgeom'.trans hgeom⟩

theorem getFreeTag_rep (hs : set < t.geom.hashSets) (hf : t.getFreeTag set wb = .ok (t', wb', i)) :
    (∃ L', t'.Rep L') ∧ t'.geom = t.geom ∧ (t'.tagStore i).isValid = false := by
  unfold getFreeTag at hf
  split at hf
  · rename_i hfind
    cases hf
    have hp := List.find?_some hfind
    exact ⟨⟨L, h⟩, rfl, by simpa using hp⟩
  · obtain ⟨⟨u, wb1⟩, hu, hf⟩ := bind_eq_ok.mp hf
    obtain ⟨⟨L', h'⟩, hgeom, hen⟩ := freeUntil_rep h hu
    have hnull : u.freelist ≠ u.geom.tagNull := by simpa using hen
    obtain ⟨last, hlast, hf⟩ := bind_eq_ok.mp hf
    obtain ⟨v, hv, hf⟩ := bind_eq_ok.mp hf
    cases hf
    obtain ⟨hgeom', hfree', hsets', htags'⟩ := tagSwap_spec hv
    obtain ⟨l, hl⟩ := h'.cons_of_top (k := none) (ptr_eq_some.mpr ⟨rfl, hnull⟩)
    have hmem : u.freelist ∈ L' none := hl ▸ mem_cons_self
    have hlast := h'.way_lt (hgeom ▸ hs) (mem_of_getElem? (need_eq_ok.mp hlast))
    have hne : ∀ j, u.geom.primaryBound ≤ j → j ≠ i := by
      rintro j hj rfl
      exact absurd hlast (not_lt.mpr hj)
    have hfirst := hne _ (h'.bounds hmem).1
    have htag := swapTags_tag (i := u.freelist) (j := i) h'.untagged
    rw [← htags'] at htag
    refine ⟨h'.moveHead (t := u) (k := none) (d := some set) hgeom' nofun (.inl rfl) hl ?_ ?_ hfree'
      (fun s _ hs => ?_) (fun s => ?_) nofun
      (fun j hj hji => ?_) (untagged_update htag (htag _)), hgeom'.trans hgeom, ?_⟩
    · rw [tagStore_modifySet, tagStore_modifyTag, update_self, hsets', head]
    · rw [head, chainPtr_modifySet, if_pos rfl]
    · rw [chainPtr_modifySet, if_neg fun heq => hs (congrArg some heq)]
      exact congrArg (fun x => (x s).chainPtr) hsets'
    · rw [tags_modifySet_chainPtr]
      exact congrArg (fun x => (x s).tags) hsets'
    · rw [SameTag, tagStore_modifySet, tagStore_modifyTag, update_of_ne hji, htags',
        swapTags_other hji (hne j hj)]
      exact ⟨rfl, rfl⟩
    · rw [tagStore_modifySet, tagStore_modifyTag, update_of_ne hfirst.symm, htags', swapTags_right]
      exact h'.free _ hmem

theorem findVictim_rep (hf : t.findVictim addr = .ok (t', i, wb)) :
    (∃ L', t'.Rep L') ∧ t'.geom = t.geom ∧ (t'.tagStore i).isValid = false ∧
      i < t.geom.primaryBound ∧ (t'.sets (t.geom.hash addr)).tags.head? = some i := by
  obtain ⟨⟨t1, wb1, ds⟩, h1, hf⟩ := bind_eq_ok.mp hf
  obtain ⟨⟨t2, wb2, i'⟩, h2, hf⟩ := bind_eq_ok.mp hf
  obtain ⟨_, hi, hf⟩ := bind_eq_ok.mp hf
  obtain ⟨t3, h3, hf⟩ := bind_eq_ok.mp hf
  obtain ⟨⟨repl, tags⟩, h4, hf⟩ := bind_eq_ok.mp hf
  cases hf
  obtain ⟨⟨L1, hL1⟩, hg1⟩ := getFreeDataBlocks_rep h h1
  obtain ⟨⟨L2, hL2⟩, hg2, hv2⟩ := getFreeTag_rep hL1 (hg1 ▸ t.geom.hash_lt addr) h2
  have ha := addData_alike (t := t2) ds
  have hlt := of_decide_eq_true (ensure_eq_ok.mp hi)
  obtain ⟨hq3, hhead, htags3⟩ := setMoveToHead_quiet h3
  have hadv := doAdvance_quiet 0 h4
  have hq : t2.Quiet _ := ((ha.quiet.trans (quiet_modifyTag rfl fun hle =>
    absurd hlt (not_lt.mpr hle))).trans hq3).trans
    ((quiet_tagStore (doAdvance_quiet _ h4) (repl.add i).1).trans
      (quiet_modifyTag (i := i) (f := fun x => { x with re := some (repl.add i).2 }) rfl
        fun _ => ⟨rfl, id⟩))
  refine ⟨⟨L2, hL2.quiet hq⟩, (hq.geom.trans hg2).trans hg1, ?_, ?_, hhead⟩
  · refine Bool.eq_false_of_not_eq_true fun hv => ?_
    rw [tagStore_modifyTag, update_self] at hv
    have hv := (hadv.2 i (zero_le _)).2 hv
    rw [htags3, tagStore_modifyTag, update_self, ha.2.2.2] at hv
    exact Bool.false_ne_true (hv2.symm.trans hv)
  · rw [ha.1, hg2, hg1] at hlt
    exact hlt

end

theorem linked_range' (hn : n + m = t.geom.tagNull)
    (hlink : ∀ i, n ≤ i → (t.tagStore i).chainPtr = i + 1) :
    Linked t.next (t.ptr n) (List.range' n m) := by
  induction m generalizing n with
  | zero => exact ptr_eq_none.mpr hn
  | succ m ih =>
    refine ⟨ptr_eq_some.mpr ⟨rfl, by omega⟩, ?_⟩
    rw [next, hlink n le_rfl]
    exact ih (by omega) fun i hi => hlink i (by omega)

theorem create_rep (hc : create p r = .ok t) : ∃ L, t.Rep L := by
  obtain ⟨g, -, hc⟩ := bind_eq_ok.mp hc
  cases hc
  have hsec := g.numSecondary_pos
  have hle : g.primaryBound ≤ g.tagNull := by
    have : 0 < g.numSecondary := hsec
    unfold IICGeometry.tagNull IICGeometry.numTags
    omega
  refine ⟨fun k => if k = none then List.range' g.primaryBound (g.tagNull - g.primaryBound) else [],
    ⟨fun k => ?_, fun k => ?_, fun {k k' i} hi hi' => ?_⟩, fun i => ?_, fun i hi => ?_,
    fun s => .refl _, fun i => ?_⟩
  · cases k with
    | none =>
      refine linked_range' (Nat.add_sub_cancel' hle) fun i hi => ?_
      exact congrArg IICTag.chainPtr (if_neg (Nat.not_lt.mpr hi))
    | some s => exact ptr_eq_none.mpr rfl
  · cases k with
    | none => exact nodup_range'
    | some s => exact .nil
  · cases k with
    | none =>
      cases k' with
      | none => rfl
      | some s => cases hi'
    | some s => cases hi
  · constructor
    · rintro ⟨k, hk⟩
      cases k with
      | none =>
        obtain ⟨h1, h2⟩ := mem_range'_1.mp hk
        exact ⟨h1, by rwa [Nat.add_sub_cancel' hle] at h2⟩
      | some s => cases hk
    · rintro ⟨h1, h2⟩
      exact ⟨none, mem_range'_1.mpr ⟨h1, by rwa [Nat.add_sub_cancel' hle]⟩⟩
  · dsimp only
    split <;> rfl
  · dsimp only
    split <;> rfl

theorem secondaryChain_none (hl : Linked t.next (t.ptr p) l) (hn : l.length < n)
    (hno : ∀ i ∈ l, t.isTag tag i = false) :
    t.secondaryChain tag n p d = .ok (none, d + l.length) := by
  induction l generalizing n p d with
  | nil =>
    cases n with
    | zero => cases hn
    | succ n =>
      rw [secondaryChain, if_pos (ptr_eq_none.mp hl)]
      rfl
  | cons i l ih =>
    cases n with
    | zero => cases hn
    | succ n =>
      obtain ⟨hp, hl⟩ := hl
      obtain ⟨rfl, hne⟩ := ptr_eq_some.mp hp
      rw [secondaryChain, if_neg hne, if_neg (by rw [hno _ mem_cons_self]; exact Bool.false_ne_true),
        ih hl (lt_of_succ_lt_succ hn) fun j hj => hno j (mem_cons_of_mem _ hj), length_cons]
      congr 2
      omega

theorem Rep.length_lt (h : t.Rep L) (k : Option Nat) : (L k).length < t.geom.numTags + 1 := by
  have hsub : (L k).Subperm (List.range t.geom.numTags) :=
    (h.chains.nodup k).subperm fun i hi => mem_range.mpr (h.bounds hi).2
  have hle := hsub.length_le
  rw [length_range] at hle
  exact lt_succ_of_le hle

theorem Rep.findBlock_none (h : t.Rep L) (hne : t.geom.extractTag addr ≠ 0) :
    t.findBlock addr = .ok none := by
  have hno : ∀ i, t.isTag (t.geom.extractTag addr) i = false := by
    intro i
    simp only [isTag, h.untagged i, Bool.and_eq_false_imp, beq_iff_eq]
    exact fun h0 => absurd h0.symm hne
  have hfind : t.findTag (t.geom.hash addr) (t.geom.extractTag addr) = none :=
    List.find?_eq_none.mpr fun i _ => by rw [hno i]; exact Bool.false_ne_true
  unfold findBlock
  simp only [hfind, secondaryChain_none (h.chains.linked (some (t.geom.hash addr)))
    (h.length_lt _) (fun i _ => hno i), ok_bind]
  rfl

theorem findBlock_head (hhead : (t.sets (t.geom.hash addr)).tags.head? = some i)
    (hi : t.isTag (t.geom.extractTag addr) i = true) : t.findBlock addr = .ok (some i) := by
  have hfind : t.findTag (t.geom.hash addr) (t.geom.extractTag addr) = some i := by
    unfold findTag
    cases htags : (t.sets (t.geom.hash addr)).tags with
    | nil => rw [htags] at hhead; cases hhead
    | cons j l =>
      rw [htags] at hhead
      cases hhead
      rw [List.find?_cons, hi]
  unfold findBlock
  simp only [hfind]
  rfl

end IIC

end Gem5
