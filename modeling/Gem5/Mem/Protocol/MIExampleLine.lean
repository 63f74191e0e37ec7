import Gem5.Lib.Handover
import Gem5.Mem.Protocol.MIExamplePhases

/-!
# One line under the MI example

The directory makes a cache the owner before the line gets there. So the owners of a line
form a chain: the first one has the only copy, each one has been told to pass it on to the
one behind it, and the last one is the owner that the directory knows. The chain has no
bound. What every event does to the chain and to the phases of the caches is all that the
protocol's properties are derived from.
-/

namespace Gem5

open Lib MIExample.Directory List Function

namespace MIExample

inductive DMAStage
  | idle
  | sent (type : DMARequestType)
  | serving (type : DMARequestType)
  | answered (type : DMARequestType)
  deriving DecidableEq

def DMAStage.type : DMAStage → Option DMARequestType
  | .idle => none
  | .sent type | .serving type | .answered type => some type

inductive Between : DMAStage → List DMARequestMsg → List DMAResponseMsg → Prop
  | idle : Between .idle [] []
  | sent {type : DMARequestType} {write : Write} : Between (.sent type) [⟨type, write⟩] []
  | data {value : DataBlock} : Between (.answered .READ) [] [.DATA value]
  | ack : Between (.answered .WRITE) [] [.ACK]

/-- The directory of a line with a chain of owners, of which the only copy is `b`. -/
inductive DirIn (b : DataBlock) : List Nat → DMAStage → Directory → Prop
  | I {stage q r} (h : Between stage q r) : DirIn b [] stage ⟨⟨.I, b, ∅, ∅⟩, none, [], q, r⟩
  | IM {stage q r} {i : Nat} {d : DataBlock} (h : Between stage q r) :
      DirIn b [i] stage ⟨⟨.IM, d, ∅, {i}⟩, none, [⟨.MEMORY_READ, some i, b⟩], q, r⟩
  | M {stage q r} {chain : List Nat} {i : Nat} {d : DataBlock} (h : Between stage q r)
      (hlast : chain.getLast? = some i) :
      DirIn b chain stage ⟨⟨.M, d, ∅, {i}⟩, none, [], q, r⟩
  | M_DRD {chain : List Nat} {i : Nat} {d : DataBlock} {w : Write} (hlast : chain.getLast? = some i) :
      DirIn b chain (.serving .READ) ⟨⟨.M_DRD, d, ∅, {i}⟩, some ⟨.M_DRD, w⟩, [], [], []⟩
  | M_DWR {chain : List Nat} {i : Nat} {d : DataBlock} {w : Write} (hlast : chain.getLast? = some i) :
      DirIn b chain (.serving .WRITE) ⟨⟨.M_DWR, d, ∅, {i}⟩, some ⟨.M_DWR, w⟩, [], [], []⟩
  | M_DRDI {stage q r} {i : Nat} {d : DataBlock} {w : Write} (h : Between stage q r) :
      DirIn b [] stage ⟨⟨.M_DRDI, b, ∅, ∅⟩, some ⟨.M_DRDI, w⟩, [⟨.MEMORY_WB, some i, d⟩], q, r⟩
  | M_DWRI {i : Nat} {d : DataBlock} {w : Write} :
      DirIn b [] (.serving .WRITE) ⟨⟨.M_DWRI, b, ∅, ∅⟩, some ⟨.M_DWRI, w⟩,
        [⟨.MEMORY_WB, some i, d⟩], [], []⟩
  | MI {stage q r} {i : Nat} {d d' : DataBlock} (h : Between stage q r) :
      DirIn b [] stage ⟨⟨.MI, b, ∅, ∅⟩, some ⟨.MI, ⟨d', 0, 0⟩⟩, [⟨.MEMORY_WB, some i, d⟩], q, r⟩
  | ID {w : Write} :
      DirIn b [] (.serving .READ) ⟨⟨.ID, b, ∅, ∅⟩, some ⟨.ID, w⟩, [⟨.MEMORY_READ, none, b⟩], [], []⟩
  | ID_W {d : DataBlock} {w : Write} :
      DirIn b [] (.serving .WRITE) ⟨⟨.ID_W, b, ∅, ∅⟩, some ⟨.ID_W, w⟩, [⟨.MEMORY_WB, none, d⟩], [], []⟩

structure Account where
  chain : List Nat := []
  phase : Nat → Phase := fun _ => .out
  inv : Nat → Bool := fun _ => false
  stage : DMAStage := .idle

def Account.set (g : Account) (i : Nat) (p : Phase) (inv : Bool) : Account :=
  { g with phase := update g.phase i p, inv := update g.inv i inv }

def pendingReads (responses : List DMAResponseMsg) : List DataBlock :=
  responses.filterMap fun
    | .DATA value => some value
    | .ACK => none

def Directory.flushes (d : Directory) (i : Nat) : Bool :=
  match d.memBuffer with
  | ⟨.MEMORY_WB, some j, _⟩ :: _ => j == i
  | _ => false

def Directory.roleOf (d : Directory) (chain : List Nat) (i : Nat) : Role :=
  if i ∈ chain then
    if chain.head? = some i ∧ d.entry.directoryState ≠ .IM then .holding else .waiting
  else if d.flushes i then .flushing
  else .outside

theorem Directory.roleOf_cons {d : Directory} {chain : List Nat} {i j : Nat} (h : i ≠ j) :
    d.roleOf (j :: chain) i = if i ∈ chain then .waiting else if d.flushes i then .flushing
      else .outside := by
  simp [roleOf, h, Ne.symm h]

def Directory.Invalidates (d : Directory) (chain : List Nat) (i : Nat) : Prop :=
  chain.getLast? = some i ∧ (d.entry.directoryState = .M_DRD ∨ d.entry.directoryState = .M_DWR)

namespace DirIn

theorem block (h : DirIn b chain stage d) (hchain : chain.head? = some i)
    (hstate : d.entry.directoryState ≠ .IM) :
    DirIn b' chain stage d := by
  cases h with
  | I | M_DRDI | M_DWRI | MI | ID | ID_W => simp at hchain
  | IM => exact absurd rfl hstate
  | M h hlast => exact .M h hlast
  | M_DRD hlast => exact .M_DRD hlast
  | M_DWR hlast => exact .M_DWR hlast

theorem not_flushes (h : DirIn b chain stage d) (hchain : chain ≠ []) : d.flushes i = false := by
  cases h with
  | I | M_DRDI | M_DWRI | MI | ID | ID_W => exact absurd rfl hchain
  | IM | M | M_DRD | M_DWR => rfl

theorem tail (h : DirIn b (i :: m :: rest) stage d) : DirIn b (m :: rest) stage d := by
  cases h with
  | M h hlast => exact .M h (getLast?_cons_cons ▸ hlast)
  | M_DRD hlast => exact .M_DRD (getLast?_cons_cons ▸ hlast)
  | M_DWR hlast => exact .M_DWR (getLast?_cons_cons ▸ hlast)

end DirIn

structure Line.Fits (l : Line) (g : Account) (b : DataBlock) : Prop where
  nodup : g.chain.Nodup
  dir : DirIn b g.chain g.stage l.dir
  nodes : ∀ i, InPhase b (g.phase i) (g.inv i) (successor g.chain i) (l.nodes i)
  role : ∀ i, (g.phase i).role = l.dir.roleOf g.chain i
  inv : ∀ i, g.inv i = true → g.phase i = .flushed ∨ g.phase i = .acked ∨ l.dir.Invalidates g.chain i
  refused : ∀ i, g.phase i = .refused → successor g.chain i ≠ none
  reads : l.dmaReads ++ pendingReads l.dir.dmaResponseFromDir = l.history.filterMap LineOp.dmaValue

namespace Line.Fits

variable {l : Line} {g : Account} {b b' : DataBlock} {i j m : Nat} {s : L1Step} {p : Phase}
  {inv : Bool} {d : Directory} {node : L1Node} {chain : List Nat} {stage : DMAStage}
  {ops : List LineOp}

theorem create (b : DataBlock) : (Line.create b).Fits {} b where
  nodup := nodup_nil
  dir := .I .idle
  nodes _ := InPhase.empty
  role _ := rfl
  inv := nofun
  refused := nofun
  reads := rfl

variable (h : l.Fits g b)
include h

theorem mem_chain : i ∈ g.chain ↔ (g.phase i).role = .waiting ∨ (g.phase i).role = .holding := by
  rw [h.role, roleOf]
  split
  · split <;> simp_all
  · split <;> simp_all

theorem head_of_holding (hhold : (g.phase i).role = .holding) :
    g.chain.head? = some i ∧ l.dir.entry.directoryState ≠ .IM := by
  rw [h.role, roleOf] at hhold
  split at hhold
  · split at hhold
    · assumption
    · simp at hhold
  · split at hhold <;> simp at hhold

theorem successor_of_inv (hinv : g.inv i = true) : successor g.chain i = none := by
  rcases h.inv i hinv with hp | hp | ⟨hlast, -⟩
  · exact successor_of_notMem (by simp [h.mem_chain, hp, Phase.role])
  · exact successor_of_notMem (by simp [h.mem_chain, hp, Phase.role])
  · exact successor_of_getLast? h.nodup hlast

theorem role_of_inv (hinv : g.inv i = true) : (g.phase i).role ≠ .outside ∨ g.phase i = .acked := by
  rcases h.inv i hinv with hp | hp | ⟨hlast, -⟩
  · exact .inl (by simp [hp, Phase.role])
  · exact .inr hp
  · left
    rcases h.mem_chain.mp (mem_of_getLast? hlast) with hrole | hrole <;> simp [hrole]

theorem change (p : Phase) (inv : Bool) (chain : List Nat) (stage : DMAStage) (hnodup : chain.Nodup)
    (hdir : DirIn b' chain stage d)
    (hnode : InPhase b' p inv (successor chain i) node) (hrole : p.role = d.roleOf chain i)
    (hinv : inv = true → p = .flushed ∨ p = .acked ∨ d.Invalidates chain i)
    (hrefused : p = .refused → successor chain i ≠ none)
    (hblock : b' = b ∨ ∀ j, j ≠ i → (g.phase j).role ≠ .holding)
    (hsucc : ∀ j, j ≠ i → successor chain j = successor g.chain j)
    (hroles : ∀ j, j ≠ i → d.roleOf chain j = l.dir.roleOf g.chain j)
    (hinvs : ∀ j, j ≠ i → l.dir.Invalidates g.chain j → d.Invalidates chain j)
    (hreads : l.dmaReads ++ pendingReads d.dmaResponseFromDir =
      (l.history ++ ops).filterMap LineOp.dmaValue) :
    Line.Fits { l with nodes := update l.nodes i node, dir := d, history := l.history ++ ops }
      { g.set i p inv with chain, stage } b' := by
  refine ⟨hnodup, hdir, fun j => ?_, fun j => ?_, fun j hj => ?_, fun j hj => ?_, hreads⟩
  · rcases eq_or_ne j i with rfl | hne
    · simpa [Account.set] using hnode
    · simp only [Account.set, update_of_ne hne, hsucc j hne]
      rcases hblock with rfl | hblock
      · exact h.nodes j
      · exact (h.nodes j).block (hblock j hne)
  · rcases eq_or_ne j i with rfl | hne
    · simpa [Account.set] using hrole
    · simp only [Account.set, update_of_ne hne, hroles j hne]
      exact h.role j
  · rcases eq_or_ne j i with rfl | hne
    · simp only [Account.set, update_self] at hj ⊢
      exact hinv hj
    · simp only [Account.set, update_of_ne hne] at hj ⊢
      exact (h.inv j hj).imp_right fun h' => h'.imp_right (hinvs j hne)
  · rcases eq_or_ne j i with rfl | hne
    · simp only [Account.set, update_self] at hj
      exact hrefused hj
    · simp only [Account.set, update_of_ne hne] at hj
      rw [hsucc j hne]
      exact h.refused j hj

theorem stays (hs : InPhase.Stays b (g.phase i) (g.inv i) (successor g.chain i) s p inv) :
    (l.takeL1 i s).Fits (g.set i p inv) (latest b s.ops) := by
  have hl : l.takeL1 i s = { l with
      nodes := update l.nodes i s.node, dir := l.dir, history := l.history ++ s.ops } := by
    simp [Line.takeL1, hs.sent]
  have hheld : (g.phase i).role = .holding → ∀ j, j ≠ i → (g.phase j).role ≠ .holding := by
    intro hhold j hne hhold'
    exact hne (Option.some.inj ((h.head_of_holding hhold').1.symm.trans (h.head_of_holding hhold).1))
  have hblock : latest b s.ops = b ∨ (g.phase i).role = .holding :=
    hs.ops.imp_left fun hnil => by rw [hnil, latest_nil]
  rw [hl]
  refine h.change _ _ _ _ h.nodup ?_ hs.node (hs.role.trans (h.role i)) (fun hinv => ?_)
    (fun hp => h.refused i (hs.refused hp))
    (hblock.imp_right hheld) (fun _ _ => rfl) (fun _ _ => rfl) (fun _ _ => id)
      (by simp [hs.dma, h.reads])
  · rcases hblock with heq | hhold
    · rw [heq]; exact h.dir
    · exact h.dir.block (h.head_of_holding hhold).1 (h.head_of_holding hhold).2
  · obtain ⟨hold, hacked⟩ := hs.inv hinv
    rcases h.inv i hold with hflushed | hacked' | hlast
    · left
      have hrole := hs.role
      rw [hflushed] at hrole
      cases p <;> simp [Phase.role] at hrole ⊢
    · exact .inr (.inl (hacked hacked'))
    · exact .inr (.inr hlast)

theorem chain_eq (hhold : (g.phase i).role = .holding) (hnext : successor g.chain i = some m) :
    ∃ rest, g.chain = i :: m :: rest := by
  have hhead := (h.head_of_holding hhold).1
  cases hc : g.chain with
  | nil => simp [hc] at hhead
  | cons a rest =>
    rw [hc, head?_cons, Option.some.injEq] at hhead
    subst hhead
    rw [hc, successor_cons_self] at hnext
    cases rest with
    | nil => simp at hnext
    | cons m' rest =>
      cases hnext
      exact ⟨rest, rfl⟩

theorem passes (hs : InPhase.Passes b (g.phase i) m s p) (hnext : successor g.chain i = some m)
    (hinv : g.inv i = false) :
    (l.takeL1 i s).Fits
      { g with
        chain := g.chain.tail
        phase := update (update g.phase i p) m (.arriving (.cache i)) } b := by
  obtain ⟨rest, hchain⟩ := h.chain_eq hs.held hnext
  have hIM := (h.head_of_holding hs.held).2
  have hdir := h.dir
  rw [hchain] at hdir
  have hflush : ∀ j, l.dir.flushes j = false := fun j => hdir.not_flushes (cons_ne_nil _ _)
  obtain ⟨hi, hm, -⟩ : i ∉ m :: rest ∧ m ∉ rest ∧ rest.Nodup := by
    have hnd := h.nodup
    rwa [hchain, nodup_cons, nodup_cons] at hnd
  have him : i ≠ m := fun heq => hi (heq ▸ mem_cons_self)
  have hphase : g.phase m = .waiting := by
    have hwait := h.role m
    rw [roleOf, hchain, if_pos (by simp), if_neg (by simp [him])] at hwait
    cases hp : g.phase m <;> simp [hp, Phase.role] at hwait ⊢
  have htail : g.chain.tail = m :: rest := by rw [hchain]; rfl
  have hother : ∀ j, j ≠ i → j ≠ m →
      update (update g.phase i p) m (.arriving (.cache i)) j = g.phase j := by
    intro j hji hjm
    rw [update_of_ne hjm, update_of_ne hji]
  have hsucc : ∀ j, j ≠ i → successor g.chain.tail j = successor g.chain j := by
    intro j hji
    rw [htail, hchain, successor_cons_of_ne (Ne.symm hji)]
  refine ⟨h.nodup.tail, ?_, fun j => ?_, fun j => ?_, fun j hj => ?_, fun j hj => ?_, ?_⟩
  · dsimp only
    rw [htail]
    exact hdir.tail
  · dsimp only
    simp only [Line.takeL1, hs.sent, foldl_cons, foldl_nil, receiveData]
    rcases eq_or_ne j m with rfl | hjm
    · simp only [update_self, update_of_ne (Ne.symm him), hsucc j (Ne.symm him)]
      exact (hphase ▸ h.nodes j).receive _
    · rw [update_of_ne hjm, update_of_ne hjm]
      rcases eq_or_ne j i with rfl | hji
      · rw [update_self, update_self, hinv, htail, successor_of_notMem hi]
        exact hs.node
      · rw [update_of_ne hji, update_of_ne hji, hsucc j hji]
        exact h.nodes j
  · dsimp only
    rw [htail]
    rcases eq_or_ne j m with rfl | hjm
    · simp [Phase.role, roleOf, Line.takeL1, hIM]
    · rcases eq_or_ne j i with rfl | hji
      · rw [update_of_ne hjm, update_self, hs.role, roleOf, if_neg hi]
        simp [Line.takeL1, hflush]
      · have hmem : j ∈ m :: rest ↔ j ∈ rest := by simp [hjm]
        rw [hother j hji hjm, h.role j, hchain, roleOf_cons hji, roleOf_cons hjm,
          if_congr hmem rfl rfl]
        rfl
  · dsimp only at hj ⊢
    have hji : j ≠ i := by rintro rfl; simp [hinv] at hj
    have hlast : ∀ k, l.dir.Invalidates g.chain k → l.dir.Invalidates g.chain.tail k := by
      intro k hk
      rwa [Directory.Invalidates, htail, ← getLast?_cons_cons, ← hchain]
    rcases eq_or_ne j m with rfl | hjm
    · have hold := h.inv j hj
      simp only [hphase, reduceCtorEq, false_or] at hold
      exact .inr (.inr (hlast j hold))
    · rw [hother j hji hjm]
      exact (h.inv j hj).imp_right fun h' => h'.imp_right (hlast j)
  · dsimp only at hj ⊢
    rcases eq_or_ne j m with rfl | hjm
    · simp at hj
    · rcases eq_or_ne j i with rfl | hji
      · rw [update_of_ne hjm, update_self] at hj
        exact absurd hs.role (by simp [hj, Phase.role])
      · rw [hother j hji hjm] at hj
        rw [hsucc j hji]
        exact h.refused j hj
  · simp [Line.takeL1, hs.ops, h.reads]

end Line.Fits

def DirState.Recalls (state : DirState) : Prop :=
  state = .M_DRD ∨ state = .M_DWR ∨ state = .M_DRDI ∨ state = .M_DWRI

attribute [simp] DirState.Recalls

/-- While the line is recalled, there is nobody but its owner who could write it back. -/
structure Account.Quiet (g : Account) (state : DirState) : Prop where
  recalled : state.Recalls → g.chain.length ≤ 1 ∧ ∀ i, g.phase i ≠ .stale
  sent : state = .M_DRDI → ∀ type, g.stage ≠ .sent type

structure Line.Advance (useMap : Bool) (calm : Prop) (l : Line) (g : Account) (b : DataBlock)
    (l' : Line) : Prop where
  account : ∃ g' b', l'.Fits g' b' ∧ g'.stage.type = g.stage.type ∧
    (∃ ops, l'.history = l.history ++ ops ∧ (useMap = false → Consistent b ops ∧ b' = latest b ops)) ∧
    (calm → g.Quiet l.dir.entry.directoryState → g'.Quiet l'.dir.entry.directoryState)

namespace Line.Advance

variable {calm : Prop}

theorem refl (h : l.Fits g b) : Line.Advance useMap calm l g b l :=
  ⟨g, b, h, rfl, ⟨[], by simp, fun _ => ⟨trivial, rfl⟩⟩, fun _ hq => hq⟩

theorem stays (h : l.Fits g b)
    (hs : InPhase.Stays b (g.phase i) (g.inv i) (successor g.chain i) s p inv) :
    Line.Advance useMap calm l g b (l.takeL1 i s) := by
  refine ⟨_, _, h.stays hs, rfl, ⟨s.ops, rfl, fun _ => ⟨hs.reads, rfl⟩⟩,
    fun _ hq => ⟨fun hrecalls => ?_, hq.sent⟩⟩
  obtain ⟨hlen, hstale⟩ := hq.recalled hrecalls
  refine ⟨hlen, fun j => ?_⟩
  rcases eq_or_ne j i with rfl | hne
  · simpa [Account.set] using fun heq => hstale j (hs.stale heq)
  · simpa [Account.set, update_of_ne hne] using hstale j

theorem passes (h : l.Fits g b) (hs : InPhase.Passes b (g.phase i) m s p)
    (hnext : successor g.chain i = some m) (hinv : g.inv i = false) :
    Line.Advance useMap calm l g b (l.takeL1 i s) := by
  refine ⟨_, b, h.passes hs hnext hinv, rfl, ⟨s.ops, rfl, fun _ => by simp [hs.ops, Consistent]⟩,
    fun _ hq => ⟨fun hrecalls => ?_, hq.sent⟩⟩
  obtain ⟨rest, hchain⟩ := h.chain_eq hs.held hnext
  have hlen := (hq.recalled hrecalls).1
  simp [hchain] at hlen

end Line.Advance

namespace Line.Fits

variable {calm : Prop}

theorem meets_of_ok (hx : ∃ s, x = .ok s ∧ Line.Advance useMap calm l g b (l.takeL1 i s)) :
    Meets (Line.Advance useMap calm l g b) E (do let s ← x; return l.takeL1 i s) := by
  obtain ⟨s, rfl, hs⟩ := hx
  exact hs

theorem makeRequest (h : l.Fits g b) (request : CpuRequest) :
    Meets (Line.Advance useMap calm l g b) E (l.apply useMap (.makeRequest i request)) := by
  have hnode := (h.nodes i).makeRequest request
  have hl : { l with nodes := update l.nodes i ((l.nodes i).makeRequest request) } =
      l.takeL1 i { node := (l.nodes i).makeRequest request } := by
    simp [Line.takeL1]
  rw [Line.apply, hl]
  exact Line.Advance.stays h (.quiet hnode rfl (fun hinv => ⟨hinv, id⟩) id id)

theorem forward (h : l.Fits g b) (hne : l.Admits (.forward i)) :
    Meets (Line.Advance useMap calm l g b) E (l.apply useMap (.forward i)) := by
  have hnode := h.nodes i
  have hrefused := h.refused i
  refine meets_of_ok ?_
  cases hinv : g.inv i with
  | true =>
    have hnext := h.successor_of_inv hinv
    rw [hinv, hnext] at hnode
    obtain ⟨s, p, inv', hs, hstays⟩ :=
      hnode.forward_inv (i := i) (h.role_of_inv hinv) fun hp => hrefused hp hnext
    rw [← hinv, ← hnext] at hstays
    exact ⟨s, hs, .stays h hstays⟩
  | false =>
    cases hnext : successor g.chain i with
    | none =>
      rw [hinv, hnext] at hnode
      obtain ⟨s, p, hs, hstays⟩ := hnode.forward_reply (i := i) hne fun hp => hrefused hp hnext
      rw [← hinv, ← hnext] at hstays
      exact ⟨s, hs, .stays h hstays⟩
    | some m =>
      rw [hinv, hnext] at hnode
      rcases hnode.forward_getx (i := i) (h.mem_chain.mp (mem_of_successor hnext).1) with
        ⟨s, hs, hstays⟩ | ⟨s, p, hs, hpasses⟩
      · rw [← hinv, ← hnext] at hstays
        exact ⟨s, hs, .stays h hstays⟩
      · exact ⟨s, hs, .passes h hpasses hnext hinv⟩

end Line.Fits

end MIExample

end Gem5
