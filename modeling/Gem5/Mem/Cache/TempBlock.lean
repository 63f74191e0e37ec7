import Gem5.Mem.Cache.TagStores
import Gem5.Mem.Cache.TimingRun

/-!
# The temporary block

Between events the temporary block is invalid. That it is not taken for a block
of the tag store is asserted wherever a block is given up.
-/

namespace Gem5

open Lib MissPath

def Lenient (E : Fault → Prop) : Prop := ∀ e, e ≠ tempFault → E e

theorem Lenient.mild (hE : Lenient E) : Mild E := fun e _ => hE e

namespace CacheWorld

section

variable {σ : Type} [TagStore σ] {quiet : Prop} {w w' : CacheWorld σ} {e : CacheEvent}

def tempFill? (w : CacheWorld σ) : CacheEvent → Option (MSHRRef × Packet)
  | .response now pkt _ | .snoopResponse now pkt _ =>
    match Cache.mshrOf pkt with
    | .ok r => if w.cache.fillsTemp now r pkt then some (r, pkt) else none
    | .error _ => none
  | _ => none

/-- A response that fills the temporary block gives nothing up: it does not invalidate,
no snoop that does has been deferred, and no target takes the block away. -/
def KeepsTemp (w : CacheWorld σ) (e : CacheEvent) : Prop :=
  ∀ a ∈ w.tempFill? e, a.2.isInvalidate = false ∧ (w.cache.path.register a.1).postInvalidate = false ∧
    ∀ t ∈ w.cache.served a.1 a.2, t.givesUp w.cache.params.blkSize = false

instance (w : CacheWorld σ) (e : CacheEvent) : Decidable (w.KeepsTemp e) :=
  inferInstanceAs (Decidable (∀ a ∈ w.tempFill? e, _))

structure ClearsTemp (w : CacheWorld σ) (e : CacheEvent) (w' : CacheWorld σ) : Prop where
  valid : w.cache.store.tempBlock.isValid = false → w'.cache.store.tempBlock.isValid = false
  carries : ∀ r pkt, w.tempFill? e = some (r, pkt) →
    w.cache.Carries r pkt (Cache.blkAddr w'.cache.store.tags pkt.addr)
      (TagStore.extractBlkOffset w'.cache.store.tags) w'.cache

theorem tempFill?_answer (hresp : w.cache.Responds now r pkt w'.cache)
    (hfill : w.tempFill? e = if w.cache.fillsTemp now r pkt then some (r, pkt) else none) :
    w.ClearsTemp e w' := by
  cases hf : w.cache.fillsTemp now r pkt with
  | false =>
    rw [hf] at hfill
    exact ⟨fun h => by rwa [hresp.other hf], by simp [hfill]⟩
  | true =>
    rw [hf, if_pos rfl] at hfill
    refine ⟨fun _ => hresp.valid hf, fun r' pkt' h => ?_⟩
    cases hfill.symm.trans h
    exact hresp.carries hf

theorem KeepsTemp.answer (h : w.KeepsTemp e)
    (hfill : w.tempFill? e = if w.cache.fillsTemp now r pkt then some (r, pkt) else none) :
    w.cache.KeepsTemp now r pkt := by
  intro hf
  rw [hf, if_pos rfl] at hfill
  exact h _ (by rw [hfill]; rfl)

theorem clearsTemp_of_same (hsame : w.cache.SameTemp w'.cache) (hfill : w.tempFill? e = none) :
    w.ClearsTemp e w' :=
  ⟨fun h => by rwa [hsame], by simp [hfill]⟩

theorem apply_temp (hE : Lenient E) (hσ : TagStore.Behaves σ E quiet) (h : w.Sane) (ha : w.Admits e)
    (hk : w.KeepsTemp e) :
    Meets (w.ClearsTemp e) E (w.apply e) := by
  have hroom : ∀ ix, w.cache.path.Room E quiet ix := fun ix => .inl (hE _ (by simp [tempFault]))
  cases e with
  | request now pkt =>
    have haccess : Meets (fun a => w.cache.SameTemp a.1) E
        (w.cache.recvTimingReq now pkt fun _ => {}) :=
      .ite (fun _ => rfl) fun _ =>
        (Cache.timingAccess_meets hE.mild hσ h.path hroom ha.1).bind fun _ h => h.1
    exact haccess.bind fun _ h => clearsTemp_of_same h rfl
  | response now pkt replies =>
    obtain ⟨r, hmem, hr⟩ := ha
    have hfill : w.tempFill? (.response now pkt replies) =
        if w.cache.fillsTemp now r pkt then some (r, pkt) else none := by simp [tempFill?, hr]
    refine (Cache.handleResponse_meets hE.mild hσ h.path (fun r' hr' => ?_)
      (hroom .writeBuffer)).bind ?_
    · cases hr.symm.trans hr'
      exact ⟨(h.expected r hmem).1, .inl (hk.answer hfill)⟩
    · rintro c' ⟨r', -, hr', -, -, hresp⟩
      cases hr.symm.trans hr'
      exact tempFill?_answer hresp hfill
  | snoopResponse now pkt replies =>
    have hfill : ∀ r, Cache.mshrOf pkt = .ok r → w.tempFill? (.snoopResponse now pkt replies) =
        if w.cache.fillsTemp now r pkt then some (r, pkt) else none := fun r hr => by
          simp [tempFill?, hr]
    refine (Cache.timingAccess_response_meets hE.mild hσ h.path (hroom .writeBuffer) ha.1 fun r hr =>
      ⟨(h.expected r (ha.2 r hr)).1, .inl (hk.answer (hfill r hr))⟩).bind ?_
    rintro c' ⟨-, -, ⟨-, hno, hsame⟩ | ⟨r, hr, -, h⟩⟩
    · refine clearsTemp_of_same hsame ?_
      simp only [tempFill?]
      split
      · exact absurd ‹_› (hno _)
      · rfl
    · exact tempFill?_answer h (hfill r hr)
  | snoop now pkt reply =>
    exact (Cache.snoopTiming_meets hE.mild hσ h.path).bind fun _ h => clearsTemp_of_same h.1 rfl
  | downstream r b =>
    exact (MissPath.noteDownstream_faults hE.mild).bind fun _ _ => clearsTemp_of_same rfl rfl
  | send now offer above replies sent reply =>
    exact (Cache.sendDeferredPacket_meets hE.mild hσ h.path hroom).bind
      fun _ h => clearsTemp_of_same h.1 rfl

end

section LRU

def WritesBack (w : CacheWorld LRU) (e : CacheEvent) (w' : CacheWorld LRU) : Prop :=
  ∀ r pkt, w.tempFill? e = some (r, pkt) → pkt.addr < 2 ^ 64 →
    w.cache.Carries r pkt (w'.cache.store.tags.geom.blkAlign pkt.addr)
      w'.cache.store.tags.geom.extractBlkOffset
      w'.cache

def directMapped : LRU where
  geom := { LRU.sampleStore.geom with assoc := 1, assoc_pos := Nat.one_pos, data_lt := by decide }
  maxMasters := 1
  sets := fun i => [i]
  blks := fun b => { set := b }

def upgradeAndMiss (cmd : MemCmd) : List CacheEvent :=
  [.request 0 (sampleRequest 1 .readReq 0), .send 10 none {} (fun _ => {}) true {},
    .response 20 { sampleResponse .readResp 0 0 with shared := true } fun _ => {},
    .request 30 (sampleRequest 2 .writeReq 0), .send 40 none {} (fun _ => {}) true {},
    .request 50 (sampleRequest 3 cmd 4), .send 60 none {} (fun _ => {}) true {}]

def writeFill : CacheEvent := .response 80 (sampleResponse .readExResp 4 1) fun _ => {}

end LRU

end CacheWorld

end Gem5
