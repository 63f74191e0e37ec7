import Gem5.Mem.Protocol.MIExampleDirectory

/-!
# The MI example as a whole

Any number of caches, the directory and the DMA controller, over any run. With a memory that
is not sparse there is one writer at a time and no write is lost. If DMA requests meet the
line with its owner alone, and none is issued while the directory still writes back the line
for the one before, every message finds a transition.
-/

namespace Gem5

open Lib Function

namespace MIExample

namespace DirIn

variable (h : DirIn b chain stage d)
include h

theorem between (hserving : ∀ type, stage ≠ .serving type) :
    Between stage d.dmaRequestToDir d.dmaResponseFromDir := by
  cases h with
  | M_DRD | M_DWR | M_DWRI | ID | ID_W => exact absurd rfl (hserving _)
  | I h | IM h | M h | M_DRDI h | MI h => exact h

theorem exchange (hserving : ∀ type, stage ≠ .serving type) (hb : Between stage' q r) :
    DirIn b chain stage' { d with dmaRequestToDir := q, dmaResponseFromDir := r } := by
  cases h with
  | M_DRD | M_DWR | M_DWRI | ID | ID_W => exact absurd rfl (hserving _)
  | I => exact .I hb
  | IM => exact .IM hb
  | M _ hlast => exact .M hb hlast
  | M_DRDI => exact .M_DRDI hb
  | MI => exact .MI hb

theorem idle (hstate : d.entry.directoryState = .I) :
    chain = [] ∧ d.entry.owner = ∅ ∧ d.entry.dataBlk = b := by
  cases h with
  | I => exact ⟨rfl, rfl, rfl⟩
  | IM | M | M_DRD | M_DWR | M_DRDI | M_DWRI | MI | ID | ID_W => simp at hstate

theorem owner (hstate : d.entry.directoryState = .M) : ∃ i, d.entry.owner = {i} := by
  cases h with
  | M => exact ⟨_, rfl⟩
  | I | IM | M_DRD | M_DWR | M_DRDI | M_DWRI | MI | ID | ID_W => simp at hstate

theorem last_mem_owner (hlast : chain.getLast? = some i) : i ∈ d.entry.owner := by
  cases h with
  | I | M_DRDI | M_DWRI | MI | ID | ID_W => simp at hlast
  | IM => simpa using hlast.symm
  | M _ hlast' | M_DRD hlast' | M_DWR hlast' => simpa using Option.some.inj (hlast.symm.trans hlast')

theorem sent_of_request (hne : d.dmaRequestToDir.isEmpty = false) : ∃ type, stage = .sent type := by
  cases h with
  | M_DRD | M_DWR | M_DWRI | ID | ID_W => simp at hne
  | I h | IM h | M h | M_DRDI h | MI h =>
    cases h with
    | idle | data | ack => simp at hne
    | sent => exact ⟨_, rfl⟩

theorem getState_eq : d.getState = d.entry.directoryState := by
  cases h <;> rfl

end DirIn

namespace Line.Fits

variable {l : Line} {g : Account} {b : DataBlock} {type : DMARequestType} {write : Write}
  {msg : DMAResponseMsg} {rest : List DMAResponseMsg}

theorem issue (h : l.Fits g b) (hidle : g.stage = .idle) :
    Line.Fits { l with
      dir := { l.dir with dmaRequestToDir := l.dir.dmaRequestToDir ++ [⟨type, write⟩] } }
      { g with stage := .sent type } b := by
  refine { h with dir := ?_ }
  have hserving : ∀ type, g.stage ≠ .serving type := by simp [hidle]
  have hbetween := h.dir.between hserving
  rw [hidle] at hbetween
  obtain ⟨hq, hr⟩ : l.dir.dmaRequestToDir = [] ∧ l.dir.dmaResponseFromDir = [] := by
    generalize l.dir.dmaRequestToDir = q, l.dir.dmaResponseFromDir = r at hbetween
    cases hbetween
    exact ⟨rfl, rfl⟩
  have hb : Between (.sent type) (l.dir.dmaRequestToDir ++ [⟨type, write⟩])
      l.dir.dmaResponseFromDir := by
    rw [hq, hr]
    exact .sent
  exact h.dir.exchange hserving hb

theorem answered (h : l.Fits g b) (hmsg : l.dir.dmaResponseFromDir = msg :: rest) :
    rest = [] ∧ l.dir.dmaRequestToDir = [] ∧
      (g.stage = .answered .READ ∧ (∃ value, msg = .DATA value) ∨
        g.stage = .answered .WRITE ∧ msg = .ACK) := by
  have hdir := h.dir
  generalize l.dir = dir at hdir hmsg ⊢
  generalize g.stage = stage at hdir ⊢
  generalize g.chain = chain at hdir
  have hbetween : Between stage dir.dmaRequestToDir dir.dmaResponseFromDir := by
    cases hdir with
    | M_DRD | M_DWR | M_DWRI | ID | ID_W => simp at hmsg
    | I h | IM h | M h | M_DRDI h | MI h => exact h
  rw [hmsg] at hbetween
  generalize dir.dmaRequestToDir = q at hbetween ⊢
  cases hbetween with
  | data => exact ⟨rfl, rfl, .inl ⟨rfl, _, rfl⟩⟩
  | ack => exact ⟨rfl, rfl, .inr ⟨rfl, rfl⟩⟩

theorem respond (h : l.Fits g b) (hmsg : l.dir.dmaResponseFromDir = msg :: rest) :
    Line.Fits
      { l with
        dir := { l.dir with dmaResponseFromDir := rest }
        dmaReads := l.dmaReads ++ pendingReads [msg] }
      { g with stage := .idle } b := by
  obtain ⟨rfl, hq, hstage⟩ := h.answered hmsg
  refine { h with dir := ?_, reads := ?_ }
  · have hb : Between .idle l.dir.dmaRequestToDir [] := by
      rw [hq]
      exact .idle
    refine h.dir.exchange ?_ hb
    rcases hstage with ⟨hstage, -⟩ | ⟨hstage, -⟩ <;> simp [hstage]
  · have hreads := h.reads
    rw [hmsg] at hreads
    simpa [pendingReads] using hreads

end Line.Fits

namespace System

def busyState : DMARequestType → DMAState
  | .READ => .BUSY_RD
  | .WRITE => .BUSY_WR

/-- The accounts of all lines are right, and the DMA controller is busy with one line at the
most. -/
structure Follows (w : System) (g : Nat → Account) (b : Nat → DataBlock) : Prop where
  fits : ∀ a, (w.lines a).Fits (g a) (b a)
  busy : ∀ a type, (g a).stage.type = some type → w.curState = busyState type
  single : ∀ a a', (g a).stage.type ≠ none → (g a').stage.type ≠ none → a = a'

def Calm (w : System) : Event → Prop
  | .line a e => (w.lines a).Calm e
  | .dmaIssue a _ _ => (w.lines a).dir.entry.directoryState ≠ .M_DRDI
  | .dmaResponse _ => True

structure Advance (useMap : Bool) (calm : Prop) (w : System) (g : Nat → Account) (b : Nat → DataBlock)
    (w' : System) : Prop where
  account : ∃ g' b', w'.Follows g' b' ∧
    (∀ a, ∃ ops, (w'.lines a).history = (w.lines a).history ++ ops ∧
      (useMap = false → Consistent (b a) ops ∧ b' a = latest (b a) ops)) ∧
    (calm → (∀ a, (g a).Quiet (w.lines a).dir.entry.directoryState) →
      ∀ a, (g' a).Quiet (w'.lines a).dir.entry.directoryState)

def Unhandled (w : System) : Event → Prop
  | .line a e => (w.lines a).Unhandled e
  | .dmaIssue _ _ _ | .dmaResponse _ => False

variable {useMap : Bool} {calm : Prop} {w : System} {g : Nat → Account} {b : Nat → DataBlock}
  {a : Nat} {l : Line} {g' : Account} {b' : DataBlock} {curState : DMAState}

theorem follows_create (ram : Nat → DataBlock) :
    (create useMap ram).Follows (fun _ => {}) fun a => if useMap then .clear else ram a :=
  ⟨fun _ => .create _, nofun, fun _ _ hne => absurd rfl hne⟩

section

variable (h : w.Follows g b)
include h

theorem Advance.line (ops : List LineOp) (hfits : l.Fits g' b')
    (hbusy : ∀ type, g'.stage.type = some type → curState = busyState type)
    (hothers : ∀ a', a' ≠ a → (g a').stage.type ≠ none → g'.stage.type = none ∧ curState = w.curState)
    (hhistory : l.history = (w.lines a).history ++ ops)
    (hdata : useMap = false → Consistent (b a) ops ∧ b' = latest (b a) ops)
    (hquiet : calm → (g a).Quiet (w.lines a).dir.entry.directoryState →
      g'.Quiet l.dir.entry.directoryState) :
    Advance useMap calm w g b { lines := update w.lines a l, curState } := by
  refine ⟨update g a g', update b a b', ⟨fun a' => ?_, fun a' type htype => ?_, fun a1 a2 h1 h2 => ?_⟩,
    fun a' => ?_, fun hcalm hq a' => ?_⟩
  · rcases eq_or_ne a' a with rfl | hne
    · simpa using hfits
    · simpa [update_of_ne hne] using h.fits a'
  · rcases eq_or_ne a' a with rfl | hne
    · rw [update_self] at htype
      exact hbusy type htype
    · rw [update_of_ne hne] at htype
      rw [(hothers a' hne (by simp [htype])).2]
      exact h.busy a' type htype
  · rcases eq_or_ne a1 a with rfl | hne1
    · rcases eq_or_ne a2 a1 with rfl | hne2
      · rfl
      · rw [update_self] at h1
        rw [update_of_ne hne2] at h2
        exact absurd (hothers a2 hne2 h2).1 h1
    · rw [update_of_ne hne1] at h1
      rcases eq_or_ne a2 a with rfl | hne2
      · rw [update_self] at h2
        exact absurd (hothers a1 hne1 h1).1 h2
      · rw [update_of_ne hne2] at h2
        exact h.single a1 a2 h1 h2
  · rcases eq_or_ne a' a with rfl | hne
    · exact ⟨ops, by simpa using hhistory, by simpa using hdata⟩
    · refine ⟨[], by simp [update_of_ne hne], fun _ => ⟨trivial, by simp [update_of_ne hne]⟩⟩
  · rcases eq_or_ne a' a with rfl | hne
    · simpa using hquiet hcalm (hq a')
    · simpa [update_of_ne hne] using hq a'

theorem Follows.line (hadmits : w.Admits (.line a e)) :
    Meets (Advance useMap (w.Calm (.line a e)) w g b)
      (fun f => f = invalidTransition ∧ w.Unhandled (.line a e) ∨ f = notLineAddress ∧ useMap = true)
      (w.apply useMap (.line a e)) := by
  refine Meets.bind ((h.fits a).apply hadmits) ?_
  rintro l ⟨g', b', hfits, htype, ⟨ops, hhistory, hdata⟩, hquiet⟩
  refine Advance.line h ops hfits (fun type hsome => h.busy a type (htype ▸ hsome))
    (fun a' hne hsome => ⟨?_, rfl⟩) hhistory
    hdata hquiet
  by_contra hnone
  exact hne (h.single a' a hsome (htype ▸ hnone))

theorem Follows.idle (hready : w.curState = .READY) (a : Nat) : (g a).stage = .idle := by
  cases hstage : (g a).stage with
  | idle => rfl
  | sent type | serving type | answered type =>
    have hbusy := h.busy a type (by rw [hstage]; rfl)
    rw [hready] at hbusy
    cases type <;> simp [busyState] at hbusy

theorem Follows.dmaIssue (hadmits : w.Admits (.dmaIssue a type write)) :
    Meets (Advance useMap (w.Calm (.dmaIssue a type write)) w g b) E
      (w.apply useMap (.dmaIssue a type write)) := by
  have hready : w.curState = .READY := hadmits
  have happly : w.apply useMap (.dmaIssue a type write) = .ok
      { lines := update w.lines a { w.lines a with
          dir := { (w.lines a).dir with
            dmaRequestToDir := (w.lines a).dir.dmaRequestToDir ++ [⟨type, write⟩] } }
        curState := busyState type } := by
    cases type <;>
      simp [System.apply, dmaTransition, hready, DMAState.transition, DMAAction.exec, busyState]
  rw [happly]
  refine Advance.line h [] ((h.fits a).issue (h.idle hready a)) ?_ (fun a' _ hsome => ?_) (by simp)
    (fun _ => ⟨trivial, rfl⟩) fun hcalm hq => ⟨hq.recalled, fun heq => absurd heq hcalm⟩
  · rintro type' htype
    cases htype
    rfl
  · exact absurd (by rw [h.idle hready a']; rfl) hsome

theorem Follows.dmaResponse (hadmits : w.Admits (.dmaResponse a)) :
    Meets (Advance useMap (w.Calm (.dmaResponse a)) w g b) E (w.apply useMap (.dmaResponse a)) := by
  cases hmsg : (w.lines a).dir.dmaResponseFromDir with
  | nil => simp [Admits, hmsg] at hadmits
  | cons msg rest =>
    obtain ⟨-, -, hstage⟩ := (h.fits a).answered hmsg
    have happly : w.apply useMap (.dmaResponse a) = .ok
        { lines := update w.lines a { w.lines a with
            dir := { (w.lines a).dir with dmaResponseFromDir := rest }
            dmaReads := (w.lines a).dmaReads ++ pendingReads [msg] }
          curState := .READY } := by
      rcases hstage with ⟨hstage, value, rfl⟩ | ⟨hstage, rfl⟩
      · have hbusy : w.curState = .BUSY_RD := h.busy a .READ (by rw [hstage]; rfl)
        simp [System.apply, hmsg, dmaTransition, hbusy, responseEvent, DMAState.transition,
          DMAAction.exec, pendingReads]
      · have hbusy : w.curState = .BUSY_WR := h.busy a .WRITE (by rw [hstage]; rfl)
        simp [System.apply, hmsg, dmaTransition, hbusy, responseEvent, DMAState.transition,
          DMAAction.exec, pendingReads]
    have htype : (g a).stage.type ≠ none := by
      rcases hstage with ⟨hstage, -⟩ | ⟨hstage, -⟩ <;> simp [hstage, DMAStage.type]
    rw [happly]
    refine Advance.line h [] ((h.fits a).respond hmsg) nofun (fun a' hne hsome => ?_) (by simp)
      (fun _ => ⟨trivial, rfl⟩) fun _ hq => ⟨hq.recalled, fun _ => by simp⟩
    exact absurd (h.single a' a hsome htype) hne

theorem Follows.apply (hadmits : w.Admits e) : Meets (Advance useMap (w.Calm e) w g b)
      (fun f => f = invalidTransition ∧ w.Unhandled e ∨ f = notLineAddress ∧ useMap = true)
      (w.apply useMap e) := by
  cases e with
  | line a e => exact h.line hadmits
  | dmaIssue a type write => exact h.dmaIssue hadmits
  | dmaResponse a => exact h.dmaResponse hadmits

end

theorem run_follows (h : Runs (Step useMap) (create useMap ram) es w) :
    ∃ g b, w.Follows g b ∧ (useMap = false → ∀ a, Consistent (ram a) (w.lines a).history ∧
      b a = latest (ram a) (w.lines a).history) := by
  refine h.invariant (P := fun w => ∃ g b, w.Follows g b ∧ (useMap = false → ∀ a,
    Consistent (ram a) (w.lines a).history ∧ b a = latest (ram a) (w.lines a).history)) ?_ ?_
  · refine ⟨_, _, follows_create ram, ?_⟩
    rintro rfl a
    exact ⟨trivial, rfl⟩
  · rintro w e w' ⟨g, b, hfollows, hdata⟩ ⟨hadmits, happly⟩
    obtain ⟨g', b', hfollows', hhistory, -⟩ := (hfollows.apply hadmits).result happly
    refine ⟨g', b', hfollows', fun hmap a => ?_⟩
    obtain ⟨ops, heq, hops⟩ := hhistory a
    obtain ⟨hreads, hlatest⟩ := hdata hmap a
    obtain ⟨hreads', hlatest'⟩ := hops hmap
    rw [hlatest] at hreads' hlatest'
    rw [heq]
    exact ⟨consistent_append.mpr ⟨hreads, hreads'⟩, by rw [hlatest']; exact List.foldl_append.symm⟩

end System

structure Line.Coherent (l : Line) (b : DataBlock) : Prop where
  writer : ∀ i j, (l.nodes i).getState = .M → (l.nodes j).getState = .M → i = j
  idle : l.dir.getState = .I →
    (∀ i, (l.nodes i).getState ≠ .M) ∧ l.dir.entry.dataBlk = latest b l.history
  owner : (l.dir.getState = .M → l.dir.entry.owner.card = 1) ∧
    (l.dir.getState = .I → l.dir.entry.owner.card = 0)
  reads : Consistent b l.history
  dmaReads : l.dmaReads <+: l.history.filterMap LineOp.dmaValue

namespace Line.Fits

variable {l : Line} {g : Account} {b : DataBlock} {i : Nat}

theorem head_of_M (h : l.Fits g b) (hM : (l.nodes i).getState = .M) : g.chain.head? = some i := by
  have hnode := h.nodes i
  have hc := hnode.controls
  refine (h.head_of_holding ?_).1
  cases hp : g.phase i with
  | owned | arriving | evicting | refused => rfl
  | out =>
    rw [hp] at hc
    obtain ⟨-, htbe, hentry, -⟩ := hc
    cases he : (l.nodes i).entry with
    | none => simp [L1Node.getState, htbe, he] at hM
    | some entry =>
      rw [L1Node.getState_of_entry htbe he, hentry entry he] at hM
      simp at hM
  | asked | waiting =>
    rw [hp] at hc
    obtain ⟨-, request, d, d', -, -, htbe⟩ := hc.1
    rw [L1Node.getState_of_tbe htbe] at hM
    cases request <;> cases hM
  | flushed | acked | stale | nacked =>
    rw [hp] at hc
    obtain ⟨d, htbe⟩ := hc.2.1
    rcases hnode.getState_of_written hc.2.2.1 (by simp [htbe]) with hstate | hstate <;>
      simp [hstate] at hM

theorem coherent (h : l.Fits g b) (hreads : Consistent b0 l.history)
    (hlatest : b = latest b0 l.history) : l.Coherent b0 := by
  have hstate := h.dir.getState_eq
  refine ⟨fun i j hi hj => ?_, fun hI => ?_, ⟨fun hM => ?_, fun hI => ?_⟩, hreads, _, h.reads⟩
  · exact Option.some.inj ((h.head_of_M hi).symm.trans (h.head_of_M hj))
  · obtain ⟨hchain, -, hdata⟩ := h.dir.idle (hstate ▸ hI)
    refine ⟨fun i hM => ?_, hdata.trans hlatest⟩
    have hhead := h.head_of_M hM
    simp [hchain] at hhead
  · obtain ⟨i, howner⟩ := h.dir.owner (hstate ▸ hM)
    rw [howner, Finset.card_singleton]
  · rw [(h.dir.idle (hstate ▸ hI)).2.1, Finset.card_empty]

end Line.Fits

namespace System

variable {useMap : Bool} {w : System} {es : List Event} {ram : Nat → DataBlock}

def OwnerChecked (useMap : Bool) (w : System) : Prop :=
  ∀ e, w.Admits e → w.apply useMap e ≠ .error ownerIsOne ∧ w.apply useMap e ≠ .error ownerIsNone

/-- With a memory that is not sparse, every line is coherent after every run. -/
theorem run_coherent (hmap : useMap = false) (h : Runs (Step useMap) (create useMap ram) es w) :
    (∀ a, (w.lines a).Coherent (ram a)) ∧ w.OwnerChecked useMap := by
  obtain ⟨g, b, hfollows, hdata⟩ := run_follows h
  refine ⟨fun a => (hfollows.fits a).coherent (hdata hmap a).1 (hdata hmap a).2, fun e hadmits => ?_⟩
  constructor
  · intro herror
    rcases (hfollows.apply hadmits).fault herror with ⟨heq, -⟩ | ⟨heq, -⟩ <;>
      simp [ownerIsOne, invalidTransition, notLineAddress] at heq
  · intro herror
    rcases (hfollows.apply hadmits).fault herror with ⟨heq, -⟩ | ⟨heq, -⟩ <;>
      simp [ownerIsNone, invalidTransition, notLineAddress] at heq

theorem run_single_writer (h : Runs (Step useMap) (create useMap ram) es w) :
    (∀ a, {i | ((w.lines a).nodes i).getState = .M}.Subsingleton) ∧
      ∀ e f, w.Admits e → w.apply useMap e = .error f →
        f = invalidTransition ∧ w.Unhandled e ∨ f = notLineAddress ∧ useMap = true := by
  obtain ⟨g, b, hfollows, -⟩ := run_follows h
  refine ⟨fun a i hi j hj => ?_, fun _ _ ha => (hfollows.apply ha).fault⟩
  exact Option.some.inj (((hfollows.fits a).head_of_M hi).symm.trans ((hfollows.fits a).head_of_M hj))

def storeByte (value : UInt8) : CpuRequest := .ST { dataBlk := fun _ => value, len := 1 }

def fetch (i : Nat) (request : CpuRequest) : List Event :=
  [.line 0 (.makeRequest i request), .line 0 (.mandatory i), .line 0 (.request i), .line 0 .memory,
    .line 0 (.response .directory i)]

def storeAndWriteBack (i : Nat) (value : UInt8) : List Event :=
  fetch i (storeByte value) ++ [.line 0 (.replacement i), .line 0 (.request i), .line 0 .memory]

def takeOver (i owner : Nat) (request : CpuRequest) : List Event :=
  [.line 0 (.makeRequest i request), .line 0 (.mandatory i), .line 0 (.request i),
    .line 0 (.forward owner), .line 0 (.response (.cache owner) i)]

/-- A sparse memory drops the line when the directory goes to `I`, and the store with it. -/
theorem sparse_memory_loses_store :
    ∃ w, Runs (Step true) (create true fun _ => .clear) (storeAndWriteBack 0 7) w ∧
      (w.lines 0).dir.getState = .I ∧ (w.lines 0).dir.entry.dataBlk 0 = 0 ∧
      latest .clear (w.lines 0).history 0 = 7 :=
  runs_of_play Admits (apply true) (by decide +kernel)

theorem run_single_writer_sparse :
    ∃ w, Runs (Step true) (create true fun _ => .clear)
        (fetch 0 (storeByte 7) ++ takeOver 1 0 (storeByte 8)) w ∧
      ((w.lines 0).nodes 1).getState = .M ∧ ((w.lines 0).nodes 0).getState = .I ∧
      ∀ a, {i | ((w.lines a).nodes i).getState = .M}.Subsingleton := by
  have hplay : ∃ w, Runs (Step true) (create true fun _ => .clear)
      (fetch 0 (storeByte 7) ++ takeOver 1 0 (storeByte 8)) w ∧
      ((w.lines 0).nodes 1).getState = .M ∧ ((w.lines 0).nodes 0).getState = .I :=
    runs_of_play Admits (apply true) (by decide +kernel)
  obtain ⟨w, hrun, howner, hother⟩ := hplay
  exact ⟨w, hrun, howner, hother, (run_single_writer hrun).1⟩

theorem run_coherent_load :
    ∃ w, Runs (Step false) (create false fun _ => .clear) (storeAndWriteBack 0 7 ++ fetch 1 .LD) w ∧
      (w.lines 0).history.length = 2 ∧ (∀ a, (w.lines a).Coherent .clear) ∧
      w.OwnerChecked false :=
  runs_of_play_and Admits (apply false) (by decide +kernel) fun _ => run_coherent rfl

end System

theorem Line.Fits.handled {l : Line} {g : Account} {b : DataBlock} {e : LineEvent} (h : l.Fits g b)
    (hq : g.Quiet l.dir.entry.directoryState) (hadmits : l.Admits e) : ¬ l.Unhandled e := by
  cases e with
  | makeRequest | mandatory | replacement | forward | response | memory => exact id
  | request i =>
    rintro ⟨hrecalls, howner, x, hreq⟩
    obtain ⟨hlen, hstale⟩ := hq.recalled hrecalls
    have hc := (h.nodes i).controls
    have hevicting : g.phase i = .evicting := by
      cases hp : g.phase i with
      | evicting => rfl
      | stale => exact absurd hp (hstale i)
      | out | owned | refused | flushed | acked | nacked =>
        rw [hp] at hc
        exact absurd hc.2.2.2 (by simp [hreq])
      | asked | waiting | arriving =>
        rw [hp] at hc
        exact absurd hc.2 (by simp [hreq])
    have hhead := (h.head_of_holding (i := i) (by rw [hevicting]; rfl)).1
    have hlast : g.chain.getLast? = some i := by
      match hc : g.chain with
      | [] => simp [hc] at hhead
      | [a] => simpa [hc] using hhead
      | a :: a' :: rest => simp [hc] at hlen
    exact howner (h.dir.last_mem_owner hlast)
  | dmaRequest =>
    intro hstate
    obtain ⟨type, hsent⟩ := h.dir.sent_of_request hadmits
    exact hq.sent hstate type hsent

namespace System

variable {useMap : Bool} {w : System} {es : List Event} {ram : Nat → DataBlock}

/-- If DMA accesses meet a line with its owner alone and wait for the writeback of the one
before, there is a transition for every event after every run. -/
theorem run_handles
    (h : Runs (fun w e w' => Step useMap w e w' ∧ w.Calm e) (create useMap ram) es w) :
    (∀ e, w.Admits e → w.apply useMap e ≠ .error invalidTransition) ∧ w.OwnerChecked useMap := by
  obtain ⟨g, b, hfollows, hquiet⟩ : ∃ g b, w.Follows g b ∧ ∀ a,
      (g a).Quiet (w.lines a).dir.entry.directoryState := by
    refine h.invariant (P := fun w => ∃ g b, w.Follows g b ∧ ∀ a,
      (g a).Quiet (w.lines a).dir.entry.directoryState) ?_ ?_
    · exact ⟨_, _, follows_create ram, fun a => .of_not_recalls (by simp [create, Line.create])⟩
    · rintro w e w' ⟨g, b, hfollows, hquiet⟩ ⟨⟨hadmits, happly⟩, hcalm⟩
      obtain ⟨g', b', hfollows', -, hquiet'⟩ := (hfollows.apply hadmits).result happly
      exact ⟨g', b', hfollows', hquiet' hcalm hquiet⟩
  have hfault : ∀ e f, w.Admits e → w.apply useMap e = .error f → f = notLineAddress := by
    intro e f hadmits herror
    rcases (hfollows.apply hadmits).fault herror with ⟨-, hun⟩ | ⟨heq, -⟩
    · cases e with
      | line a e => exact absurd hun ((hfollows.fits a).handled (hquiet a) hadmits)
      | dmaIssue | dmaResponse => exact hun.elim
    · exact heq
  refine ⟨fun e hadmits herror => ?_, fun e hadmits => ⟨fun herror => ?_, fun herror => ?_⟩⟩
  · simpa [invalidTransition, notLineAddress] using hfault e _ hadmits herror
  · simpa [ownerIsOne, notLineAddress] using hfault e _ hadmits herror
  · simpa [ownerIsNone, notLineAddress] using hfault e _ hadmits herror

/-- The first owner writes the line back while it goes to the second one. A DMA read is taken
before the writeback, which finds no transition. -/
theorem late_writeback_unhandled :
    ∃ w, Runs (Step false) (create false fun _ => .clear)
      [.line 0 (.makeRequest 0 (storeByte 7)), .line 0 (.mandatory 0),
        .line 0 (.request 0), .line 0 .memory, .line 0 (.response .directory 0),
        .line 0 (.replacement 0), .line 0 (.makeRequest 1 .LD), .line 0 (.mandatory 1),
        .line 0 (.request 1), .dmaIssue 0 .READ {}, .line 0 .dmaRequest] w ∧
      w.Admits (.line 0 (.request 0)) ∧ w.apply false
        (.line 0 (.request 0)) = .error invalidTransition :=
  runs_of_play Admits (apply false) (by decide +kernel)

def MeetsNoOwner (w : System) : Event → Bool
  | .line a .dmaRequest => (w.lines a).dir.entry.directoryState ≠ .M
  | .dmaIssue a _ _ => (w.lines a).dir.entry.directoryState ≠ .M_DRDI
  | _ => true

theorem MeetsNoOwner.calm (h : w.MeetsNoOwner e = true) : w.Calm e := by
  cases e with
  | line a e =>
    cases e with
    | dmaRequest => exact fun hM => absurd hM (of_decide_eq_true h)
    | makeRequest | mandatory | replacement | forward | response | request | memory => exact trivial
  | dmaIssue a type write =>
    have hstate : (w.lines a).dir.entry.directoryState ≠ .M_DRDI := of_decide_eq_true h
    exact hstate
  | dmaResponse a => exact trivial

theorem runs_calm (h : Runs (fun w e w' => (w.Admits e ∧ w.MeetsNoOwner e = true) ∧
    w.apply useMap e = .ok w') w es w') :
    Runs (fun w e w' => Step useMap w e w' ∧ w.Calm e) w es w' :=
  h.mono fun _ _ _ hs => ⟨⟨hs.1.1, hs.2⟩, MeetsNoOwner.calm hs.1.2⟩

def owned : System :=
  ((play (fun w e => w.Admits e ∧ w.MeetsNoOwner e = true) (apply false) (create false fun _ => .clear)
    (fetch 0 (storeByte 7) ++ [.dmaIssue 0 .READ {}])).toOption).getD (create false fun _ => .clear)

theorem owned_calm : owned.Calm (.line 0 .dmaRequest) := by
  intro _ i hi
  cases i with
  | zero => exact absurd hi (by decide +kernel)
  | succ i =>
    -- The other caches are as they were made.
    have hforward : ((owned.lines 0).nodes (i + 1)).forwardToCache = [] := rfl
    have hrequest : ((owned.lines 0).nodes (i + 1)).requestFromCache = [] := rfl
    simp [hforward, hrequest]

def recalled : System := ((owned.apply false (.line 0 .dmaRequest)).toOption).getD owned

theorem run_handles_dmaRead :
    ∃ w, Runs (fun w e w' => Step false w e w' ∧ w.Calm e) (create false fun _ => .clear)
        ((fetch 0 (storeByte 7) ++ [.dmaIssue 0 .READ {}]) ++ [.line 0 .dmaRequest] ++
          [.line 0 (.forward 0), .line 0 (.request 0), .line 0 .memory, .dmaResponse 0]) w ∧
      (w.lines 0).dmaReads.map (· 0) = [7] ∧
      (∀ e, w.Admits e → w.apply false e ≠ .error invalidTransition) ∧ w.OwnerChecked false := by
  have howned : Runs (fun w e w' => (w.Admits e ∧ w.MeetsNoOwner e = true) ∧
      w.apply false e = .ok w') (create false fun _ => .clear)
      (fetch 0 (storeByte 7) ++ [.dmaIssue 0 .READ {}]) owned := runs_of_play_eq _ _ rfl
  have hrecalled := (runs_calm howned).snoc (a := .line 0 .dmaRequest) (u := recalled)
    ⟨⟨by decide +kernel, rfl⟩, owned_calm⟩
  have hanswered : ∃ w, Runs (fun w e w' => (w.Admits e ∧ w.MeetsNoOwner e = true) ∧
      w.apply false e = .ok w') recalled
      [.line 0 (.forward 0), .line 0 (.request 0), .line 0 .memory, .dmaResponse 0] w ∧
      (w.lines 0).dmaReads.map (· 0) = [7] :=
    runs_of_play (fun (w : System) e => w.Admits e ∧ w.MeetsNoOwner e = true) (apply false)
      (by decide +kernel)
  obtain ⟨w, hrun, hread⟩ := hanswered
  have hall := hrecalled.append (runs_calm hrun)
  exact ⟨w, hall, hread, run_handles hall⟩

end System

end MIExample

end Gem5
