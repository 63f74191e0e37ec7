import Gem5.Mem.Protocol.MIExampleLine

/-!
# The directory's part of the MI example

What the directory does with each message in each of its states, and what that does to the
account of a line.
-/

namespace Gem5

open Lib MIExample.Directory List Function

namespace MIExample

theorem Directory.requestQueueIn_putx {useMap : Bool} {d : Directory} {i : Nat} {b : DataBlock}
    (h : i ∈ d.entry.owner) :
    d.requestQueueIn useMap i [.PUTX b] = d.doTransition useMap i [.PUTX b] .PUTX := by
  simp [requestQueueIn, requestEvent, h]

theorem Directory.requestQueueIn_putx_notOwner {useMap : Bool} {d : Directory}
    {i : Nat} {b : DataBlock} (h : i ∉ d.entry.owner) :
    d.requestQueueIn useMap i [.PUTX b] = d.doTransition useMap i [.PUTX b] .PUTX_NotOwner := by
  simp [requestQueueIn, requestEvent, h]

def recallState : DMARequestType → DirState
  | .READ => .M_DRD
  | .WRITE => .M_DWR

theorem Directory.dmaRequestQueueIn_M :
    dmaRequestQueueIn useMap ⟨⟨.M, d, ∅, {i}⟩, none, [], [⟨type, w⟩], []⟩ =
      if useMap = true ∧ ¬ w.offset = 0 then .error notLineAddress
      else .ok
        { dir := ⟨⟨recallState type, d, ∅, {i}⟩, some ⟨recallState type, w⟩, [], [], []⟩
          forwards := [({i}, .INV)] } := by
  by_cases hoffset : useMap = true ∧ ¬ w.offset = 0 <;>
    cases type <;>
    simp [dmaRequestQueueIn, doTransition, getState, DirState.transition,
      DirAction.exec, peekDMA, allocateTBE, need, refuse, hoffset, setState, checkSharing, recallState]

namespace Line

variable {l : Line} {i m : Nat} {d : Directory} {requests : List RequestMsg} {msg : ForwardMsg}
  {ops : List LineOp} {b : DataBlock}

theorem receiveForward_singleton (nodes : Nat → L1Node) :
    receiveForward nodes ({i}, msg) =
      update nodes i { nodes i with forwardToCache := (nodes i).forwardToCache ++ [msg] } := by
  funext j
  rcases eq_or_ne j i with rfl | hne
  · simp [receiveForward]
  · simp [receiveForward, hne]

theorem takeDir_answered :
    (l.setRequests i requests).takeDir
    { dir := d, requestToDir := requests, forwards := [({i}, msg)], ops } =
      { l with
        nodes := update l.nodes i { l.nodes i with
          requestFromCache := requests, forwardToCache := (l.nodes i).forwardToCache ++ [msg] }
        dir := d, history := l.history ++ ops } := by
  simp [takeDir, setRequests, receiveForward_singleton]

theorem takeDir_forward :
    l.takeDir { dir := d, forwards := [({i}, msg)], ops } = { l with
        nodes := update l.nodes i { l.nodes i with
          forwardToCache := (l.nodes i).forwardToCache ++ [msg] }
        dir := d, history := l.history ++ ops } := by
  simp [takeDir, receiveForward_singleton]

theorem takeDir_linked (him : i ≠ m) (j : Nat) :
    ((l.setRequests i requests).takeDir { dir := d, requestToDir := requests,
                                          forwards := [({m}, msg)] }).nodes j =
      if j = m then { l.nodes j with forwardToCache := (l.nodes j).forwardToCache ++ [msg] }
      else if j = i then { l.nodes j with requestFromCache := requests } else l.nodes j := by
  simp only [takeDir, setRequests, foldl_cons, foldl_nil, receiveForward_singleton]
  rcases eq_or_ne j m with rfl | hjm
  · simp [update_of_ne (Ne.symm him)]
  · rcases eq_or_ne j i with rfl | hji
    · simp [hjm]
    · simp [hjm, hji]

end Line

namespace Line.Fits

variable {l : Line} {g : Account} {b : DataBlock} {i : Nat}

theorem not_holding (h : l.Fits g b) (hchain : g.chain = []) : (g.phase i).role ≠ .holding := by
  intro hhold
  have hhead := (h.head_of_holding hhold).1
  simp [hchain] at hhead

theorem inv_eq_false (h : l.Fits g b)
    (hp : (g.phase i).role = .holding ∨ (g.phase i).role = .waiting ∨ g.phase i = .asked)
    (hstate : ¬ l.dir.entry.directoryState.Recalls) : g.inv i = false := by
  rw [← Bool.not_eq_true]
  intro hinv
  rcases h.inv i hinv with heq | heq | ⟨-, heq | heq⟩
  · simp [heq, Phase.role] at hp
  · simp [heq, Phase.role] at hp
  · exact hstate (.inl heq)
  · exact hstate (.inr (.inl heq))

theorem last (h : l.Fits g b) (hlast : g.chain.getLast? = some i)
    (hstate : ¬ l.dir.entry.directoryState.Recalls) :
    successor g.chain i = none ∧ g.inv i = false ∧ (g.phase i).reply = [] := by
  have hrole := h.mem_chain.mp (mem_of_getLast? hlast)
  have hnext := successor_of_getLast? h.nodup hlast
  refine ⟨hnext, h.inv_eq_false (hrole.symm.imp_right .inl) hstate, ?_⟩
  have hrefused := h.refused i
  cases hp : g.phase i <;> simp_all [Phase.role, Phase.reply]

theorem inDir (h : l.Fits g b) :
    ∃ dir chain stage, l.dir = dir ∧ g.chain = chain ∧ g.stage = stage ∧ DirIn b chain stage dir :=
  ⟨_, _, _, rfl, rfl, rfl, h.dir⟩

end Line.Fits

abbrev Line.Advances (useMap : Bool) (calm : Prop) (l : Line) (g : Account) (b : DataBlock)
    (E : Fault → Prop) (e : LineEvent) :=
  Meets (Line.Advance useMap calm l g b) E (l.apply useMap e)

theorem Account.Quiet.of_not_recalls {g : Account} {state : DirState}
    (h : ¬ state.Recalls) : g.Quiet state :=
  ⟨fun hrecalls => absurd hrecalls h, fun heq => absurd (.inr (.inr (.inl heq))) h⟩

namespace Line.Fits

variable {useMap : Bool} {calm : Prop} {l : Line} {g : Account} {b : DataBlock}
  {i m : Nat} {d : DataBlock} {stage : DMAStage} {ops : List LineOp} {E : Fault → Prop} {p : Phase}
  {requests : List RequestMsg} {q : List DMARequestMsg} {r : List DMAResponseMsg}

theorem grant (h : l.Fits g b) (hp : g.phase i = .asked) (hchain : g.chain = [])
    (hbetween : Between g.stage q r) (hd : l.dir = ⟨⟨.I, b, ∅, ∅⟩, none, [], q, r⟩) :
    Line.Advance useMap calm l g b ((l.setRequests i []).takeDir
      { dir := ⟨⟨.IM, b, ∅, {i}⟩, none, [⟨.MEMORY_READ, some i, b⟩], q, r⟩ }) := by
  have hnode := h.nodes i
  have hinv := h.inv_eq_false (.inr (.inr hp)) (by simp [hd])
  have hreads := h.reads
  rw [hp, hchain, successor_nil] at hnode
  rw [hd] at hreads
  refine ⟨_, _, h.change .waiting (g.inv i) [i] g.stage (nodup_singleton i)
    (.IM hbetween) hnode.take_getx
    (by simp [Phase.role, roleOf]) (by simp [hinv]) nofun (.inl rfl) (fun j _ => by simp [hchain])
    (fun j hne => ?_) (fun j _ hj => by simp [hchain, Directory.Invalidates] at hj)
    (by simpa using hreads), rfl, ⟨_, rfl, fun _ => ⟨trivial, rfl⟩⟩,
    fun _ _ => .of_not_recalls (by simp [takeDir])⟩
  simp [hne, hchain, hd, roleOf, flushes]

theorem append (h : l.Fits g b) (hp : g.phase i = .asked) (hlast : g.chain.getLast? = some m)
    (hbetween : Between g.stage q r) (hd : l.dir = ⟨⟨.M, d, ∅, {m}⟩, none, [], q, r⟩) :
    Line.Advance useMap calm l g b ((l.setRequests i []).takeDir
      { dir := ⟨⟨.M, d, ∅, {i}⟩, none, [], q, r⟩, forwards := [({m}, .GETX i)] }) := by
  have hi : i ∉ g.chain := by simp [h.mem_chain, hp, Phase.role]
  have hm := mem_of_getLast? hlast
  have him : i ≠ m := fun heq => hi (heq ▸ hm)
  have hrecalls : ¬ l.dir.entry.directoryState.Recalls := by simp [hd]
  obtain ⟨hnext, hinvm, hreply⟩ := h.last hlast hrecalls
  have hsucc : ∀ j, successor (g.chain ++ [i]) j = if g.chain.getLast? = some j then some i
      else successor g.chain j :=
    fun j => successor_concat h.nodup hi
  refine ⟨{ g with chain := g.chain ++ [i], phase := update g.phase i .waiting }, b,
    ⟨?_, .M hbetween (by simp), fun j => ?_, fun j => ?_, fun j hj => ?_, fun j hj => ?_, ?_⟩, rfl,
    ⟨[], by simp [takeDir, setRequests], fun _ => ⟨trivial, rfl⟩⟩,
    fun _ _ => .of_not_recalls (by simp [takeDir])⟩
  · exact h.nodup.append (nodup_singleton i) (by simpa using hi)
  · rw [takeDir_linked him]
    rcases eq_or_ne j m with rfl | hjm
    · have hnode := h.nodes j
      rw [hinvm, hnext] at hnode
      simp only [if_true, update_of_ne (Ne.symm him), hinvm, hsucc, hlast]
      exact hnode.link hreply i
    · have hjlast : g.chain.getLast? ≠ some j :=
        fun heq => hjm (Option.some.inj (heq.symm.trans hlast))
      rw [if_neg hjm, hsucc, if_neg hjlast]
      rcases eq_or_ne j i with rfl | hji
      · have hnode := h.nodes j
        rw [hp] at hnode
        simpa using hnode.take_getx
      · simpa [hji, update_of_ne hji] using h.nodes j
  · dsimp only
    rcases eq_or_ne j i with rfl | hji
    · have hhead : (g.chain ++ [j]).head? ≠ some j := by
        intro hhead
        cases hc : g.chain with
        | nil => simp [hc] at hm
        | cons a rest =>
          rw [hc, cons_append, head?_cons, Option.some.injEq] at hhead
          exact hi (by rw [hc, hhead]; exact mem_cons_self)
      rw [update_self, roleOf, if_pos (by simp), if_neg fun hand => hhead hand.1]
      rfl
    · have hhead : (g.chain ++ [i]).head? = g.chain.head? := by
        cases hc : g.chain with
        | nil => simp [hc] at hm
        | cons a rest => rfl
      have hmem : j ∈ g.chain ++ [i] ↔ j ∈ g.chain := by simp [hji]
      rw [update_of_ne hji, h.role j, roleOf, roleOf, hhead, if_congr hmem rfl rfl, hd]
      rfl
  · dsimp only at hj ⊢
    have hold := h.inv j hj
    have hji : j ≠ i := by
      rintro rfl
      simp [h.inv_eq_false (.inr (.inr hp)) hrecalls] at hj
    rw [update_of_ne hji]
    refine hold.imp_right fun hold => hold.imp_right ?_
    rintro ⟨-, heq | heq⟩
    · simp [hd] at heq
    · simp [hd] at heq
  · dsimp only at hj ⊢
    rw [hsucc]
    split
    · simp
    · refine h.refused j ?_
      rcases eq_or_ne j i with rfl | hji
      · simp at hj
      · rwa [update_of_ne hji] at hj
  · have hreads := h.reads
    rw [hd] at hreads
    simpa [takeDir, setRequests] using hreads

theorem flush (h : l.Fits g b) (hp : g.phase i = .evicting) (hchain : g.chain = [i])
    (hdir : DirIn b [] stage d') (hmem : d'.memBuffer = [⟨.MEMORY_WB, some i, x⟩])
    (hreads : l.dmaReads ++ pendingReads d'.dmaResponseFromDir =
      (l.history ++ ops).filterMap LineOp.dmaValue)
    (htype : stage.type = g.stage.type) (hdata : Consistent b ops ∧ b = latest b ops)
    (hsent : ∀ type, stage = .sent type → d'.entry.directoryState ≠ .M_DRDI)
    (hrecalls : d'.entry.directoryState.Recalls → l.dir.entry.directoryState.Recalls) :
    Line.Advance useMap calm l g b ((l.setRequests i []).takeDir { dir := d', ops }) := by
  have hnode := h.nodes i
  rw [hp, hchain, successor_singleton] at hnode
  have hflush : ∀ j, l.dir.flushes j = false := fun j => h.dir.not_flushes (by simp [hchain])
  refine ⟨_, _, h.change .flushed (g.inv i) [] stage nodup_nil hdir hnode.take_putx ?_
    (fun _ => .inl rfl) nofun
    (.inl rfl) (fun j _ => by simp [hchain]) (fun j hne => ?_) (fun j hne hj => ?_) hreads, htype,
    ⟨_, rfl, fun _ => hdata⟩, fun _ hq =>
    ⟨fun hr => ⟨by simp, fun j => ?_⟩, fun heq type hstage => hsent type hstage heq⟩⟩
  · simp [Phase.role, roleOf, flushes, hmem]
  · have hflush' : d'.flushes j = false := by simp [flushes, hmem, Ne.symm hne]
    simp [roleOf, hchain, hne, hflush, hflush']
  · simp [Directory.Invalidates, hchain, Ne.symm hne] at hj
  · rcases eq_or_ne j i with rfl | hne
    · simp [Account.set]
    · simpa [Account.set, update_of_ne hne] using (hq.recalled (hrecalls hr)).2 j

theorem refuse_putx (h : l.Fits g b)
    (hnode : InPhase b p (g.inv i) (successor g.chain i)
      { l.nodes i with
        requestFromCache := [], forwardToCache := (l.nodes i).forwardToCache ++ [.WB_NACK] })
    (hp : g.phase i = .evicting ∧ p = .refused ∧ successor g.chain i ≠ none ∨
      g.phase i = .stale ∧ p = .nacked)
    (hrecalls : ¬ l.dir.entry.directoryState.Recalls) :
    Line.Advance useMap calm l g b ((l.setRequests i []).takeDir
      { dir := l.dir, forwards := [({i}, .WB_NACK)] }) := by
  rw [takeDir_answered]
  refine ⟨_, _, h.change p (g.inv i) g.chain g.stage h.nodup h.dir hnode ?_ (fun hinv => ?_)
    (fun hrefused => ?_) (.inl rfl)
    (fun _ _ => rfl) (fun _ _ => rfl) (fun _ _ => id) (by simpa using h.reads), rfl,
    ⟨_, rfl, fun _ => ⟨trivial, rfl⟩⟩, fun _ _ => .of_not_recalls hrecalls⟩
  · rw [← h.role i]
    rcases hp with ⟨hold, rfl, -⟩ | ⟨hold, rfl⟩ <;> rw [hold] <;> rfl
  · have hold := h.inv i hinv
    rcases hp with ⟨hphase, rfl, -⟩ | ⟨hphase, rfl⟩ <;> simp [hphase] at hold <;>
      exact .inr (.inr hold)
  · rcases hp with ⟨-, -, hnext⟩ | ⟨-, rfl⟩
    · exact hnext
    · simp at hrefused

theorem invalidated (useMap : Bool) (b : DataBlock) (hb : Between stage q r) :
    let d := invalidateBlock useMap ⟨⟨.I, b, ∅, ∅⟩, none, [], q, r⟩
    DirIn (if useMap then .clear else b) [] stage d ∧ (∀ j, d.flushes j = false) ∧
      d.dmaResponseFromDir = r ∧
      ¬ d.entry.directoryState.Recalls := by
  cases useMap with
  | true => exact ⟨.I hb, fun _ => rfl, rfl, by simp [invalidateBlock]⟩
  | false => exact ⟨.I hb, fun _ => rfl, rfl, by simp [invalidateBlock]⟩

theorem refuse_idle (h : l.Fits g b) (hp : g.phase i = .stale) (hchain : g.chain = [])
    (hb : Between g.stage q r) (hd : l.dir = ⟨⟨.I, b, ∅, ∅⟩, none, [], q, r⟩) :
    Line.Advance useMap calm l g b ((l.setRequests i []).takeDir
      { dir := invalidateBlock useMap ⟨⟨.I, b, ∅, ∅⟩, none, [], q, r⟩,
        forwards := [({i}, .WB_NACK)] }) := by
  obtain ⟨hidle, hnot, hr, hrecalls⟩ := invalidated useMap b hb
  have hnode := h.nodes i
  have hreads := h.reads
  have hinv : g.inv i = false := by
    rw [← Bool.not_eq_true]
    intro hinv
    have hold := h.inv i hinv
    simp [hp, hchain, Directory.Invalidates] at hold
  rw [hp, hchain] at hnode
  rw [hd] at hreads
  rw [takeDir_answered]
  refine ⟨_, _, h.change .nacked (g.inv i) [] g.stage nodup_nil hidle
    ((hnode.refuse (.inr ⟨rfl, rfl⟩)).block (by simp [Phase.role])) ?_ (by simp [hinv])
    (by rintro ⟨⟩) (.inr fun j _ => h.not_holding hchain)
    (fun j _ => by rw [hchain]) (fun j hne => ?_) (fun j _ hj => ?_) (by simpa [hr] using hreads),
    rfl, ⟨_, rfl, ?_⟩, fun _ _ => .of_not_recalls hrecalls⟩
  · simp [Phase.role, roleOf, hnot]
  · have hflush : l.dir.flushes j = false := by simp [flushes, hd]
    simp [roleOf, hnot, hchain, hflush]
  · simp [hchain, Directory.Invalidates] at hj
  · rintro rfl
    exact ⟨trivial, rfl⟩

theorem advances (hs : l.apply useMap e = .ok l') (h : Line.Advance useMap calm l g b l') :
    l.Advances useMap calm g b E e := by
  rw [Advances, hs]
  exact h

theorem meets_request (hreq : (l.nodes i).requestFromCache = requests)
    (hs : l.dir.requestQueueIn useMap i requests = .ok s)
    (h : Line.Advance useMap calm l g b ((l.setRequests i s.requestToDir).takeDir s)) :
    l.Advances useMap calm g b E (.request i) :=
  advances (by rw [Line.apply, hreq, hs]; rfl) h

theorem request_recycled (h : l.Fits g b) (hreq : (l.nodes i).requestFromCache = requests)
    (hs : l.dir.requestQueueIn useMap i requests = .ok { dir := l.dir, requestToDir := requests }) :
    l.Advances useMap calm g b E (.request i) := by
  refine meets_request hreq hs ?_
  subst hreq
  simpa [takeDir, setRequests] using .refl h

theorem request_unhandled (hreq : (l.nodes i).requestFromCache = requests)
    (hs : l.dir.requestQueueIn useMap i requests = .error invalidTransition)
    (hE : E invalidTransition) :
    l.Advances useMap calm g b E (.request i) := by
  rw [Advances, Line.apply, hreq, hs]
  exact hE

theorem request_getx (h : l.Fits g b) (hp : g.phase i = .asked) :
    l.Advances useMap calm g b E (.request i) := by
  have hnode := h.nodes i
  rw [hp] at hnode
  have hreq := hnode.controls.2
  obtain ⟨dir, chain, stage, hd, hc, hst, hdir⟩ := h.inDir
  cases hdir with
  | I hb =>
    rw [← hst] at hb
    exact meets_request hreq (by rw [hd]; rfl) (h.grant hp hc hb hd)
  | M hb hlast =>
    rw [← hst] at hb
    rw [← hc] at hlast
    exact meets_request hreq (by rw [hd]; rfl) (h.append hp hlast hb hd)
  | IM | M_DRD | M_DWR | M_DRDI | M_DWRI | MI | ID | ID_W =>
      exact h.request_recycled hreq (by rw [hd]; rfl)

end Line.Fits

def Line.Unhandled (l : Line) : LineEvent → Prop
  | .request i => l.dir.entry.directoryState.Recalls ∧ i ∉ l.dir.entry.owner ∧
      ∃ dataBlk, (l.nodes i).requestFromCache = [.PUTX dataBlk]
  | .dmaRequest => l.dir.entry.directoryState = .M_DRDI
  | _ => False

namespace Line.Fits

variable {useMap : Bool} {calm : Prop} {l : Line} {g : Account} {b : DataBlock}
  {i : Nat} {d : DataBlock} {stage : DMAStage} {ops : List LineOp} {q : List DMARequestMsg}
  {r : List DMAResponseMsg} {w : Write}

variable (h : l.Fits g b)
include h

theorem request_evicting (hp : g.phase i = .evicting)
    (hE : l.Unhandled (.request i) → E invalidTransition) :
    l.Advances useMap calm g b E (.request i) := by
  have hnode := h.nodes i
  rw [hp] at hnode
  obtain ⟨-, -, -, hreq⟩ := hnode.controls
  have hmem : i ∈ g.chain := h.mem_chain.mpr (by simp [hp, Phase.role])
  obtain ⟨hhead, hIM⟩ := h.head_of_holding (i := i) (by simp [hp, Phase.role])
  have hreads := h.reads
  have hsingle : g.chain.getLast? = some i → g.chain = [i] := eq_singleton h.nodup hhead
  obtain ⟨dir, chain, stage, hd, hc, hst, hdir⟩ := h.inDir
  rw [hd] at hreads hIM
  cases hdir with
  | IM => exact absurd rfl hIM
  | I | M_DRDI | M_DWRI | MI | ID | ID_W => simp [hc] at hmem
  | M hb hlast =>
    rename_i q r o d
    rw [← hst] at hb
    rw [← hc] at hlast
    rcases eq_or_ne i o with rfl | hne
    · refine meets_request hreq
        (by rw [hd, requestQueueIn_putx (by simp)]; rfl)
          (h.flush hp (hsingle hlast) (.MI hb) rfl ?_ rfl ?_ ?_ ?_)
      · simpa using hreads
      · exact ⟨trivial, rfl⟩
      · simp
      · simp
    · have hnext : successor g.chain i ≠ none :=
        successor_ne_none hmem fun heq => hne (Option.some.inj (heq.symm.trans hlast))
      refine meets_request hreq (s := { dir := l.dir, forwards := [({i}, .WB_NACK)] })
        (by rw [hd, requestQueueIn_putx_notOwner (by simpa using hne)]; rfl)
        (h.refuse_putx (hnode.refuse (.inl ⟨rfl, rfl⟩)) (.inl ⟨hp, rfl, hnext⟩) (by simp [hd]))
  | M_DRD hlast =>
    rename_i o d w
    rw [← hc] at hlast
    rcases eq_or_ne i o with rfl | hne
    · refine meets_request hreq
        (by rw [hd, requestQueueIn_putx (by simp)]; rfl)
          (h.flush hp (hsingle hlast) (.M_DRDI .data) rfl ?_ ?_ ?_ ?_ ?_)
      · simpa [pendingReads, LineOp.dmaValue] using hreads
      · rw [hst]; rfl
      · exact ⟨⟨rfl, trivial⟩, rfl⟩
      · simp
      · simp [hd]
    · exact request_unhandled hreq (by rw [hd, requestQueueIn_putx_notOwner (by simpa using hne)]; rfl)
        (hE ⟨by simp [hd], by simpa [hd] using hne, b, hreq⟩)
  | M_DWR hlast =>
    rename_i o d w
    rw [← hc] at hlast
    rcases eq_or_ne i o with rfl | hne
    · refine meets_request hreq
        (by rw [hd, requestQueueIn_putx (by simp)]; rfl)
          (h.flush hp (hsingle hlast) .M_DWRI rfl ?_ ?_ ?_ ?_ ?_)
      · simpa using hreads
      · rw [hst]
      · exact ⟨trivial, rfl⟩
      · simp
      · simp [hd]
    · exact request_unhandled hreq (by rw [hd, requestQueueIn_putx_notOwner (by simpa using hne)]; rfl)
        (hE ⟨by simp [hd], by simpa [hd] using hne, b, hreq⟩)

theorem request_stale (hp : g.phase i = .stale) (hE : l.Unhandled (.request i) → E invalidTransition) :
    l.Advances useMap calm g b E (.request i) := by
  have hnode := h.nodes i
  rw [hp] at hnode
  obtain ⟨-, -, -, x, hreq⟩ := hnode.controls
  have hi : i ∉ g.chain := by simp [h.mem_chain, hp, Phase.role]
  obtain ⟨dir, chain, stage, hd, hc, hst, hdir⟩ := h.inDir
  have hne : ∀ o, chain.getLast? = some o → i ≠ o := fun o hlast heq =>
    hi (by rw [hc, heq]; exact mem_of_getLast? hlast)
  have hunhandled : dir.entry.directoryState.Recalls → i ∉ dir.entry.owner → E invalidTransition :=
    fun hrecalls howner => hE ⟨by rwa [hd], by rwa [hd], x, hreq⟩
  have hnack : ¬ dir.entry.directoryState.Recalls →
      l.dir.requestQueueIn useMap i [.PUTX x] = .ok { dir := l.dir, forwards := [({i}, .WB_NACK)] } →
      l.Advances useMap calm g b E (.request i) := fun hrecalls hs =>
    meets_request hreq hs (h.refuse_putx (hnode.refuse (.inr ⟨rfl, rfl⟩))
      (.inr ⟨hp, rfl⟩) (by rwa [hd]))
  cases hdir with
  | I hb =>
    rw [← hst] at hb
    exact meets_request hreq (by rw [hd, requestQueueIn_putx_notOwner (by simp)]; rfl)
      (h.refuse_idle hp hc hb hd)
  | M hb hlast =>
    exact hnack (by simp)
      (by rw [hd, requestQueueIn_putx_notOwner (by simpa using hne _ hlast)]; rfl)
  | IM =>
    exact h.request_recycled hreq
      (by rw [hd, requestQueueIn_putx_notOwner (by simpa using hne _ rfl)]; rfl)
  | MI | ID | ID_W =>
    exact h.request_recycled hreq (by rw [hd, requestQueueIn_putx_notOwner (by simp)]; rfl)
  | M_DRD hlast | M_DWR hlast =>
    have howner := hne _ hlast
    exact request_unhandled hreq
      (by rw [hd, requestQueueIn_putx_notOwner (by simpa using howner)]; rfl)
      (hunhandled (by simp) (by simpa using howner))
  | M_DRDI | M_DWRI =>
    exact request_unhandled hreq (by rw [hd, requestQueueIn_putx_notOwner (by simp)]; rfl)
      (hunhandled (by simp) (by simp))

theorem request (hne : l.Admits (.request i)) (hE : l.Unhandled (.request i) → E invalidTransition) :
    l.Advances useMap calm g b E (.request i) := by
  have hc := (h.nodes i).controls
  have hnil : (l.nodes i).requestFromCache = [] → False := fun hnil => by
    simp [Line.Admits, hnil] at hne
  cases hp : g.phase i with
  | asked => exact h.request_getx hp
  | evicting => exact h.request_evicting hp hE
  | stale => exact h.request_stale hp hE
  | out | owned | refused | flushed | acked | nacked =>
    rw [hp] at hc
    exact (hnil hc.2.2.2).elim
  | waiting | arriving =>
    rw [hp] at hc
    exact (hnil hc.2).elim

theorem serve (hchain : g.chain = []) (hdir : DirIn b' [] stage d')
    (hflush : ∀ j, l.dir.flushes j = false) (hflush' : ∀ j, d'.flushes j = false)
    (hreads : l.dmaReads ++ pendingReads d'.dmaResponseFromDir =
      (l.history ++ ops).filterMap LineOp.dmaValue)
    (htype : stage.type = g.stage.type) (hdata : useMap = false → Consistent b ops ∧ b' = latest b ops)
    (hrecalls : ¬ d'.entry.directoryState.Recalls) :
    Line.Advance useMap calm l g b (l.takeDir { dir := d', ops }) := by
  have hnode : InPhase b' (g.phase 0) (g.inv 0) (successor g.chain 0) (l.nodes 0) :=
    (h.nodes 0).block (h.not_holding hchain)
  have hl : l.takeDir { dir := d', ops } = { l with
      nodes := update l.nodes 0 (l.nodes 0), dir := d', history := l.history ++ ops } := by
    simp [takeDir]
  rw [hl]
  rw [hchain] at hnode
  have hrole : ∀ j, d'.roleOf [] j = l.dir.roleOf g.chain j := by
    intro j
    simp [roleOf, hchain, hflush, hflush']
  refine ⟨_, _, h.change (g.phase 0) (g.inv 0) [] stage nodup_nil hdir hnode
    ((h.role 0).trans (hrole 0).symm)
    (fun hinv => ?_) (fun hp => by have := h.refused 0 hp; simp [hchain] at this)
    (.inr fun j _ => h.not_holding hchain)
    (fun j _ => by rw [hchain]) (fun j _ => hrole j) (fun j _ hj => ?_) hreads, htype, ⟨_, rfl, hdata⟩,
    fun _ _ => .of_not_recalls hrecalls⟩
  · have hold := h.inv 0 hinv
    simp only [hchain, Directory.Invalidates, getLast?_nil, reduceCtorEq, false_and,
      or_false] at hold ⊢
    exact hold
  · simp [hchain, Directory.Invalidates] at hj

theorem settle (hchain : g.chain = [])
    (hmem : l.dir.memBuffer = [⟨.MEMORY_WB, some i, x⟩]) (hb : Between stage q r')
    (hreads : l.dmaReads ++ pendingReads r' = (l.history ++ ops).filterMap LineOp.dmaValue)
    (htype : stage.type = g.stage.type) (hdata : Consistent b ops ∧ d = latest b ops) :
    Line.Advance useMap calm l g b (l.takeDir
      { dir := invalidateBlock useMap ⟨⟨.I, d, ∅, ∅⟩, none, [], q, r'⟩
        forwards := [({i}, .WB_ACK)]
        ops }) := by
  obtain ⟨hidle, hnot, hr, hrecalls⟩ := invalidated useMap d hb
  have hflush : l.dir.flushes i = true := by simp [flushes, hmem]
  have hphase : g.phase i = .flushed := by
    have hrole := h.role i
    simp only [roleOf, hchain, not_mem_nil, if_false, hflush, if_true] at hrole
    cases hp : g.phase i <;> simp [hp, Phase.role] at hrole ⊢
  have hnode := h.nodes i
  rw [hphase, hchain, successor_nil] at hnode
  rw [takeDir_forward]
  refine ⟨_, _, h.change .acked (g.inv i) [] stage nodup_nil hidle hnode.answer ?_
    (fun _ => .inr (.inl rfl)) (by rintro ⟨⟩) (.inr fun j _ => h.not_holding hchain)
    (fun j _ => by rw [hchain])
    (fun j hne => ?_) (fun j _ hj => ?_) (by rwa [hr]), htype, ⟨_, rfl, ?_⟩,
    fun _ _ => .of_not_recalls hrecalls⟩
  · simp [Phase.role, roleOf, hnot]
  · have hflush : l.dir.flushes j = false := by simp [flushes, hmem, Ne.symm hne]
    simp [roleOf, hnot, hchain, hflush]
  · simp [hchain, Directory.Invalidates] at hj
  · rintro rfl
    exact hdata

theorem fetch (hchain : g.chain = [i]) (hb : Between g.stage q r)
    (hd : l.dir = ⟨⟨.IM, d, ∅, {i}⟩, none, [⟨.MEMORY_READ, some i, b⟩], q, r⟩) :
    Line.Advance useMap calm l g b
      (l.takeDir { dir := ⟨⟨.M, d, ∅, {i}⟩, none, [], q, r⟩, sent := [(i, b)] }) := by
  have hphase : g.phase i = .waiting := by
    have hrole := h.role i
    simp only [roleOf, hchain, mem_singleton, if_true, hd, ne_eq, not_true_eq_false, and_false,
      if_false] at hrole
    cases hp : g.phase i <;> simp [hp, Phase.role] at hrole ⊢
  have hnode := h.nodes i
  have hinv := h.inv_eq_false (i := i) (.inr (.inl (by rw [hphase]; rfl))) (by simp [hd])
  have hreads := h.reads
  rw [hd] at hreads
  rw [hphase, hchain] at hnode
  refine ⟨_, _, h.change (.arriving .directory) (g.inv i) [i] g.stage (nodup_singleton i) (.M hb rfl)
    (hnode.receive _) (by simp [Phase.role, roleOf]) (by simp [hinv]) (by rintro ⟨⟩) (.inl rfl)
    (fun j _ => by rw [hchain]) (fun j hne => ?_) (fun j _ hj => ?_) (by simpa using hreads), rfl,
    ⟨_, rfl, fun _ => ⟨trivial, rfl⟩⟩, fun _ _ => .of_not_recalls (by simp [takeDir])⟩
  · simp [roleOf, hchain, hne, hd, flushes]
  · simp [Directory.Invalidates, hd] at hj

theorem memory (hne : l.Admits .memory) : l.Advances useMap calm g b E .memory := by
  have hreads := h.reads
  obtain ⟨dir, chain, stage, hd, hc, hst, hdir⟩ := h.inDir
  simp only [Line.Admits, hd] at hne
  rw [hd] at hreads
  cases hdir with
  | I | M | M_DRD | M_DWR => simp at hne
  | IM hb =>
    rw [← hst] at hb
    exact advances (by rw [Line.apply, hd]; rfl) (h.fetch hc hb hd)
  | MI hb =>
    rw [← hst] at hb
    refine advances (by rw [Line.apply, hd]; rfl) ?_
    refine h.settle hc (by rw [hd]) hb (by simpa using hreads) rfl ⟨trivial, ?_⟩
    funext k
    simp [Write.apply, DataBlock.copyPartial]
  | M_DRDI hb =>
    rw [← hst] at hb
    refine advances (by rw [Line.apply, hd]; rfl) ?_
    exact h.settle hc (by rw [hd]) hb (by simpa using hreads) rfl ⟨trivial, rfl⟩
  | M_DWRI =>
    refine advances (by rw [Line.apply, hd]; rfl) ?_
    exact h.settle hc (by rw [hd]) .ack
      (by simpa [pendingReads, filterMap_cons, LineOp.dmaValue] using hreads)
      (by rw [hst]; rfl) ⟨⟨trivial, trivial⟩, rfl⟩
  | ID =>
    refine advances (by rw [Line.apply, hd]; rfl) ?_
    obtain ⟨hidle, hnot, hr, hrecalls⟩ := invalidated useMap b .data
    refine h.serve hc hidle (by simp [hd, flushes]) hnot ?_ (by rw [hst]; rfl) ?_ hrecalls
    · simpa [hr, pendingReads, LineOp.dmaValue] using hreads
    · rintro rfl
      exact ⟨⟨rfl, trivial⟩, rfl⟩
  | ID_W =>
    refine advances (by rw [Line.apply, hd]; rfl) ?_
    obtain ⟨hidle, hnot, hr, hrecalls⟩ := invalidated useMap _ .ack
    refine h.serve hc hidle (by simp [hd, flushes]) hnot ?_ (by rw [hst]; rfl) ?_ hrecalls
    · simpa [hr, pendingReads, filterMap_cons, LineOp.dmaValue] using hreads
    · rintro rfl
      exact ⟨⟨trivial, trivial⟩, rfl⟩

theorem callBack (hlast : g.chain.getLast? = some i) (hd : l.dir = ⟨⟨.M, d, ∅, {i}⟩, none, [], q, []⟩)
    (hdir : DirIn b g.chain (.serving type) ⟨⟨state, d, ∅, {i}⟩, some ⟨state, w⟩, [], [], []⟩)
    (hstate : state = .M_DRD ∨ state = .M_DWR) (htype : g.stage.type = some type)
    (hcalm : calm → g.chain.length ≤ 1 ∧ ∀ j, g.phase j ≠ .stale) :
    Line.Advance useMap calm l g b (l.takeDir
      { dir := ⟨⟨state, d, ∅, {i}⟩, some ⟨state, w⟩, [], [], []⟩, forwards := [({i}, .INV)] }) := by
  obtain ⟨hnext, hinv, hreply⟩ := h.last hlast (by simp [hd])
  have hnode := h.nodes i
  rw [hinv, hnext] at hnode
  have hIM : state ≠ .IM := by rcases hstate with rfl | rfl <;> simp
  have hrole : ∀ j, (Directory.mk ⟨state, d, ∅, {i}⟩ (some ⟨state, w⟩) [] [] []).roleOf g.chain j =
      l.dir.roleOf g.chain j := by
    intro j
    simp [Directory.roleOf, Directory.flushes, hd, hIM]
  have hreads := h.reads
  rw [hd] at hreads
  rw [takeDir_forward]
  refine ⟨_, _, h.change (g.phase i) true g.chain (.serving type) h.nodup hdir ?_
    ((h.role i).trans (hrole i).symm)
    (fun _ => .inr (.inr ⟨hlast, hstate⟩)) (h.refused i) (.inl rfl) (fun _ _ => rfl)
    (fun j _ => hrole j)
    (fun j _ hj => ?_) (by simpa using hreads), htype.symm, ⟨_, rfl, fun _ => ⟨trivial, rfl⟩⟩,
    fun hc _ => ⟨fun _ => ⟨(hcalm hc).1, fun j => ?_⟩, fun _ => by simp⟩⟩
  · rw [hnext]
    exact hnode.invalidate hreply
  · rcases hj with ⟨-, hj | hj⟩ <;> simp [hd] at hj
  · simpa [Account.set] using (hcalm hc).2 j

end Line.Fits

/-- A DMA access finds the line with its owner alone: no other cache has to pass it on or has
a writeback on the way. -/
def Line.Calm (l : Line) : LineEvent → Prop
  | .dmaRequest => l.dir.entry.directoryState = .M → ∀ i, i ∉ l.dir.entry.owner →
      (∀ m, .GETX m ∉ (l.nodes i).forwardToCache) ∧ ∀ dataBlk,
        .PUTX dataBlk ∉ (l.nodes i).requestFromCache
  | _ => True

namespace Line.Fits

variable {l : Line} {g : Account} {b : DataBlock} {i j : Nat}

theorem calm_iff (h : l.Fits g b) (hlast : g.chain.getLast? = some i)
    (howner : l.dir.entry.owner = {i}) (hstate : l.dir.entry.directoryState = .M)
    (hcalm : l.Calm .dmaRequest) :
    g.chain.length ≤ 1 ∧ ∀ j, g.phase j ≠ .stale := by
  have hcalm := hcalm hstate
  rw [howner] at hcalm
  refine ⟨?_, fun j hp => ?_⟩
  · match hc : g.chain with
    | [] | [_] => simp
    | a :: m :: rest =>
      have hnext : successor g.chain a = some m := by rw [hc, successor_cons_self]; rfl
      have hne : a ∉ ({i} : Finset Nat) := by
        rw [Finset.mem_singleton]
        rintro rfl
        rw [successor_of_getLast? h.nodup hlast] at hnext
        simp at hnext
      have hforwards := (h.nodes a).forwards
      rw [hnext] at hforwards
      exact absurd (by simp [hforwards]) ((hcalm a hne).1 m)
  · have hnode := h.nodes j
    rw [hp] at hnode
    obtain ⟨-, -, -, x, hreq⟩ := hnode.controls
    have hne : j ∉ ({i} : Finset Nat) := by
      rw [Finset.mem_singleton]
      rintro rfl
      have hmem := h.mem_chain.mp (mem_of_getLast? hlast)
      simp [hp, Phase.role] at hmem
    exact absurd (by simp [hreq]) ((hcalm j hne).2 x)

theorem dmaRequest (h : l.Fits g b) (hne : l.Admits .dmaRequest)
    (hE : l.Unhandled .dmaRequest → E invalidTransition) (hmap : useMap = true → E notLineAddress) :
    l.Advances useMap (l.Calm .dmaRequest) g b E .dmaRequest := by
  have hreads := h.reads
  obtain ⟨dir, chain, stage, hd, hc, hst, hdir⟩ := h.inDir
  simp only [Line.Admits, hd] at hne
  rw [hd] at hreads
  have hrecycle : dir.dmaRequestQueueIn useMap = .ok { dir } →
      l.Advances useMap (l.Calm .dmaRequest) g b E .dmaRequest := by
    intro hs
    have hl : l.takeDir { dir } = l := by simp [takeDir, ← hd]
    refine advances (by rw [Line.apply, hd, hs]; rfl) ?_
    rw [hl]
    exact .refl h
  cases hdir with
  | M_DRD | M_DWR | M_DWRI | ID | ID_W => simp at hne
  | I hb =>
    cases hb with
    | idle | data | ack => simp at hne
    | @sent type w =>
      have hserve : ∀ d' : Directory, DirIn b [] (.serving type) d' → (∀ j, d'.flushes j = false) →
          d'.dmaResponseFromDir = [] → ¬ d'.entry.directoryState.Recalls →
          Line.Advance useMap (l.Calm .dmaRequest) l g b (l.takeDir { dir := d' }) := by
        intro d' hdir hflush hr hrecalls
        exact h.serve hc hdir (by simp [hd, flushes]) hflush (by simpa [hr] using hreads)
          (by rw [hst]; rfl) (fun _ => ⟨trivial, rfl⟩) hrecalls
      cases type with
      | READ =>
        exact advances (by rw [Line.apply, hd]; rfl) (hserve _ .ID (fun _ => rfl) rfl (by simp))
      | WRITE =>
        exact advances (by rw [Line.apply, hd]; rfl) (hserve _ .ID_W (fun _ => rfl) rfl (by simp))
  | IM hb | MI hb =>
    cases hb with
    | idle | data | ack => simp at hne
    | @sent type w => cases type <;> exact hrecycle rfl
  | M_DRDI hb =>
    cases hb with
    | idle | data | ack => simp at hne
    | @sent type w =>
      have hs : l.dir.dmaRequestQueueIn useMap = .error invalidTransition := by
        rw [hd]
        cases type <;> rfl
      rw [Advances, Line.apply, hs]
      exact hE (by simp [Line.Unhandled, hd])
  | M hb hlast =>
    cases hb with
    | idle | data | ack => simp at hne
    | @sent type w =>
      rw [← hc] at hlast
      have hcalm := h.calm_iff hlast (by rw [hd]) (by rw [hd])
      by_cases hoffset : useMap = true ∧ ¬ w.offset = 0
      · have hs : l.dir.dmaRequestQueueIn useMap = .error notLineAddress := by
          rw [hd, dmaRequestQueueIn_M, if_pos hoffset]
        rw [Advances, Line.apply, hs]
        exact hmap hoffset.1
      · refine advances (by rw [Line.apply, hd, dmaRequestQueueIn_M, if_neg hoffset]; rfl)
          (h.callBack hlast hd ?_ ?_
          (by rw [hst]; rfl) hcalm)
        · cases type with
          | READ => exact .M_DRD hlast
          | WRITE => exact .M_DWR hlast
        · cases type with
          | READ => exact .inl rfl
          | WRITE => exact .inr rfl

theorem apply (h : l.Fits g b) (hadmits : l.Admits e) :
    Meets (Line.Advance useMap (l.Calm e) l g b)
      (fun f => f = invalidTransition ∧ l.Unhandled e ∨ f = notLineAddress ∧ useMap = true)
      (l.apply useMap e) := by
  cases e with
  | makeRequest i request => exact h.makeRequest request
  | mandatory i =>
    obtain ⟨s, p, hs, hstays⟩ := (h.nodes i).mandatoryQueueIn (i := i) hadmits
    exact meets_of_ok ⟨s, hs, .stays h hstays⟩
  | replacement i =>
    obtain ⟨s, p, hs, hstays⟩ := (h.nodes i).replacement (i := i) hadmits
    exact meets_of_ok ⟨s, hs, .stays h hstays⟩
  | forward i => exact h.forward hadmits
  | response source i =>
    obtain ⟨s, p, hs, hstays⟩ := (h.nodes i).responseNetworkIn (i := i) hadmits
    exact meets_of_ok ⟨s, hs, .stays h hstays⟩
  | request i => exact h.request hadmits fun hun => .inl ⟨rfl, hun⟩
  | memory => exact h.memory hadmits
  | dmaRequest => exact h.dmaRequest hadmits (fun hun => .inl ⟨rfl, hun⟩) fun hmap => .inr ⟨rfl, hmap⟩

end Line.Fits

end MIExample

end Gem5
