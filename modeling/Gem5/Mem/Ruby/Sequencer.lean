import Gem5.Mem.Ruby.CacheMemory

/-!
# The sequencer between a processor and its Ruby caches

`mem/ruby/system/Sequencer.cc`: the requests on their way are in two tables by the address of
their line, and are counted. Which table a request belongs to is said once where it is put
in, once more where it is taken out, and in the checks of the two callbacks. Data, locks,
latencies, statistics and the deadlock check are left out.
-/

namespace Gem5

inductive RubyRequestType
  | ld
  | st
  | atomic
  | ifetch
  | io
  | replacement
  | loadLinked
  | storeConditional
  | rmwRead
  | rmwWrite
  | lockedRMWRead
  | lockedRMWWrite
  | commit
  | null
  | flush
  deriving DecidableEq

inductive RequestStatus
  | ready
  | issued
  | bufferFull
  | aliased
  | null
  deriving DecidableEq

structure SequencerPacket where
  id : Nat
  addr : Nat
  isLLSC : Bool := false
  isRead : Bool := false
  isWrite : Bool := false
  isFlush : Bool := false
  isLocked : Bool := false
  isInstFetch : Bool := false
  storeCheck : Bool := false
  deriving DecidableEq

structure SequencerRequest where
  pkt : SequencerPacket
  type : RubyRequestType
  deriving DecidableEq

inductive SequencerMode
  | normal
  | warmup
  | cooldown
  deriving DecidableEq

structure Sequencer where
  blockSizeBits : Nat
  maxOutstandingRequests : Nat
  /-- Which instruction set is built: only that of x86 has the check for stores. -/
  x86 : Bool
  mode : SequencerMode := .normal
  outstandingCount : Nat := 0
  writeRequestTable : List (Nat × SequencerRequest) := []
  readRequestTable : List (Nat × SequencerRequest) := []
  mandatoryQueue : List (SequencerPacket × RubyRequestType) := []
  answered : List SequencerPacket := []
  deleted : List SequencerPacket := []

open Lib List Sequencer

namespace Sequencer

variable (s : Sequencer)

def line (addr : Nat) : Nat := Ruby.lineAddress s.blockSizeBits addr

def has (table : List (Nat × SequencerRequest)) (line : Nat) : Bool := table.any (·.1 == line)

def erase (table : List (Nat × SequencerRequest)) (line : Nat) : List (Nat × SequencerRequest) :=
  table.filter (·.1 != line)

/-- The types that `insertRequest` puts into the table of writes. -/
def insertsWrite (type : RubyRequestType) : Bool :=
  type == .st || type == .rmwRead || type == .rmwWrite || type == .loadLinked ||
    type == .storeConditional ||
    type == .lockedRMWRead || type == .lockedRMWWrite || type == .flush

/-- The types that `removeRequest` takes out of it. -/
def removesWrite (type : RubyRequestType) : Bool :=
  type == .st || type == .rmwRead || type == .rmwWrite || type == .loadLinked ||
    type == .storeConditional ||
    type == .lockedRMWRead || type == .lockedRMWWrite

def writeCallbackTakes (type : RubyRequestType) : Bool :=
  type == .st || type == .atomic || type == .rmwRead || type == .rmwWrite || type == .loadLinked ||
    type == .storeConditional ||
    type == .lockedRMWRead || type == .lockedRMWWrite || type == .flush

def readCallbackTakes (type : RubyRequestType) : Bool := type == .ld || type == .ifetch

def checkCount : Chk Unit :=
  ensure (s.outstandingCount == s.writeRequestTable.length + s.readRequestTable.length)
    "m_outstanding_count == m_writeRequestTable.size() + m_readRequestTable.size()"

def insertRequest (pkt : SequencerPacket) (type : RubyRequestType) :
    Chk (RequestStatus × Sequencer) := do
  s.checkCount
  let lineAddr := s.line pkt.addr
  let entry := (lineAddr, { pkt, type : SequencerRequest })
  if insertsWrite type then
    if has s.readRequestTable lineAddr then return (.aliased, s)
    if has s.writeRequestTable lineAddr then return (.aliased, s)
    let s := { s with writeRequestTable := s.writeRequestTable ++ [entry],
                      outstandingCount := s.outstandingCount + 1 }
    s.checkCount
    return (.ready, s)
  else
    if has s.writeRequestTable lineAddr then return (.aliased, s)
    if has s.readRequestTable lineAddr then return (.aliased, s)
    let s := { s with readRequestTable := s.readRequestTable ++ [entry],
                      outstandingCount := s.outstandingCount + 1 }
    s.checkCount
    return (.ready, s)

def markRemoved : Chk Sequencer := do
  let s := { s with outstandingCount := s.outstandingCount - 1 }
  s.checkCount
  return s

def removeRequest (request : SequencerRequest) : Chk Sequencer := do
  s.checkCount
  let lineAddr := s.line request.pkt.addr
  if removesWrite request.type then
    markRemoved { s with writeRequestTable := erase s.writeRequestTable lineAddr }
  else markRemoved { s with readRequestTable := erase s.readRequestTable lineAddr }

def hitCallback (request : SequencerRequest) : Sequencer :=
  match s.mode with
  | .normal => { s with answered := s.answered ++ [request.pkt] }
  | .warmup | .cooldown => { s with deleted := s.deleted ++ [request.pkt] }

def writeCallback (address : Nat) : Chk Sequencer := do
  ensure (address == s.line address) "address == line_address(address)"
  let entry ← need (s.writeRequestTable.find? (·.1 == address))
    (.assertion "m_writeRequestTable.count(line_address(address))")
  let s ← markRemoved { s with writeRequestTable := erase s.writeRequestTable address }
  ensure (writeCallbackTakes entry.2.type) "request->m_type == RubyRequestType_ST || ..."
  return s.hitCallback entry.2

def readCallback (address : Nat) : Chk Sequencer := do
  ensure (address == s.line address) "address == line_address(address)"
  let entry ← need (s.readRequestTable.find? (·.1 == address))
    (.assertion "m_readRequestTable.count(line_address(address))")
  let s ← markRemoved { s with readRequestTable := erase s.readRequestTable address }
  ensure (readCallbackTakes entry.2.type)
    "request->m_type == RubyRequestType_LD || request->m_type == RubyRequestType_IFETCH"
  return s.hitCallback entry.2

def translate (pkt : SequencerPacket) : Chk (RubyRequestType × RubyRequestType) :=
  if pkt.isLLSC then
    if pkt.isWrite then return (.storeConditional, .atomic)
    else do
      ensure pkt.isRead "pkt->isRead()"
      return (.loadLinked, .atomic)
  else if pkt.isLocked then
    if pkt.isWrite then return (.lockedRMWWrite, .st)
    else do
      ensure pkt.isRead "pkt->isRead()"
      return (.lockedRMWRead, .st)
  else if pkt.isRead then
    if pkt.isInstFetch then return (.ifetch, .ifetch)
    else if s.x86 && pkt.storeCheck then return (.rmwRead, .st)
    else return (.ld, .ld)
  else if pkt.isWrite then return (.st, .st)
  else if pkt.isFlush then return (.flush, .flush)
  else .error (.panic "Unsupported ruby packet type\n")

def issueRequest (pkt : SequencerPacket) (secondaryType : RubyRequestType) : Sequencer :=
  { s with mandatoryQueue := s.mandatoryQueue ++ [(pkt, secondaryType)] }

def makeRequest (pkt : SequencerPacket) : Chk (RequestStatus × Sequencer) := do
  if s.maxOutstandingRequests ≤ s.outstandingCount then return (.bufferFull, s)
  let types ← s.translate pkt
  let r ← s.insertRequest pkt types.1
  if r.1 != .ready then return r
  return (.issued, r.2.issueRequest pkt types.2)

end Sequencer

/-- A sequencer, the requests that are on their way by the address of their line, and the
packets that should have been answered and deleted. -/
structure SequencerWorld where
  seq : Sequencer
  pending : List (Nat × SequencerRequest) := []
  answered : List SequencerPacket := []
  deleted : List SequencerPacket := []

inductive SequencerEvent
  | makeRequest (pkt : SequencerPacket)
  | readCallback (address : Nat)
  | writeCallback (address : Nat)
  | removeRequest (address : Nat)
  | setMode (mode : SequencerMode)

namespace SequencerWorld

def create (blockSizeBits maxOutstandingRequests : Nat) (x86 : Bool) : SequencerWorld :=
  { seq := { blockSizeBits, maxOutstandingRequests, x86 } }

def request (w : SequencerWorld) (address : Nat) : Option SequencerRequest :=
  (w.pending.find? (·.1 == address)).map Prod.snd

/-- The request of a line is done: its packet is answered, or deleted while the caches are
filled or flushed for a checkpoint. -/
def finish (w : SequencerWorld) (seq : Sequencer) (address : Nat) : SequencerWorld :=
  let pkts := ((w.request address).map (·.pkt)).toList
  match w.seq.mode with
  | .normal => { w with seq, pending := erase w.pending address, answered := w.answered ++ pkts }
  | .warmup | .cooldown =>
      { w with seq, pending := erase w.pending address, deleted := w.deleted ++ pkts }

def apply (w : SequencerWorld) : SequencerEvent → Chk SequencerWorld
  | .makeRequest pkt => do
    let r ← w.seq.makeRequest pkt
    if r.1 = .issued then
      let types ← w.seq.translate pkt
      return { w with
        seq := r.2, pending := w.pending ++ [(w.seq.line pkt.addr, { pkt, type := types.1 })] }
    else return { w with seq := r.2 }
  | .readCallback address => do return w.finish (← w.seq.readCallback address) address
  | .writeCallback address => do return w.finish (← w.seq.writeCallback address) address
  | .removeRequest address => do
    let request ← need (w.request address) (.undefined "request")
    return { w with seq := ← w.seq.removeRequest request, pending := erase w.pending address }
  | .setMode mode => return { w with seq := { w.seq with mode } }

def Supported (pkt : SequencerPacket) : Prop :=
  pkt.isRead = true ∨ pkt.isWrite = true ∨ pkt.isLLSC = false ∧ pkt.isLocked = false ∧
    pkt.isFlush = true

def Admits (w : SequencerWorld) : SequencerEvent → Prop
  | .makeRequest pkt => Supported pkt
  | .readCallback address => ∃ r ∈ w.request address, insertsWrite r.type = false
  | .writeCallback address => ∃ r ∈ w.request address, insertsWrite r.type = true
  | .removeRequest address => (w.request address).isSome
  | .setMode _ => True

/-- No request to flush a line is taken out by `removeRequest`. -/
def Removable (w : SequencerWorld) : SequencerEvent → Prop
  | .removeRequest address => ∀ r ∈ w.request address, r.type ≠ .flush
  | _ => True

structure Exact (w : SequencerWorld) : Prop where
  count : w.seq.outstandingCount = w.seq.writeRequestTable.length + w.seq.readRequestTable.length
  bounded : w.seq.outstandingCount ≤ w.seq.maxOutstandingRequests
  apart : ((w.seq.writeRequestTable ++ w.seq.readRequestTable).map Prod.fst).Nodup
  tables : (w.seq.writeRequestTable ++ w.seq.readRequestTable).Perm w.pending
  answered : w.seq.answered = w.answered
  deleted : w.seq.deleted = w.deleted

variable {w w' : SequencerWorld} {table : List (Nat × SequencerRequest)}
  {e : Nat × SequencerRequest} {address : Nat} {pkt : SequencerPacket}

theorem has_iff : has table address = true ↔ ∃ e ∈ table, e.1 = address := by
  simp [has]

section

variable (hnodup : (table.map Prod.fst).Nodup)

include hnodup

theorem find_of_mem (he : e ∈ table) : table.find? (·.1 == e.1) = some e := by
  induction table with
  | nil => nomatch he
  | cons x table ih =>
    obtain ⟨hx, hnodup⟩ := nodup_cons.mp hnodup
    rcases mem_cons.mp he with rfl | he
    · simp
    · have hne : x.1 ≠ e.1 := fun heq => hx (heq ▸ mem_map_of_mem he)
      rw [List.find?_cons_of_neg (by simpa using hne)]
      exact ih hnodup he

omit hnodup in
theorem erase_of_not_has (h : ∀ x ∈ table, x.1 ≠ address) : erase table address = table :=
  filter_eq_self.mpr fun x hx => by simpa using h x hx

theorem cons_erase_perm (he : e ∈ table) : (e :: erase table e.1).Perm table := by
  induction table with
  | nil => nomatch he
  | cons x table ih =>
    obtain ⟨hx, hnodup⟩ := nodup_cons.mp hnodup
    rcases mem_cons.mp he with rfl | he
    · have hrest : erase table e.1 = table :=
        erase_of_not_has fun y hy heq => hx (heq ▸ mem_map_of_mem hy)
      rw [erase, filter_cons_of_neg (by simp), ← erase, hrest]
    · have hne : x.1 ≠ e.1 := fun heq => hx (heq ▸ mem_map_of_mem he)
      rw [erase, filter_cons_of_pos (by simpa using hne), ← erase]
      exact (List.Perm.swap x e _).trans ((ih hnodup he).cons x)

omit hnodup in
theorem filter_erase : (erase table address).filter p = erase (table.filter p) address := by
  rw [erase, erase, filter_comm]

theorem filter_erase_of_mem (he : e ∈ table) (hp : p e = false) :
    (erase table e.1).filter p = table.filter p := by
  rw [filter_erase]
  refine erase_of_not_has fun x hx heq => ?_
  obtain ⟨hx, hpx⟩ := mem_filter.mp hx
  have hsame : x = e := by
    have hfind := find_of_mem hnodup hx
    rw [heq, find_of_mem hnodup he] at hfind
    exact (Option.some.inj hfind).symm
  rw [hsame, hp] at hpx
  nomatch hpx

end

def Known (type : RubyRequestType) : Prop := insertsWrite type = true ∨ readCallbackTakes type = true

theorem Known.write (h : insertsWrite type = true) : writeCallbackTakes type = true := by
  cases type <;> first | rfl | nomatch h

theorem Known.read (hknown : Known type) (h : insertsWrite type = false) :
    readCallbackTakes type = true :=
  hknown.resolve_left (by rw [h]; exact Bool.false_ne_true)

theorem removesWrite_eq (h : type ≠ .flush) : removesWrite type = insertsWrite type := by
  cases type <;> first | rfl | exact absurd rfl h

structure Inv (w : SequencerWorld) : Prop where
  writes : w.seq.writeRequestTable = w.pending.filter fun e => insertsWrite e.2.type
  reads : w.seq.readRequestTable = w.pending.filter fun e => !insertsWrite e.2.type
  count : w.seq.outstandingCount = w.pending.length
  nodup : (w.pending.map Prod.fst).Nodup
  bounded : w.pending.length ≤ w.seq.maxOutstandingRequests
  keys : ∀ e ∈ w.pending, e.1 = w.seq.line e.2.pkt.addr
  known : ∀ e ∈ w.pending, Known e.2.type
  answered : w.seq.answered = w.answered
  deleted : w.seq.deleted = w.deleted

theorem tables_perm (pending : List (Nat × SequencerRequest)) :
    ((pending.filter fun e => insertsWrite e.2.type) ++ pending.filter fun e =>
      !insertsWrite e.2.type).Perm pending :=
  filter_append_perm _ pending

section

variable (h : w.Inv)

include h

theorem Inv.checkCount : w.seq.checkCount = .ok () := by
  have hlength := (tables_perm w.pending).length_eq
  rw [length_append] at hlength
  rw [Sequencer.checkCount, h.writes, h.reads, h.count, hlength]
  exact ensure_of (by simp) _

theorem Inv.exact : w.Exact where
  count := by
    have hlength := (tables_perm w.pending).length_eq
    rw [length_append] at hlength
    rw [h.count, h.writes, h.reads, hlength]
  bounded := h.count ▸ h.bounded
  apart := by
    rw [h.writes, h.reads]
    exact ((tables_perm w.pending).map Prod.fst).nodup_iff.mpr h.nodup
  tables := by
    rw [h.writes, h.reads]
    exact tables_perm w.pending
  answered := h.answered
  deleted := h.deleted

omit h in
theorem create_inv (blockSizeBits maxOutstandingRequests : Nat) (x86 : Bool) :
    (create blockSizeBits maxOutstandingRequests x86).Inv :=
  ⟨rfl, rfl, rfl, nodup_nil, Nat.zero_le _, forall_mem_nil _, forall_mem_nil _, rfl, rfl⟩

theorem Inv.request_mem (hr : w.request address = some r) :
    (address, r) ∈ w.pending ∧ w.seq.line r.pkt.addr = address := by
  obtain ⟨e, he, rfl⟩ := Option.map_eq_some_iff.mp hr
  have hkey : e.1 = address := by simpa using List.find?_some he
  have hmem := mem_of_find?_eq_some he
  exact ⟨hkey ▸ hmem, hkey ▸ (h.keys e hmem).symm⟩

def without (w : SequencerWorld) (address : Nat) : Sequencer := { w.seq with
  writeRequestTable := (erase w.pending address).filter fun e => insertsWrite e.2.type
  readRequestTable := (erase w.pending address).filter fun e => !insertsWrite e.2.type
  outstandingCount := (erase w.pending address).length }

theorem Inv.length_erase (hmem : (address, r) ∈ w.pending) :
    (erase w.pending address).length + 1 = w.pending.length := (cons_erase_perm h.nodup hmem).length_eq

omit h in
theorem without_checkCount : (w.without address).checkCount = .ok () := by
  have hlength := (tables_perm (erase w.pending address)).length_eq
  rw [length_append] at hlength
  exact ensure_of (by simpa [without] using hlength.symm) _

theorem Inv.markRemoved {s : Sequencer} (hmem : (address, r) ∈ w.pending)
    (hcount : s.outstandingCount = w.seq.outstandingCount)
    (htables : { s with outstandingCount := (erase w.pending address).length } = w.without address) :
    s.markRemoved = .ok (w.without address) := by
  have hone : s.outstandingCount - 1 = (erase w.pending address).length := by
    rw [hcount, h.count, ← h.length_erase hmem, Nat.add_sub_cancel]
  rw [Sequencer.markRemoved, hone]
  rw [htables, without_checkCount, ok_bind]
  rfl

theorem Inv.markRemoved_write (hmem : (address, r) ∈ w.pending) (hr : insertsWrite r.type = true) :
    Sequencer.markRemoved { w.seq with
      writeRequestTable := erase w.seq.writeRequestTable address } = .ok (w.without address) := by
  refine h.markRemoved hmem rfl ?_
  rw [without, filter_erase, ← h.writes, filter_erase_of_mem h.nodup hmem (by simp [hr]), ← h.reads]

theorem Inv.markRemoved_read (hmem : (address, r) ∈ w.pending) (hr : insertsWrite r.type = false) :
    Sequencer.markRemoved { w.seq with
      readRequestTable := erase w.seq.readRequestTable address } = .ok (w.without address) := by
  refine h.markRemoved hmem rfl ?_
  rw [without, filter_erase_of_mem h.nodup hmem hr, ← h.writes, filter_erase, ← h.reads]

theorem Inv.without (hmem : (address, r) ∈ w.pending) :
    Inv { w with seq := w.without address, pending := erase w.pending address } := by
  have hlength := h.length_erase hmem
  have hbounded := h.bounded
  exact ⟨rfl, rfl, rfl, h.nodup.sublist (filter_sublist.map _), by
    dsimp only [SequencerWorld.without]; omega, fun e he => h.keys e (mem_of_mem_filter he),
    fun e he => h.known e (mem_of_mem_filter he), h.answered, h.deleted⟩

theorem Inv.finish (hr : w.request address = some r) :
    (w.finish ((w.without address).hitCallback r) address).Inv := by
  have hinv := h.without (h.request_mem hr).1
  have hanswered := h.answered
  have hdeleted := h.deleted
  rw [SequencerWorld.finish, hr, hitCallback, show (w.without address).mode = w.seq.mode from rfl]
  cases w.seq.mode with
  | normal => exact { hinv with answered := congrArg (· ++ [r.pkt]) hanswered, deleted := hdeleted }
  | warmup | cooldown => exact { hinv with
      answered := hanswered, deleted := congrArg (· ++ [r.pkt]) hdeleted }

omit h in
theorem line_line (s : Sequencer) (addr : Nat) : s.line (s.line addr) = s.line addr := by
  rw [Sequencer.line, Sequencer.line, Ruby.lineAddress, Ruby.lineAddress]
  split
  · rfl
  · rw [Nat.shiftLeft_shiftRight]

theorem Inv.find_pending (hmem : (address, r) ∈ w.pending) (hp : f (address, r) = true) :
    (w.pending.filter f).find? (·.1 == address) = some (address, r) :=
  find_of_mem (e := (address, r)) (h.nodup.sublist (filter_sublist.map _)) (mem_filter.mpr ⟨hmem, hp⟩)

theorem Inv.writeCallback (hr : w.request address = some r) (htype : insertsWrite r.type = true) :
    w.seq.writeCallback address = .ok ((w.without address).hitCallback r) := by
  obtain ⟨hmem, hline⟩ := h.request_mem hr
  rw [Sequencer.writeCallback, ensure_of (by rw [← hline, line_line]; simp), ok_bind, h.writes,
    h.find_pending hmem htype, ← h.writes]
  dsimp only [need]
  rw [ok_bind, h.markRemoved_write hmem htype, ok_bind, ensure_of (Known.write htype), ok_bind]
  rfl

theorem Inv.readCallback (hr : w.request address = some r) (htype : insertsWrite r.type = false) :
    w.seq.readCallback address = .ok ((w.without address).hitCallback r) := by
  obtain ⟨hmem, hline⟩ := h.request_mem hr
  rw [Sequencer.readCallback, ensure_of (by rw [← hline, line_line]; simp), ok_bind, h.reads,
    h.find_pending hmem (by simp [htype]), ← h.reads]
  dsimp only [need]
  rw [ok_bind, h.markRemoved_read hmem htype, ok_bind,
    ensure_of (Known.read (h.known _ hmem) htype), ok_bind]
  rfl

theorem Inv.removeRequest (hr : w.request address = some r) (hflush : r.type ≠ .flush) :
    w.seq.removeRequest r = .ok (w.without address) := by
  obtain ⟨hmem, hline⟩ := h.request_mem hr
  rw [Sequencer.removeRequest, h.checkCount, ok_bind]
  rw [hline, removesWrite_eq hflush]
  cases htype : insertsWrite r.type with
  | true => exact h.markRemoved_write hmem htype
  | false => exact h.markRemoved_read hmem htype

omit h in
theorem translate_spec (s : Sequencer) (h : Supported pkt) :
    ∃ types, s.translate pkt = .ok types ∧ Known types.1 := by
  rw [Sequencer.translate]
  -- whatever is not a write is a read where the source asserts so
  have hread : pkt.isWrite = false → pkt.isLLSC = true ∨ pkt.isLocked = true → pkt.isRead = true := by
    intro hwrite hspecial
    rcases h with hread | hwrite' | ⟨hllsc, hlocked, -⟩
    · exact hread
    · rw [hwrite] at hwrite'
      nomatch hwrite'
    · rw [hllsc, hlocked] at hspecial
      simp at hspecial
  cases hllsc : pkt.isLLSC with
  | true =>
    cases hwrite : pkt.isWrite with
    | true => exact ⟨_, rfl, .inl rfl⟩
    | false => exact ⟨_, by rw [hread hwrite (.inl hllsc)]; rfl, .inl rfl⟩
  | false =>
    cases hlocked : pkt.isLocked with
    | true =>
      cases hwrite : pkt.isWrite with
      | true => exact ⟨_, rfl, .inl rfl⟩
      | false => exact ⟨_, by rw [hread hwrite (.inr hlocked)]; rfl, .inl rfl⟩
    | false =>
      cases hread' : pkt.isRead with
      | true =>
        cases pkt.isInstFetch with
        | true => exact ⟨_, rfl, .inr rfl⟩
        | false =>
          cases s.x86 && pkt.storeCheck with
          | true => exact ⟨_, rfl, .inl rfl⟩
          | false => exact ⟨_, rfl, .inr rfl⟩
      | false =>
        cases hwrite : pkt.isWrite with
        | true => exact ⟨_, rfl, .inl rfl⟩
        | false =>
          have hflush : pkt.isFlush = true := by
            simpa [Supported, hread', hwrite, hllsc, hlocked] using h
          rw [hflush]
          exact ⟨_, rfl, .inl rfl⟩

omit h in
theorem has_filter (table : List (Nat × SequencerRequest))
    (p : Nat × SequencerRequest → Bool) (address : Nat) :
    (has (table.filter p) address || has (table.filter fun e => !p e) address) =
      has table address := by
  rw [Bool.eq_iff_iff, Bool.or_eq_true, has_iff, has_iff, has_iff]
  constructor
  · rintro (⟨e, he, hkey⟩ | ⟨e, he, hkey⟩)
    · exact ⟨e, mem_of_mem_filter he, hkey⟩
    · exact ⟨e, mem_of_mem_filter he, hkey⟩
  · rintro ⟨e, he, hkey⟩
    cases hp : p e with
    | true => exact .inl ⟨e, mem_filter.mpr ⟨he, hp⟩, hkey⟩
    | false => exact .inr ⟨e, mem_filter.mpr ⟨he, by simp [hp]⟩, hkey⟩

def extended (w : SequencerWorld) (e : Nat × SequencerRequest) : Sequencer := { w.seq with
  writeRequestTable := (w.pending ++ [e]).filter fun e => insertsWrite e.2.type
  readRequestTable := (w.pending ++ [e]).filter fun e => !insertsWrite e.2.type
  outstandingCount := (w.pending ++ [e]).length }

omit h in
theorem extended_checkCount : (w.extended e).checkCount = .ok () := by
  have hlength := (tables_perm (w.pending ++ [e])).length_eq
  rw [length_append] at hlength
  exact ensure_of (by rw [extended, hlength]; simp) _

theorem Inv.extended_eq (e : Nat × SequencerRequest) : w.extended e = if insertsWrite e.2.type then
      { w.seq with writeRequestTable := w.seq.writeRequestTable ++ [e],
                   outstandingCount := w.seq.outstandingCount + 1 }
    else { w.seq with readRequestTable := w.seq.readRequestTable ++ [e],
                      outstandingCount := w.seq.outstandingCount + 1 } := by
  cases htype : insertsWrite e.2.type <;> simp [extended, htype, ← h.writes, ← h.reads, h.count]

theorem Inv.insertRequest (pkt : SequencerPacket) (type : RubyRequestType) :
    w.seq.insertRequest pkt type = .ok (if has w.pending (w.seq.line pkt.addr) then (.aliased, w.seq)
      else (.ready, w.extended (w.seq.line pkt.addr, { pkt, type }))) := by
  have hhas := has_filter w.pending (fun e => insertsWrite e.2.type) (w.seq.line pkt.addr)
  rw [← h.writes, ← h.reads] at hhas
  have hcheck := extended_checkCount (w := w) (e := (w.seq.line pkt.addr, { pkt, type }))
  rw [h.extended_eq] at hcheck ⊢
  rw [Sequencer.insertRequest, h.checkCount, ok_bind, ← hhas]
  cases htype : insertsWrite type
  all_goals
    simp only [htype, if_true, Bool.false_eq_true, if_false] at hcheck ⊢
    rw [hcheck]
    cases has w.seq.readRequestTable (w.seq.line pkt.addr) <;>
      cases has w.seq.writeRequestTable (w.seq.line pkt.addr) <;> rfl

theorem Inv.extended (hknown : Known type) (hroom : w.pending.length < w.seq.maxOutstandingRequests)
    (hnew : has w.pending (w.seq.line pkt.addr) = false)
    (queue : List (SequencerPacket × RubyRequestType)) :
    Inv { w with
      seq := { w.extended (w.seq.line pkt.addr, { pkt, type }) with mandatoryQueue := queue }
      pending := w.pending ++ [(w.seq.line pkt.addr, { pkt, type })] } := by
  have hfresh : w.seq.line pkt.addr ∉ w.pending.map Prod.fst := by
    intro hmem
    obtain ⟨e, he, hkey⟩ := mem_map.mp hmem
    rw [has_iff.mpr ⟨e, he, hkey⟩] at hnew
    nomatch hnew
  refine ⟨rfl, rfl, rfl, ?_, ?_, ?_, ?_, h.answered, h.deleted⟩
  · rw [map_append]
    exact nodup_append.mpr ⟨h.nodup, nodup_singleton _, fun a ha b hb => by
      rw [map_singleton, mem_singleton] at hb
      rintro rfl
      have hkey : a = w.seq.line pkt.addr := hb
      exact hfresh (hkey ▸ ha)⟩
  · dsimp only [SequencerWorld.extended]
    rw [length_append, length_singleton]
    exact hroom
  · intro e he
    rcases mem_append.mp he with he | he
    · exact h.keys e he
    · rw [mem_singleton.mp he]
      rfl
  · intro e he
    rcases mem_append.mp he with he | he
    · exact h.known e he
    · rwa [mem_singleton.mp he]

theorem Inv.makeRequest (hpkt : Supported pkt) :
    ∃ w', w.apply (.makeRequest pkt) = .ok w' ∧ w'.Inv := by
  by_cases hfull : w.seq.maxOutstandingRequests ≤ w.seq.outstandingCount
  · refine ⟨w, ?_, h⟩
    rw [apply, Sequencer.makeRequest, if_pos hfull]
    rfl
  · obtain ⟨types, htypes, hknown⟩ := translate_spec w.seq hpkt
    cases hhas : has w.pending (w.seq.line pkt.addr) with
    | true =>
      refine ⟨w, ?_, h⟩
      rw [apply, Sequencer.makeRequest, if_neg hfull, htypes, ok_bind, h.insertRequest, hhas]
      rfl
    | false =>
      rw [h.count] at hfull
      refine ⟨_, ?_, h.extended hknown (not_le.mp hfull) hhas
        (w.seq.mandatoryQueue ++ [(pkt, types.2)])⟩
      rw [apply, Sequencer.makeRequest, h.count, if_neg hfull, htypes, ok_bind, h.insertRequest, hhas]
      rfl

theorem apply_inv (hadmits : w.Admits event) (hremovable : w.Removable event) :
    ∃ w', w.apply event = .ok w' ∧ w'.Inv := by
  cases event with
  | makeRequest pkt => exact h.makeRequest hadmits
  | readCallback address =>
    obtain ⟨r, hr, htype⟩ := hadmits
    refine ⟨_, ?_, h.finish hr⟩
    rw [apply, h.readCallback hr htype, ok_bind]
    rfl
  | writeCallback address =>
    obtain ⟨r, hr, htype⟩ := hadmits
    refine ⟨_, ?_, h.finish hr⟩
    rw [apply, h.writeCallback hr htype, ok_bind]
    rfl
  | removeRequest address =>
    obtain ⟨r, hr⟩ := Option.isSome_iff_exists.mp hadmits
    refine ⟨_, ?_, h.without (h.request_mem hr).1⟩
    rw [apply, hr]
    dsimp only [need]
    rw [ok_bind, h.removeRequest hr (hremovable r hr), ok_bind]
    rfl
  | setMode mode => exact ⟨_, rfl, { h with }⟩

end

/-- After any calls in which `removeRequest` is not used for a flush, the tables are exact,
and no further such call fails an assertion. -/
theorem run_tables_exact {blockSizeBits maxOutstandingRequests : Nat} {x86 : Bool}
    {events : List SequencerEvent} (hrun : Runs (fun w e w' => (w.Admits e ∧ w.Removable e) ∧
      w.apply e = .ok w') (create blockSizeBits maxOutstandingRequests x86) events w) :
    w.Exact ∧ ∀ e, w.Admits e → w.Removable e → ∃ w', w.apply e = .ok w' := by
  have hinv : w.Inv := by
    refine hrun.invariant (create_inv blockSizeBits maxOutstandingRequests x86)
      fun w e w' h hstep => ?_
    exact of_returns (apply_inv h hstep.1.1 hstep.1.2) hstep.2
  refine ⟨hinv.exact, fun e hadmits hremovable => ?_⟩
  obtain ⟨w', heq, -⟩ := apply_inv hinv hadmits hremovable
  exact ⟨w', heq⟩

instance (pkt : SequencerPacket) : Decidable (Supported pkt) :=
  inferInstanceAs (Decidable (_ ∨ _ ∨ _ ∧ _ ∧ _))

instance (w : SequencerWorld) : DecidablePred w.Admits := fun e => by
  rcases e <;> unfold Admits <;> infer_instance

instance (w : SequencerWorld) : DecidablePred w.Removable := fun e => by
  rcases e <;> unfold Removable <;> infer_instance

theorem run_tables_exact_flush : ∃ w, Runs (fun (w : SequencerWorld) e w' =>
    (w.Admits e ∧ w.Removable e) ∧ w.apply e = .ok w') (create 6 2 false) [.makeRequest
    { id := 0, addr := 70, isFlush := true }, .makeRequest { id := 1, addr := 100, isRead := true },
      .makeRequest { id := 2, addr := 200, isRead := true }, .writeCallback 64, .removeRequest 192] w ∧
    w.answered.map (·.id) = [0] ∧ w.pending = [] ∧ w.Exact :=
  (runs_of_play_and (P := fun w => w.answered.map (·.id) = [0] ∧ w.pending = [])
    (fun (w : SequencerWorld) e => w.Admits e ∧ w.Removable e) apply (by decide +kernel)
    fun _ hrun => (run_tables_exact hrun).1).imp fun _ h => ⟨h.1, h.2.1.1, h.2.1.2, h.2.2⟩

/-- A flush is looked for in the wrong table, and the count no longer agrees. -/
theorem removeRequest_of_flush : ∃ w,
    Runs (fun (w : SequencerWorld) e w' => w.Admits e ∧ w.apply e = .ok w') (create 6 2 false)
    [.makeRequest { id := 0, addr := 70, isFlush := true }] w ∧ w.Admits (.removeRequest 64) ∧
    w.apply (.removeRequest 64) =
      .error (.assertion
        "m_outstanding_count == m_writeRequestTable.size() + m_readRequestTable.size()") :=
  runs_of_play Admits apply (by decide +kernel)

end SequencerWorld

end Gem5
