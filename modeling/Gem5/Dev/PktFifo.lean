import Gem5.Base.Types
import Gem5.Lib.Loop
import Gem5.Lib.Run

/-!
# Packet queues of the network devices

`PacketFifo`: packets in a queue with a limit on their bytes. Packets can be removed from
the middle, in which case the packet before keeps their space as its slack. An iterator is
the position of its entry. Checkpoints and the private word of an entry are left out.
-/

namespace Gem5

structure PacketFifoEntry where
  packet : List UInt8
  number : Nat
  slack : Nat := 0
  deriving DecidableEq

structure PacketFifo where
  fifo : List PacketFifoEntry := []
  counter : Nat := 0
  maxsize : Nat
  size : Nat := 0
  reserved : Nat := 0

open Lib List Nat PacketFifo

namespace PacketFifo

def avail (f : PacketFifo) : Nat := unsigned32 (f.maxsize - f.size - f.reserved)

def reserve (f : PacketFifo) (len : Nat) : Chk PacketFifo := do
  let f := { f with reserved := unsigned32 (f.reserved + len) }
  ensure (0 ≤ f.avail) "avail() >= 0"
  return f

def front (f : PacketFifo) : Option (List UInt8) := f.fifo.head?.map (·.packet)

def push (f : PacketFifo) (packet : List UInt8) : Chk (Bool × PacketFifo) := do
  ensure (packet.length != 0) "ptr->length"
  ensure (f.reserved ≤ packet.length) "_reserved <= ptr->length"
  if f.avail < unsigned32 (packet.length - f.reserved) then return (false, f)
  let entry := { packet, number := f.counter }
  return (true, { f with
    size := unsigned32 (f.size + packet.length), counter := wrap64 (f.counter + 1),
      fifo := f.fifo ++ [entry], reserved := 0 })

def pop (f : PacketFifo) : PacketFifo :=
  if f.size = 0 then f
  else
    match f.fifo with
    | [] => f
    | entry :: fifo => { f with size := unsigned32 (f.size - entry.packet.length - entry.slack), fifo }

def clear (f : PacketFifo) : PacketFifo := { f with fifo := [], size := 0, reserved := 0 }

def absorb : List PacketFifoEntry → Nat → List PacketFifoEntry
  | prev :: entry :: rest, 0 =>
      { prev with slack := unsigned32 (prev.slack + entry.packet.length + entry.slack) } :: rest
  | entry :: rest, i + 1 => entry :: absorb rest i
  | rest, _ => rest

def remove (f : PacketFifo) : Nat → PacketFifo
  | i + 1 => { f with fifo := absorb f.fifo i }
  | 0 =>
    match f.fifo with
    | [] => f
    | entry :: fifo => { f with size := unsigned32 (f.size - entry.packet.length - entry.slack), fifo }

structure Copying where
  rest : List PacketFifoEntry
  offset : Nat
  len : Nat
  data : List UInt8 := []

/-- A round of the loop. The packet stays the one of the entry that the round began with,
also where the iterator moves on. -/
def copyRound (c : Copying) : Chk Copying :=
  match c.rest with
  | [] => .error (.undefined "end()->packet")
  | entry :: rest => do
    let pkt := entry.packet
    let skipped := c.offset / pkt.length
    let offset := c.offset % pkt.length
    refuse (rest.length + 1 < skipped) (.undefined "++end()")
    refuse (skipped == rest.length + 1) (.panic "invalid fifo")
    let size := min (pkt.length - offset) c.len
    return { rest := rest.drop skipped, offset := 0, len := c.len - size,
             data := c.data ++ pkt.take size }

def copyout (f : PacketFifo) (offset len : Nat) : Chk (Option (List UInt8)) := do
  if f.size ≤ unsigned32 (offset + len) then return none
  let c ← whileChk (0 < ·.len) copyRound (len + 1) { rest := f.fifo, offset, len }
  return some c.data

def countPacketsBefore (f : PacketFifo) (i : Nat) : Int :=
  match f.fifo[i]?, f.fifo.head? with
  | some entry, some first => int32 (wrap64 (entry.number + 2 ^ 64 - first.number))
  | _, _ => 0

def countPacketsAfter (f : PacketFifo) (i : Nat) : Int :=
  match f.fifo[i]?, f.fifo.getLast? with
  | some entry, some last => int32 (wrap64 (last.number + 2 ^ 64 - entry.number))
  | _, _ => 0

def check (f : PacketFifo) : Chk Unit :=
  let total := f.fifo.foldl (fun (total : Nat) entry =>
    unsigned32 (total + entry.packet.length + entry.slack)) 0
  refuse (total != f.size)
    (.panic ("total (" ++ toString total ++ ") is not == to size (" ++ toString f.size ++ ")\n"))

end PacketFifo

/-- A queue and the packets that should be in it, each with how many were pushed before it. -/
structure PktFifoWorld where
  fifo : PacketFifo
  queue : List (Nat × List UInt8) := []
  pushed : Nat := 0

inductive PktFifoEvent
  | reserve (len : Nat)
  | push (packet : List UInt8)
  | pop
  | remove (i : Nat)
  | clear

namespace PktFifoWorld

def create (max : Nat) : PktFifoWorld := { fifo := { maxsize := max } }

def apply (w : PktFifoWorld) : PktFifoEvent → Chk PktFifoWorld
  | .reserve len => do return { w with fifo := ← w.fifo.reserve len }
  | .push packet => do
    let r ← w.fifo.push packet
    return if r.1 then
      { fifo := r.2, queue := w.queue ++ [(w.pushed, packet)], pushed := w.pushed + 1 }
    else { w with fifo := r.2 }
  | .pop => return { w with fifo := w.fifo.pop, queue := w.queue.tail }
  | .remove i => return { w with fifo := w.fifo.remove i, queue := w.queue.eraseIdx i }
  | .clear => return { w with fifo := w.fifo.clear, queue := [] }

/-- No more is reserved than is left, packets have bytes, and only entries are removed. -/
def Admits (w : PktFifoWorld) : PktFifoEvent → Prop
  | .reserve len => len ≤ w.fifo.avail
  | .push packet => 0 < packet.length ∧ packet.length < 2 ^ 32
  | .remove i => i < w.fifo.fifo.length
  | .pop | .clear => True

instance (w : PktFifoWorld) : DecidablePred w.Admits := fun e => by
  rcases e <;> unfold Admits <;> infer_instance

def room (fifo : List PacketFifoEntry) : Nat :=
  (fifo.map fun entry => entry.packet.length + entry.slack).sum

/-- The packets that were pushed from entry `i` to entry `j` are all in the queue. -/
def Whole (w : PktFifoWorld) (i j : Nat) : Prop :=
  w.queue[j]?.map (·.1) = w.queue[i]?.map (·.1 + (j - i))

instance (w : PktFifoWorld) (i j : Nat) : Decidable (w.Whole i j) :=
  inferInstanceAs (Decidable (_ = _))

/-- The queue is exact. Entries are counted right where none between them was removed, and
bytes are copied right from the start of the queue on, as far as the packets go. -/
structure Exact (w : PktFifoWorld) : Prop where
  size : w.fifo.size = room w.fifo.fifo
  check : w.fifo.check = .ok ()
  fits : w.fifo.size + w.fifo.reserved ≤ w.fifo.maxsize
  order : w.fifo.fifo.map (·.packet) = w.queue.map (·.2)
  front : w.fifo.front = w.queue.head?.map (·.2)
  before : ∀ i < w.queue.length, w.Whole 0 i → w.fifo.countPacketsBefore i = i
  after : ∀ i < w.queue.length, w.Whole i (w.queue.length - 1) →
    w.fifo.countPacketsAfter i = w.queue.length - 1 - i
  copyout : ∀ offset len, offset = 0 ∨ len = 0 → offset + len < w.fifo.size →
    offset + len ≤ (w.queue.map (·.2)).flatten.length →
    w.fifo.copyout offset len = .ok (some (((w.queue.map (·.2)).flatten.drop offset).take len))
  -- nothing that was pushed behind the first packet has been removed
  whole : (∀ first ∈ w.queue.head?, w.pushed = first.1 + w.queue.length) →
    w.fifo.size = (w.queue.map (·.2)).flatten.length

variable {w w' : PktFifoWorld} {e : PktFifoEvent} {entry : PacketFifoEntry}
  {es : List PacketFifoEntry} {i pushed : Nat} {q : List (Nat × List UInt8)}

@[simp] theorem room_cons : room (entry :: es) = entry.packet.length + entry.slack + room es := rfl

theorem room_concat : room (es ++ [entry]) = room es + (entry.packet.length + entry.slack) := by
  rw [room, map_append, sum_append_nat, map_singleton, sum_singleton, room]

theorem room_absorb (hsmall : room es < 2 ^ 32) (hi : i + 1 < es.length) :
    room (PacketFifo.absorb es i) = room es := by
  induction es generalizing i with
  | nil => nomatch hi
  | cons prev es ih =>
    cases i with
    | zero =>
      cases es with
      | nil => simp at hi
      | cons entry es =>
        rw [room_cons, room_cons] at hsmall
        rw [absorb, room_cons, room_cons, room_cons]
        dsimp only
        rw [show (prev.slack + entry.packet.length + entry.slack : Int) =
          (prev.slack + entry.packet.length + entry.slack : Nat) by
          push_cast; rfl, unsigned32_natCast (by omega)]
        omega
    | succ i =>
      rw [room_cons] at hsmall
      rw [absorb, room_cons, room_cons, ih (by omega) (by simpa using hi)]

def next (q : List (Nat × List UInt8)) (pushed : Nat) : Nat := (q.head?.map (·.1)).getD pushed

/-- The entries carry the numbers of their packets, and slack only before a gap. -/
def Tracks (pushed : Nat) : List PacketFifoEntry → List (Nat × List UInt8) → Prop
  | [], [] => True
  | entry :: es, p :: q => (entry.number = wrap64 p.1 ∧ entry.packet = p.2 ∧ p.1 < next q pushed ∧
      (next q pushed = p.1 + 1 → entry.slack = 0)) ∧ Tracks pushed es q
  | _, _ => False

theorem Tracks.packets (h : Tracks pushed es q) : es.map (·.packet) = q.map (·.2) := by
  induction es generalizing q with
  | nil => cases q with
    | nil => rfl
    | cons p q => exact h.elim
  | cons first es ih => cases q with
    | nil => exact h.elim
    | cons p q => rw [map_cons, map_cons, h.1.2.1, ih h.2]

theorem Tracks.length_eq (h : Tracks pushed es q) : es.length = q.length := by
  simpa using congrArg List.length h.packets

theorem Tracks.concat (h : Tracks pushed es q) (hnumber : entry.number = wrap64 pushed)
    (hslack : entry.slack = 0) :
    Tracks (pushed + 1) (es ++ [entry]) (q ++ [(pushed, entry.packet)]) := by
  induction es generalizing q with
  | nil => cases q with
    | nil => exact ⟨⟨hnumber, rfl, pushed.lt_succ_self, fun _ => hslack⟩, trivial⟩
    | cons p q => exact h.elim
  | cons first es ih => cases q with
    | nil => exact h.elim
    | cons p q =>
      have hnext : next (q ++ [(pushed, entry.packet)]) (pushed + 1) = next q pushed := by
        cases q <;> rfl
      rw [cons_append, cons_append, Tracks, hnext]
      exact ⟨h.1, ih h.2⟩

theorem Tracks.absorb (h : Tracks pushed es q) (hi : i + 1 < es.length) :
    Tracks pushed (PacketFifo.absorb es i) (q.eraseIdx (i + 1)) := by
  induction es generalizing i q with
  | nil => nomatch hi
  | cons prev es ih => cases q with
    | nil => exact h.elim
    | cons p q =>
      obtain ⟨⟨hnumber, hpacket, hlt, hslack⟩, hrest⟩ := h
      cases i with
      | zero =>
        cases es with
        | nil => simp at hi
        | cons entry es => cases q with
          | nil => exact hrest.elim
          | cons removed q =>
            -- what comes after the slack is no longer the next packet
            have hnext : removed.1 < next q pushed := hrest.1.2.2.1
            have hlt : p.1 < removed.1 := hlt
            have hgap : next q pushed ≠ p.1 + 1 := by omega
            exact ⟨⟨hnumber, hpacket, hlt.trans hnext, fun heq => absurd heq hgap⟩, hrest.2⟩
      | succ i =>
        have hnext : next (q.eraseIdx (i + 1)) pushed = next q pushed := by cases q <;> rfl
        rw [PacketFifo.absorb, eraseIdx_cons_succ, Tracks, hnext]
        exact ⟨⟨hnumber, hpacket, hlt, hslack⟩, ih hrest (by simpa using hi)⟩

theorem Tracks.number (h : Tracks pushed es q) (hi : es[i]? = some entry) :
    ∃ p, q[i]? = some p ∧ entry.number = wrap64 p.1 := by
  induction es generalizing i q with
  | nil => nomatch hi
  | cons first es ih => cases q with
    | nil => exact h.elim
    | cons p q => cases i with
      | zero =>
        cases hi
        exact ⟨p, rfl, h.1.1⟩
      | succ i =>
        rw [getElem?_cons_succ] at hi ⊢
        exact ih h.2 hi

theorem Tracks.next_le (h : Tracks pushed es q) : next q pushed + q.length ≤ pushed := by
  induction es generalizing q with
  | nil => cases q with
    | nil => exact le_rfl
    | cons p q => exact h.elim
  | cons first es ih => cases q with
    | nil => exact h.elim
    | cons p q =>
      have hlt := h.1.2.2.1
      have hle := ih h.2
      show p.1 + (q.length + 1) ≤ pushed
      omega

theorem Tracks.room (h : Tracks pushed es q) (hall : next q pushed + q.length = pushed) :
    room es = (es.map (·.packet)).flatten.length := by
  induction es generalizing q with
  | nil => rfl
  | cons first es ih => cases q with
    | nil => exact h.elim
    | cons p q =>
      obtain ⟨⟨-, -, hlt, hslack⟩, hrest⟩ := h
      have hle := hrest.next_le
      have hall : p.1 + (q.length + 1) = pushed := hall
      rw [room_cons, hslack (by omega), ih hrest (by omega), map_cons, flatten_cons,
        length_append, add_zero]

theorem length_le_room (hpos : ∀ entry ∈ es, 0 < entry.packet.length) : es.length ≤ room es := by
  induction es with
  | nil => rfl
  | cons first es ih =>
    have hfirst := hpos first mem_cons_self
    have hrest := ih fun entry hentry => hpos entry (mem_cons_of_mem _ hentry)
    rw [length_cons, room_cons]
    omega

structure Inv (w : PktFifoWorld) : Prop where
  small : w.fifo.maxsize < 2 ^ 31
  counter : w.fifo.counter = wrap64 w.pushed
  pos : ∀ entry ∈ w.fifo.fifo, 0 < entry.packet.length
  size : w.fifo.size = room w.fifo.fifo
  fits : w.fifo.size + w.fifo.reserved ≤ w.fifo.maxsize
  tracks : Tracks w.pushed w.fifo.fifo w.queue

theorem Inv.avail (h : w.Inv) : w.fifo.avail = w.fifo.maxsize - w.fifo.size - w.fifo.reserved := by
  have hsmall := h.small
  have hfits := h.fits
  rw [PacketFifo.avail, unsigned32]
  omega

theorem create_inv {max : Nat} (hmax : max < 2 ^ 31) : (create max).Inv where
  small := hmax
  counter := rfl
  pos := forall_mem_nil _
  size := rfl
  fits := Nat.zero_le max
  tracks := trivial

section

variable (h : w.Inv)
include h

theorem reserve_meets (hlen : len ≤ w.fifo.avail) :
    Meets (fun f => Inv { w with fifo := f }) (fun _ => False) (w.fifo.reserve len) := by
  have hsmall := h.small
  have hfits := h.fits
  rw [h.avail] at hlen
  have hreserved : unsigned32 (w.fifo.reserved + len) = w.fifo.reserved + len := by
    rw [unsigned32]
    omega
  rw [reserve, hreserved]
  refine { h with fits := ?_ }
  dsimp only
  omega

theorem push_meets (hpos : 0 < packet.length) (hlen : packet.length < 2 ^ 32) :
    Meets (fun r => Inv (if r.1 then
        { fifo := r.2, queue := w.queue ++ [(w.pushed, packet)], pushed := w.pushed + 1 }
      else { w with fifo := r.2 })) (fun _ => True) (w.fifo.push packet) := by
  have hsmall := h.small
  have hfits := h.fits
  refine (Meets.ensure trivial).bind fun _ _ => (Meets.ensure trivial).bind fun _ hreserved => ?_
  have hreserved : w.fifo.reserved ≤ packet.length := by simpa using hreserved
  rw [h.avail, show unsigned32 (packet.length - w.fifo.reserved) = packet.length -
    w.fifo.reserved by rw [unsigned32]; omega]
  refine Meets.ite (fun _ => .pure ?_) fun hroom => .pure ?_
  · exact h
  · have hsize : unsigned32 (w.fifo.size + packet.length) = w.fifo.size + packet.length := by
      rw [unsigned32]
      omega
    rw [if_pos rfl, hsize]
    refine ⟨h.small, ?_, ?_, ?_, ?_, h.tracks.concat h.counter rfl⟩
    · dsimp only
      rw [h.counter, wrap64, wrap64, wrap64, Nat.mod_add_mod]
    · intro entry hentry
      rcases mem_append.mp hentry with hentry | hentry
      · exact h.pos entry hentry
      · rw [mem_singleton.mp hentry]
        exact hpos
    · dsimp only
      rw [room_concat, h.size, Nat.add_zero]
    · dsimp only
      omega

theorem Inv.dropFirst {fifo : List PacketFifoEntry} (hfifo : w.fifo.fifo = entry :: fifo) :
    Inv { w with
      fifo := { w.fifo with
        size := unsigned32 (w.fifo.size - entry.packet.length - entry.slack), fifo }
      queue := w.queue.tail } := by
  have hsmall := h.small
  have hfits := h.fits
  have hsize := h.size
  have htracks := h.tracks
  rw [hfifo, room_cons] at hsize
  rw [hfifo] at htracks
  have hleft : unsigned32 (w.fifo.size - entry.packet.length - entry.slack) = room fifo := by
    rw [unsigned32]
    omega
  refine ⟨h.small, h.counter, fun x hx => ?_, hleft, ?_, ?_⟩
  · refine h.pos x ?_
    rw [hfifo]
    exact mem_cons_of_mem _ hx
  · dsimp only
    rw [hleft]
    omega
  · cases hqueue : w.queue with
    | nil => exact (hqueue ▸ htracks : Tracks w.pushed (entry :: fifo) []).elim
    | cons p q => exact (hqueue ▸ htracks : Tracks w.pushed (entry :: fifo) (p :: q)).2

theorem pop_inv : Inv { w with fifo := w.fifo.pop, queue := w.queue.tail } := by
  cases hfifo : w.fifo.fifo with
  | nil =>
    have hpop : w.fifo.pop = w.fifo := by
      rw [pop, hfifo]
      exact ite_self _
    have hqueue : w.queue.tail = w.queue := by
      have hlength := h.tracks.length_eq
      rw [hfifo, length_nil] at hlength
      rw [length_eq_zero_iff.mp hlength.symm, tail_nil]
    rw [hpop, hqueue]
    exact h
  | cons entry fifo =>
    have hpos := h.pos entry (by rw [hfifo]; exact mem_cons_self)
    have hsize := h.size
    rw [hfifo, room_cons] at hsize
    rw [pop, hfifo, if_neg (by omega)]
    exact h.dropFirst hfifo

theorem remove_inv (hi : i < w.fifo.fifo.length) :
    Inv { w with fifo := w.fifo.remove i, queue := w.queue.eraseIdx i } := by
  cases i with
  | zero =>
    cases hfifo : w.fifo.fifo with
    | nil => simp [hfifo] at hi
    | cons entry fifo =>
      rw [remove, hfifo, eraseIdx_zero]
      exact h.dropFirst hfifo
  | succ i =>
    have hsmall := h.small
    have hfits := h.fits
    have hroom : room (absorb w.fifo.fifo i) = room w.fifo.fifo :=
      room_absorb (by have := h.size; omega) hi
    have htracks := h.tracks.absorb hi
    refine ⟨h.small, h.counter, fun x hx => ?_, h.size.trans hroom.symm, h.fits, htracks⟩
    have hmem : x.packet ∈ (w.queue.eraseIdx (i + 1)).map (·.2) := by
      rw [← htracks.packets]
      exact mem_map_of_mem hx
    obtain ⟨p, hp, hpacket⟩ := mem_map.mp hmem
    have hold : p.2 ∈ w.fifo.fifo.map (·.packet) := by
      rw [h.tracks.packets]
      exact mem_map_of_mem (mem_of_mem_eraseIdx hp)
    obtain ⟨y, hy, heq⟩ := mem_map.mp hold
    rw [← hpacket, ← heq]
    exact h.pos y hy

theorem clear_inv : Inv { w with fifo := w.fifo.clear, queue := [] } :=
  ⟨h.small, h.counter, forall_mem_nil _, rfl, zero_le _, trivial⟩

theorem apply_meets (hadmits : w.Admits e) : Meets Inv (fun _ => True) (w.apply e) := by
  cases e with
  | reserve len =>
    exact ((reserve_meets h hadmits).imp (fun _ => id) fun _ => False.elim).bind fun f hf => hf
  | push packet => exact (push_meets h hadmits.1 hadmits.2).bind fun r hr => hr
  | pop => exact pop_inv h
  | remove i => exact remove_inv h hadmits
  | clear => exact clear_inv h

omit h in
theorem check_total (hsmall : room es < 2 ^ 32) (total : Nat) (htotal : total + room es < 2 ^ 32) :
    es.foldl (fun (total : Nat) entry => unsigned32 (total + entry.packet.length + entry.slack))
      total = total + room es := by
  induction es generalizing total with
  | nil => rfl
  | cons entry es ih =>
    rw [room_cons] at hsmall htotal
    have hnext : unsigned32 (total + entry.packet.length + entry.slack) = total +
        entry.packet.length + entry.slack := by
      rw [unsigned32]
      omega
    rw [foldl_cons, hnext, ih (by omega) _ (by omega), room_cons]
    omega

theorem Inv.check : w.fifo.check = .ok () := by
  have hsmall := h.small
  have hfits := h.fits
  have hsize := h.size
  rw [PacketFifo.check, check_total (by omega) 0 (by omega), zero_add, ← h.size]
  simp [refuse]

theorem Inv.short : w.queue.length < 2 ^ 31 := by
  have hle := length_le_room h.pos
  have hlength := h.tracks.length_eq
  have hsize := h.size
  have hfits := h.fits
  have hsmall := h.small
  omega

theorem Inv.numbers_sub {j k : Nat} {x y : PacketFifoEntry} (hjk : j ≤ k) (hwhole : w.Whole j k)
    (hx : w.fifo.fifo[j]? = some x) (hy : w.fifo.fifo[k]? = some y) :
    int32 (wrap64 (y.number + 2 ^ 64 - x.number)) = (k : Int) - j := by
  obtain ⟨p, hp, hxn⟩ := h.tracks.number hx
  obtain ⟨q, hq, hyn⟩ := h.tracks.number hy
  have hk : k < w.queue.length := (List.getElem?_eq_some_iff.mp hq).1
  have hshort := h.short
  have hqp : q.1 = p.1 + (k - j) := by simpa [Whole, hp, hq] using hwhole
  have hwrap : wrap64 (y.number + 2 ^ 64 - x.number) = k - j := by
    rw [hxn, hyn, hqp, wrap64, wrap64, wrap64]
    omega
  rw [hwrap, int32_of_lt (by omega)]
  omega

theorem Inv.entryAt (hi : i < w.queue.length) : ∃ entry, w.fifo.fifo[i]? = some entry :=
  ⟨_, getElem?_eq_getElem (h.tracks.length_eq ▸ hi)⟩

theorem Inv.before (hi : i < w.queue.length) (hwhole : w.Whole 0 i) :
    w.fifo.countPacketsBefore i = i := by
  obtain ⟨x, hx⟩ := h.entryAt (Nat.zero_lt_of_lt hi)
  obtain ⟨y, hy⟩ := h.entryAt hi
  rw [countPacketsBefore, head?_eq_getElem?, hx, hy]
  simpa using h.numbers_sub (zero_le i) hwhole hx hy

theorem Inv.after (hi : i < w.queue.length) (hwhole : w.Whole i (w.queue.length - 1)) :
    w.fifo.countPacketsAfter i = w.queue.length - 1 - i := by
  obtain ⟨y, hy⟩ := h.entryAt hi
  obtain ⟨z, hz⟩ := h.entryAt (i := w.queue.length - 1) (by omega)
  have hlast : w.fifo.fifo.getLast? = some z := by
    rw [getLast?_eq_getElem?, h.tracks.length_eq, hz]
  rw [countPacketsAfter, hlast, hy]
  have := h.numbers_sub (show i ≤ w.queue.length - 1 by omega) hwhole hy hz
  rwa [cast_sub (by omega)] at this

end

def bytes (es : List PacketFifoEntry) : List UInt8 := (es.map (·.packet)).flatten

theorem bytes_cons : bytes (entry :: es) = entry.packet ++ bytes es := by
  rw [bytes, map_cons, flatten_cons, bytes]

theorem copyRound_spec (hoffset : c.offset = 0) (hpos : ∀ entry ∈ c.rest, 0 < entry.packet.length)
    (hlen : c.len ≤ (bytes c.rest).length) (hmore : 0 < c.len) :
    ∃ c', PacketFifo.copyRound c = .ok c' ∧ c'.offset = 0 ∧
      (∀ entry ∈ c'.rest, 0 < entry.packet.length) ∧
      c'.len ≤ (bytes c'.rest).length ∧ c'.len < c.len ∧
      c'.data ++ (bytes c'.rest).take c'.len = c.data ++ (bytes c.rest).take c.len := by
  obtain ⟨rest, offset, len, data⟩ := c
  dsimp only at hoffset hpos hlen hmore
  subst hoffset
  cases rest with
  | nil => exact absurd hmore (by simpa [bytes] using hlen)
  | cons entry rest =>
    have hfirst := hpos entry mem_cons_self
    rw [bytes_cons, length_append] at hlen
    refine ⟨{ rest, offset := 0, len := len - min entry.packet.length len,
              data := data ++ entry.packet.take (min entry.packet.length len) },
      ?_, rfl, fun x hx => hpos x (mem_cons_of_mem _ hx), ?_, ?_, ?_⟩
    · simp only [copyRound, zero_mod]
      simp [refuse]
    · dsimp only
      omega
    · dsimp only
      omega
    · dsimp only
      rw [bytes_cons, take_append, append_assoc]
      congr 2
      · rw [take_eq_take_iff]
        omega
      · congr 1
        omega

theorem copy_spec (hpos : ∀ entry ∈ es, 0 < entry.packet.length) (hlen : len ≤ (bytes es).length) :
    ∃ c, whileChk (0 < ·.len) PacketFifo.copyRound (len + 1)
      { rest := es, offset := 0, len } = .ok c ∧ c.data = (bytes es).take len := by
  obtain ⟨c, heq, ⟨-, -, -, hdata⟩, hdone⟩ := whileChk_spec (0 < ·.len) copyRound
    (fun c => c.offset = 0 ∧ (∀ entry ∈ c.rest, 0 < entry.packet.length) ∧
      c.len ≤ (bytes c.rest).length ∧
      c.data ++ (bytes c.rest).take c.len = (bytes es).take len) (·.len)
    (fun c hc hmore => by
      obtain ⟨hoffset, hpos, hlen, hdata⟩ := hc
      obtain ⟨c', heq, hoffset', hpos', hlen', hless, hdata'⟩ := copyRound_spec hoffset hpos hlen hmore
      exact ⟨c', heq, ⟨hoffset', hpos', hlen', hdata'.trans hdata⟩, hless⟩)
    (len + 1) { rest := es, offset := 0, len } ⟨rfl, hpos, hlen, nil_append _⟩ len.lt_succ_self
  refine ⟨c, heq, ?_⟩
  rwa [Nat.eq_zero_of_not_pos hdone, take_zero, append_nil] at hdata

theorem Inv.copyout (h : w.Inv) (hstart : offset = 0 ∨ len = 0)
    (hlen : offset + len < w.fifo.size)
    (hbytes : offset + len ≤ (w.queue.map (·.2)).flatten.length) : w.fifo.copyout offset len =
      .ok (some (((w.queue.map (·.2)).flatten.drop offset).take len)) := by
  have hsmall := h.small
  have hfits := h.fits
  have hsum : unsigned32 (offset + len) = offset + len := by
    rw [unsigned32]
    omega
  rw [PacketFifo.copyout, hsum, if_neg (by omega), ← h.tracks.packets, ← bytes]
  rw [← h.tracks.packets, ← bytes] at hbytes
  rcases hstart with rfl | rfl
  · obtain ⟨c, heq, hdata⟩ := copy_spec h.pos (show len ≤ _ by omega)
    rw [heq, ok_bind, hdata, drop_zero]
    rfl
  · rw [take_zero]
    rfl

theorem Inv.whole (h : w.Inv)
    (hall : ∀ first ∈ w.queue.head?, w.pushed = first.1 + w.queue.length) :
    w.fifo.size = (w.queue.map (·.2)).flatten.length := by
  rw [h.size, ← h.tracks.packets]
  refine h.tracks.room ?_
  cases hqueue : w.queue with
  | nil => rfl
  | cons first q => exact (hqueue ▸ hall first (by rw [hqueue]; rfl)).symm

theorem Inv.exact (h : w.Inv) : w.Exact where
  size := h.size
  check := h.check
  fits := h.fits
  order := h.tracks.packets
  front := by rw [front, ← head?_map, h.tracks.packets, head?_map]
  before _ hi := h.before hi
  after _ hi := h.after hi
  copyout _ _ := h.copyout
  whole := h.whole

/-- After any calls the bytes are accounted for, the packets are in order, and entries are
counted and bytes are copied right as far as nothing was removed between them. -/
theorem run_fifo_exact {max : Nat} (hmax : max < 2 ^ 31) {events : List PktFifoEvent}
    (hrun : Runs (fun w e w' => w.Admits e ∧ w.apply e = .ok w') (create max) events w) : w.Exact :=
  Inv.exact (hrun.invariant (create_inv hmax) fun _ _ _ h hstep =>
    (apply_meets h hstep.1).result hstep.2)

theorem run_fifo_exact_hundred : ∃ w,
    Runs (fun (w : PktFifoWorld) e w' => w.Admits e ∧ w.apply e = .ok w') (create 100)
      [.reserve 2, .push [1, 2, 3], .push [4, 5], .push [6], .push [7], .remove 1, .pop,
        .reserve 7] w ∧ (w.Whole 0 1 ∧ w.queue.length = 2) ∧ w.Exact :=
  runs_of_play_and Admits apply (by decide +kernel) fun _ => run_fifo_exact (by decide)

/-- Copying out all bytes of the queue fails, copying from the second byte on gives the first
one again, and after a packet in the middle is removed it is still counted. -/
theorem copyout_and_count_go_wrong :
    (∃ w, Runs (fun (w : PktFifoWorld) e w' => w.Admits e ∧ w.apply e = .ok w') (create 100)
      [.push [1, 2, 3]] w ∧
      (w.queue.map (·.2)).flatten = [1, 2, 3] ∧ w.fifo.copyout 0 3 = .ok none ∧
      w.fifo.copyout 1 1 = .ok (some [1])) ∧
    ∃ w, Runs (fun (w : PktFifoWorld) e w' => w.Admits e ∧ w.apply e = .ok w') (create 100)
      [.push [1], .push [2], .push [3], .remove 1] w ∧ w.queue.map (·.2) = [[1], [3]] ∧
        w.fifo.countPacketsBefore 1 = 2 :=
  ⟨runs_of_play Admits apply (by decide +kernel), runs_of_play Admits apply (by decide +kernel)⟩

end PktFifoWorld

end Gem5
