import Gem5.Lib.Run

/-!
# Circular buffers

`CircleBuf` keeps the bytes written to a terminal in an array that is written round and
round. The reads that go to a file descriptor or a stream are left out.
-/

namespace Gem5

open Lib List

structure CircleBuf where
  buf : List UInt8
  rollover : Bool := false
  size : Nat := 0
  start : Nat := 0
  stop : Nat := 0

namespace CircleBuf

def buflen (c : CircleBuf) : Nat := c.buf.length

def copyOut (buf : List UInt8) (first len : Nat) : Chk (List UInt8) :=
  if first + len ≤ buf.length then .ok ((buf.drop first).take len)
    else .error (.undefined "memcpy outside of the buffer")

def splice (buf : List UInt8) (first : Nat) (b : List UInt8) : List UInt8 :=
  buf.take first ++ b ++ buf.drop (first + b.length)

def copyIn (buf : List UInt8) (first : Nat) (b : List UInt8) : Chk (List UInt8) :=
  if first + b.length ≤ buf.length then .ok (splice buf first b)
    else .error (.undefined "memcpy outside of the buffer")

def addInt (m n : Nat) : Chk Nat :=
  if m + n < 2 ^ 31 then .ok (m + n) else .error (.undefined "signed overflow")

def flush (c : CircleBuf) : CircleBuf := { c with start := 0, stop := 0, rollover := false }

def read (c : CircleBuf) (len : Nat) : Chk (List UInt8 × CircleBuf) := do
  let size := c.size - len
  if c.start < c.stop then
    let len := min len (c.stop - c.start)
    let b ← copyOut c.buf c.start len
    return (b, { c with size, start := c.start + len })
  else
    let endlen := c.buflen - c.start
    if len < endlen then
      let b ← copyOut c.buf c.start len
      return (b, { c with size, start := c.start + len })
    else
      let b ← copyOut c.buf c.start endlen
      let start := min (len - endlen) c.stop
      let b' ← copyOut c.buf 0 start
      return (b ++ b', { c with size, start })

def write (c : CircleBuf) (b : List UInt8) : Chk CircleBuf := do
  let len := b.length
  if len = 0 then return c
  let size := min (← addInt c.size len) c.buflen
  if c.buflen ≤ len then
    let buf ← copyIn c.buf 0 (b.drop (len - c.buflen))
    return { buf, rollover := true, size, start := 0, stop := c.buflen }
  if (← addInt c.stop len) ≤ c.buflen then
    let buf ← copyIn c.buf c.stop b
    let stop := c.stop + len
    return { c with buf, size, start := newStart c stop, stop }
  else
    let endLen := c.buflen - c.stop
    let stop := len - endLen
    let buf ← copyIn c.buf c.stop (b.take endLen)
    let buf ← copyIn buf 0 (b.drop endLen)
    return { buf, rollover := true, size, start := newStart c stop, stop }
where
  newStart (c : CircleBuf) (stop : Nat) : Nat :=
    if c.stop < c.start ∧ c.start < stop ∨ c.start < c.stop ∧ stop < c.stop then stop + 1 else c.start

end CircleBuf

structure CircleWorld where
  buffer : CircleBuf
  content : List UInt8 := []

inductive CircleEvent
  | write (b : List UInt8)
  | read (len : Nat)
  | flush

def recent (room : Nat) (bytes : List UInt8) : List UInt8 := bytes.drop (bytes.length - room)

namespace CircleWorld

def create (memory : List UInt8) : CircleWorld := { buffer := { buf := memory } }

def apply (w : CircleWorld) : CircleEvent → Chk CircleWorld
  | .write b => do return { buffer := ← w.buffer.write b,
                            content := recent w.buffer.buflen (w.content ++ b) }
  | .read len => do
    let r ← w.buffer.read len
    return { buffer := r.2, content := w.content.drop len }
  | .flush => return { buffer := w.buffer.flush, content := [] }

def Admits : CircleEvent → Prop
  | .write b => b.length < 2 ^ 31
  | .read len => len < 2 ^ 31
  | .flush => True

/-- The write fits behind what is in the buffer: it fills the whole buffer, or goes into an
empty one, or overwrites nothing, in which case it does not wrap round from an unwrapped
state, except for one that leaves a single free byte. -/
def Appends (w : CircleWorld) (len : Nat) : Prop :=
  w.content.length + len < 2 ^ 31 ∧
    (w.buffer.buflen ≤ len ∨ w.buffer.stop + len < 2 ^ 31 ∧ (w.content = [] ∨
    w.content.length + len ≤ w.buffer.buflen ∧
      (w.buffer.start < w.buffer.stop → w.buffer.stop + len ≤ w.buffer.buflen ∨
        w.content.length + len + 1 = w.buffer.buflen)))

def Careful (w : CircleWorld) : CircleEvent → Prop
  | .write b => b = [] ∨ w.Appends b.length
  | .read _ => w.content ≠ []
  | .flush => w.content = []

instance : DecidablePred Admits := fun e => by
  rcases e <;> unfold Admits <;> infer_instance

instance (w : CircleWorld) (len : Nat) : Decidable (w.Appends len) :=
  inferInstanceAs (Decidable (_ ∧ (_ ∨ _ ∧ (_ ∨ _ ∧ (_ → _ ∨ _)))))

instance (w : CircleWorld) : DecidablePred w.Careful := fun e => by
  rcases e <;> unfold Careful <;> infer_instance

end CircleWorld

namespace CircleBuf

variable {buf b content : List UInt8} {first len k : Nat} {c : CircleBuf}

theorem copyOut_of_le (h : first + len ≤ buf.length) :
    copyOut buf first len = .ok ((buf.drop first).take len) := if_pos h

section

variable (h : first + b.length ≤ buf.length)
include h

theorem copyIn_of_le : copyIn buf first b = .ok (splice buf first b) := if_pos h

theorem length_splice : (splice buf first b).length = buf.length := by
  simp only [splice, length_append, length_take, length_drop]
  omega

theorem take_splice : (splice buf first b).take (first + b.length) = buf.take first ++ b := by
  refine take_left' ?_
  simp only [length_append, length_take]
  omega

theorem drop_splice (hk : first + b.length ≤ k) : (splice buf first b).drop k = buf.drop k := by
  have hlength : (buf.take first ++ b).length = first + b.length := by
    simp only [length_append, length_take]
    omega
  rw [splice, drop_append, drop_eq_nil_of_le (by omega), nil_append, drop_drop, hlength]
  congr 1
  omega

end

/-- The buffer holds the content: between the two positions, or from the one round to the
other. -/
structure Holds (c : CircleBuf) (content : List UInt8) : Prop where
  size : c.size = content.length
  start_le : c.start ≤ c.buflen
  stop_le : c.stop ≤ c.buflen
  shape : c.start ≤ c.stop ∧ content = (c.buf.take c.stop).drop c.start ∨
    c.stop ≤ c.start ∧ content ≠ [] ∧ content = c.buf.drop c.start ++ c.buf.take c.stop

theorem Holds.length_le (h : c.Holds content) : content.length ≤ c.buflen := by
  rcases h.shape with ⟨-, hcontent⟩ | ⟨hle, -, hcontent⟩
  · rw [hcontent, length_drop, length_take, buflen]
    omega
  · rw [hcontent, length_append, length_drop, length_take, buflen] at *
    omega

theorem read_between (hlt : c.start < c.stop) (hstop : c.stop ≤ c.buflen) (len : Nat) :
    c.read len = .ok (((c.buf.take c.stop).drop c.start).take len,
      { c with size := c.size - len, start := c.start + min len (c.stop - c.start) }) := by
  rw [buflen] at hstop
  rw [read, if_pos hlt]
  dsimp only
  rw [copyOut_of_le (by omega), ok_bind, drop_take, take_take]
  rfl

theorem read_end (hle : c.stop ≤ c.start) (hlen : len < c.buflen - c.start) :
    c.read len = .ok ((c.buf.drop c.start).take len,
      { c with size := c.size - len, start := c.start + len }) := by
  rw [read, if_neg (not_lt.mpr hle), if_pos hlen,
    copyOut_of_le (by rw [buflen] at hlen; omega), ok_bind]
  rfl

theorem read_round (hle : c.stop ≤ c.start) (hstart : c.start ≤ c.buflen)
    (hlen : c.buflen - c.start ≤ len) :
    c.read len = .ok (c.buf.drop c.start ++ (c.buf.take c.stop).take (len - (c.buflen - c.start)),
      { c with size := c.size - len, start := min (len - (c.buflen - c.start)) c.stop }) := by
  rw [buflen] at hstart
  rw [read, if_neg (not_lt.mpr hle), if_neg (not_lt.mpr hlen),
    copyOut_of_le (by rw [buflen]; omega), ok_bind]
  dsimp only
  rw [copyOut_of_le (by omega), ok_bind, drop_zero, take_take,
    take_of_length_le (by rw [length_drop]; rfl)]
  rfl

theorem read_spec (h : c.Holds content) (hne : content ≠ []) (len : Nat) :
    ∃ c', c.read len = .ok (content.take len, c') ∧ c'.buflen = c.buflen ∧
      c'.Holds (content.drop len) := by
  have hsize : c.size - len = (content.drop len).length := by rw [h.size, length_drop]
  have hstart := h.start_le
  have hstop := h.stop_le
  rcases h.shape with ⟨hle, hcontent⟩ | ⟨hle, -, hcontent⟩
  · have hlt : c.start < c.stop := by
      refine lt_of_le_of_ne hle fun heq => hne ?_
      rw [hcontent, drop_eq_nil_of_le]
      exact (length_take_le _ _).trans heq.ge
    have hread := read_between hlt hstop len
    rw [← hcontent] at hread
    refine ⟨_, hread, rfl, hsize, ?_, hstop, .inl ⟨?_, ?_⟩⟩
    · show c.start + min len (c.stop - c.start) ≤ c.buflen
      omega
    · show c.start + min len (c.stop - c.start) ≤ c.stop
      omega
    · dsimp only
      rw [hcontent, drop_drop]
      rcases Nat.le_total len (c.stop - c.start) with hlen | hlen
      · rw [min_eq_left hlen]
      · rw [drop_eq_nil_of_le, drop_eq_nil_of_le]
        all_goals
          rw [length_take]
          omega
  · have hlength : (c.buf.drop c.start).length = c.buflen - c.start := length_drop
    have htake : (c.buf.take c.stop).length = c.stop := length_take_of_le hstop
    by_cases hlen : len < c.buflen - c.start
    · have hread := read_end hle hlen
      rw [← take_append_of_le_length (by omega), ← hcontent] at hread
      refine ⟨_, hread, rfl, hsize, ?_, hstop, .inr ⟨?_, ?_, ?_⟩⟩
      · show c.start + len ≤ c.buflen
        omega
      · exact hle.trans (Nat.le_add_right _ _)
      · rw [Ne, drop_eq_nil_iff, hcontent, length_append]
        omega
      · rw [hcontent, drop_append_of_le_length (by omega), drop_drop]
    · have hread := read_round hle hstart (not_lt.mp hlen)
      have holdest : c.buf.drop c.start ++ (c.buf.take c.stop).take (len - (c.buflen - c.start)) =
          content.take len := by
        rw [hcontent, take_append, hlength,
          take_of_length_le (show (c.buf.drop c.start).length ≤ len by omega)]
      rw [holdest] at hread
      refine ⟨_, hread, rfl, hsize, ?_, hstop, .inl ⟨min_le_right _ _, ?_⟩⟩
      · exact (min_le_right _ _).trans hstop
      · dsimp only
        rw [hcontent, drop_append, hlength, drop_eq_nil_of_le (by omega), nil_append]
        rcases Nat.le_total (len - (c.buflen - c.start)) c.stop with hle' | hle'
        · rw [min_eq_left hle']
        · rw [min_eq_right hle', drop_eq_nil_of_le (by omega), drop_eq_nil_of_le (by omega)]

theorem addInt_of_lt (h : m + n < 2 ^ 31) : addInt m n = .ok (m + n) := if_pos h

section

variable (hsize : c.size + b.length < 2 ^ 31)
include hsize

theorem write_large (hb : b ≠ []) (hlen : c.buflen ≤ b.length) :
    c.write b = .ok { buf := b.drop (b.length - c.buflen), rollover := true,
                      size := min (c.size + b.length) c.buflen,
                      start := 0, stop := c.buflen } := by
  have hlength : (b.drop (b.length - c.buflen)).length = c.buf.length := by
    rw [length_drop, buflen] at *
    omega
  rw [write, if_neg (by simpa using hb), addInt_of_lt hsize, ok_bind]
  rw [if_pos hlen, copyIn_of_le (by omega), ok_bind, splice, take_zero, nil_append,
    Nat.zero_add, hlength, drop_length, append_nil]
  rfl

theorem write_behind (hb : b ≠ []) (hlen : b.length < c.buflen)
    (hstop : c.stop + b.length < 2 ^ 31) (hroom : c.stop + b.length ≤ c.buflen) :
    c.write b = .ok { c with
      buf := splice c.buf c.stop b, size := min (c.size + b.length) c.buflen,
      start := write.newStart c (c.stop + b.length),
      stop := c.stop + b.length } := by
  rw [write, if_neg (by simpa using hb), addInt_of_lt hsize, ok_bind]
  rw [if_neg (not_le.mpr hlen), addInt_of_lt hstop, ok_bind, if_pos hroom, copyIn_of_le hroom, ok_bind]
  rfl

theorem write_round (hb : b ≠ []) (hlen : b.length < c.buflen)
    (hstop : c.stop + b.length < 2 ^ 31) (hle : c.stop ≤ c.buflen)
    (hroom : c.buflen < c.stop + b.length) (hk : k = c.buflen - c.stop) :
    c.write b = .ok {
      buf := splice (splice c.buf c.stop (b.take k)) 0 (b.drop k), rollover := true,
      size := min (c.size + b.length) c.buflen, start := write.newStart c (b.length - k),
      stop := b.length - k } := by
  have hfirst : c.stop + (b.take k).length ≤ c.buf.length := by
    rw [length_take, buflen] at *
    omega
  have hsecond : 0 + (b.drop k).length ≤ (splice c.buf c.stop (b.take k)).length := by
    rw [length_splice hfirst, length_drop, buflen] at *
    omega
  rw [write, if_neg (by simpa using hb), addInt_of_lt hsize, ok_bind]
  dsimp only
  rw [if_neg (not_le.mpr hlen), addInt_of_lt hstop, ok_bind, if_neg (not_le.mpr hroom), ← hk,
    copyIn_of_le hfirst, ok_bind, copyIn_of_le hsecond, ok_bind]
  rfl

end

theorem recent_of_le (h : content.length ≤ k) : recent k content = content := by
  rw [recent, Nat.sub_eq_zero_of_le h, drop_zero]

theorem recent_append_of_le (h : k ≤ b.length) : recent k (content ++ b) = b.drop (b.length - k) := by
  rw [recent, drop_append, drop_eq_nil_of_le (by rw [length_append]; omega), nil_append]
  congr 1
  rw [length_append]
  omega

theorem Holds.write_behind (h : c.Holds content) (hb : b ≠ []) (hroom : c.stop + b.length ≤ c.buflen)
    (hfits : content = [] ∨ content.length + b.length ≤ c.buflen) (rollover : Bool) :
    Holds { c with buf := splice c.buf c.stop b, rollover, size := content.length + b.length,
                   start := write.newStart c (c.stop + b.length), stop := c.stop + b.length }
                     (content ++ b) := by
  have hlength := length_splice hroom
  have hlen : 0 < b.length := length_pos_iff.mpr hb
  have hstart := h.start_le
  rcases h.shape with ⟨hle, hcontent⟩ | ⟨hle, hne, hcontent⟩
  · have hsame : write.newStart c (c.stop + b.length) = c.start := if_neg (by omega)
    rw [hsame]
    refine ⟨length_append.symm, ?_, ?_, .inl ⟨?_, ?_⟩⟩
    · exact hstart.trans hlength.ge
    · exact hroom.trans hlength.ge
    · exact hle.trans (Nat.le_add_right _ _)
    · dsimp only
      rw [take_splice hroom, drop_append_of_le_length, hcontent]
      rw [length_take]
      exact le_min hle hstart
  · have hsum : content.length = c.buflen - c.start + c.stop := by
      rw [hcontent, length_append, length_drop, length_take_of_le h.stop_le, buflen]
    have hfits := hfits.resolve_left hne
    have hsame : write.newStart c (c.stop + b.length) = c.start := if_neg (by omega)
    rw [hsame]
    refine ⟨length_append.symm, ?_, ?_, .inr ⟨?_, by simp [hne], ?_⟩⟩
    · exact hstart.trans hlength.ge
    · exact hroom.trans hlength.ge
    · show c.stop + b.length ≤ c.start
      omega
    · dsimp only
      rw [take_splice hroom, drop_splice hroom (by omega), hcontent, append_assoc]

theorem Holds.write_round (h : c.Holds content) (hlen : b.length < c.buflen)
    (hroom : c.buflen < c.stop + b.length)
    (hfits : content = [] ∨ content.length + b.length ≤ c.buflen ∧
      (c.start < c.stop → c.stop + b.length ≤ c.buflen ∨ content.length + b.length + 1 = c.buflen))
        (rollover : Bool)
    (hk : k = c.buflen - c.stop) :
    Holds { c with buf := splice (splice c.buf c.stop (b.take k)) 0 (b.drop k), rollover,
                   size := content.length + b.length, start := write.newStart c (b.length - k),
                   stop := b.length - k } (content ++ b) := by
  have hstart := h.start_le
  have hstop := h.stop_le
  rcases h.shape with ⟨hle, hcontent⟩ | ⟨hle, hne, hcontent⟩
  · have hsum : content.length = c.stop - c.start := by
      rw [hcontent, length_drop, length_take_of_le hstop]
    -- either way the start stays where it was, and the new end is before it
    obtain ⟨hsame, hbefore⟩ : write.newStart c (b.length - k) = c.start ∧ b.length - k ≤ c.start := by
      rw [write.newStart]
      rcases hfits with hnil | ⟨hfits, hone⟩
      · rw [hnil, length_nil] at hsum
        rw [if_neg (by omega)]
        omega
      · by_cases hlt : c.start < c.stop
        · rw [if_pos (by omega)]
          omega
        · rw [if_neg (by omega)]
          omega
    have hb1 : (b.take k).length = k := length_take_of_le (by omega)
    have hb2 : (b.drop k).length = b.length - k := length_drop
    have hfirst : c.stop + (b.take k).length ≤ c.buf.length := by
      rw [hb1, ← buflen]
      omega
    have hlength1 := length_splice hfirst
    have hsecond : 0 + (b.drop k).length ≤ (splice c.buf c.stop (b.take k)).length := by
      rw [hlength1, hb2, ← buflen]
      omega
    have hlength2 := length_splice hsecond
    have hold : (splice c.buf c.stop (b.take k)).drop c.start = content ++ b.take k := by
      have hall := take_splice hfirst
      rw [take_of_length_le (by rw [hlength1, hb1, ← buflen]; omega)] at hall
      rw [hall, hcontent, drop_append_of_le_length]
      rw [length_take_of_le hstop]
      exact hle
    have htake := take_splice hsecond
    rw [Nat.zero_add, take_zero, nil_append, hb2] at htake
    rw [hsame]
    refine ⟨length_append.symm, ?_, ?_, .inr ⟨hbefore, ?_, ?_⟩⟩
    · exact hstart.trans (hlength2.trans hlength1).ge
    · exact (hbefore.trans hstart).trans (hlength2.trans hlength1).ge
    · rw [Ne, append_eq_nil_iff, ← length_eq_zero_iff (l := b)]
      omega
    · dsimp only
      rw [htake, drop_splice hsecond (by omega), hold, append_assoc, take_append_drop]
  · have hsum : content.length = c.buflen - c.start + c.stop := by
      rw [hcontent, length_append, length_drop, length_take_of_le hstop, buflen]
    have hfits := (hfits.resolve_left hne).1
    omega

theorem write_spec (h : c.Holds content) (hfits : b = [] ∨ CircleWorld.Appends ⟨c, content⟩ b.length) :
    ∃ c', c.write b = .ok c' ∧ c'.buflen = c.buflen ∧ c'.Holds (recent c.buflen (content ++ b)) := by
  by_cases hb : b = []
  · rw [hb, append_nil, recent_of_le h.length_le]
    exact ⟨c, rfl, rfl, h⟩
  · obtain ⟨hsize, hfits⟩ := hfits.resolve_left hb
    dsimp only at hsize hfits
    rw [← h.size] at hsize
    by_cases hlarge : c.buflen ≤ b.length
    · have hlength : (b.drop (b.length - c.buflen)).length = c.buflen := by
        rw [length_drop]
        omega
      refine ⟨_, write_large hsize hb hlarge, hlength, ?_⟩
      rw [recent_append_of_le hlarge]
      refine ⟨?_, Nat.zero_le _, hlength.ge, .inl ⟨Nat.zero_le _, ?_⟩⟩
      · dsimp only
        rw [hlength]
        omega
      · rw [drop_zero, take_of_length_le hlength.le]
    · obtain ⟨hint, hfits⟩ := hfits.resolve_left hlarge
      have hlen : content.length + b.length ≤ c.buflen := by
        rcases hfits with hnil | hfits
        · rw [hnil, length_nil]
          omega
        · exact hfits.1
      rw [recent_of_le (by rw [length_append]; exact hlen)]
      have hmin : min (c.size + b.length) c.buflen = content.length + b.length := by
        rw [h.size]
        exact min_eq_left hlen
      by_cases hroom : c.stop + b.length ≤ c.buflen
      · have hwrite := CircleBuf.write_behind hsize hb (not_le.mp hlarge) hint hroom
        rw [hmin] at hwrite
        exact ⟨_, hwrite, length_splice hroom, h.write_behind hb hroom (hfits.imp_right And.left) _⟩
      · have hwrite := CircleBuf.write_round hsize hb (not_le.mp hlarge) hint h.stop_le
          (not_le.mp hroom) rfl
        rw [hmin] at hwrite
        refine ⟨_, hwrite, ?_, h.write_round (not_le.mp hlarge) (not_le.mp hroom) hfits _ rfl⟩
        have hfirst : c.stop + (b.take (c.buflen - c.stop)).length ≤ c.buf.length := by
          rw [length_take, ← buflen]
          have := h.stop_le
          omega
        refine (length_splice ?_).trans (length_splice hfirst)
        rw [length_splice hfirst, length_drop, ← buflen]
        omega

end CircleBuf

namespace CircleWorld

variable {w w' : CircleWorld} {e : CircleEvent}

structure Exact (w : CircleWorld) : Prop where
  size : w.buffer.size = w.content.length
  bounded : w.content.length ≤ w.buffer.buflen
  read : w.content ≠ [] → ∀ len, ∃ c', w.buffer.read len = .ok (w.content.take len, c')

theorem apply_spec (h : w.buffer.Holds w.content) (hcareful : w.Careful e) :
    ∃ w', w.apply e = .ok w' ∧ w'.buffer.buflen = w.buffer.buflen ∧ w'.buffer.Holds w'.content := by
  cases e with
  | write b =>
    obtain ⟨c', hwrite, hlength, hholds⟩ := CircleBuf.write_spec h hcareful
    refine ⟨_, by rw [apply, hwrite, ok_bind]; rfl, hlength, hholds⟩
  | read len =>
    obtain ⟨c', hread, hlength, hholds⟩ := CircleBuf.read_spec h hcareful len
    refine ⟨_, by rw [apply, hread, ok_bind]; rfl, hlength, hholds⟩
  | flush =>
    have hcontent : w.content = [] := hcareful
    have hsize := h.size
    rw [hcontent] at hsize
    exact ⟨_, rfl, rfl, hsize, Nat.zero_le _, Nat.zero_le _, .inl ⟨le_rfl, rfl⟩⟩

/-- After any careful calls on a buffer of any length the buffer is exact, and no careful
call goes outside of its array. -/
theorem run_content_exact {memory : List UInt8} {events : List CircleEvent}
    (hrun : Runs (fun w e w' => (Admits e ∧ w.Careful e) ∧ w.apply e = .ok w')
      (create memory) events w) :
    w.Exact ∧ ∀ e, Admits e → w.Careful e → ∃ w', w.apply e = .ok w' := by
  have hholds : w.buffer.Holds w.content := by
    refine hrun.invariant (P := fun w => w.buffer.Holds w.content) ⟨rfl, Nat.zero_le _,
      Nat.zero_le _, .inl ⟨le_rfl, rfl⟩⟩ ?_
    intro w e w' h hstep
    exact (of_returns (apply_spec h hstep.1.2) hstep.2).2
  refine ⟨⟨hholds.size, hholds.length_le, fun hne len => ?_⟩, fun e _ hcareful => ?_⟩
  · obtain ⟨c', hread, -⟩ := CircleBuf.read_spec hholds hne len
    exact ⟨c', hread⟩
  · obtain ⟨w', happly, -⟩ := apply_spec hholds hcareful
    exact ⟨w', happly⟩

theorem run_content_exact_wrapped :
    ∃ w, Runs (fun (w : CircleWorld) e w' => (Admits e ∧ w.Careful e) ∧ w.apply e = .ok w')
      (create [0, 0, 0, 0])
    [.write [1, 2, 3], .read 2, .write [4, 5], .read 1, .write [6, 7, 8, 9, 10]] w ∧
      w.content = [7, 8, 9, 10] ∧ w.Exact :=
  runs_of_play_and (fun (w : CircleWorld) e => Admits e ∧ w.Careful e) apply (by decide +kernel)
    fun _ hrun => (run_content_exact hrun).1

/-- A new buffer reads as what its array happens to hold, a write that goes round to fill the
buffer loses a byte, and a flushed buffer keeps its size. -/
theorem read_of_new_and_round :
    ((create [7, 7]).buffer.read 1).toOption.map Prod.fst = some [7] ∧
    (∃ w, Runs (fun (w : CircleWorld) e w' => Admits e ∧ w.apply e = .ok w') (create [0, 0, 0, 0])
      [.write [1, 2, 3], .read 1, .write [4, 5]] w ∧ w.content = [2, 3, 4, 5] ∧
      (w.buffer.read 4).toOption.map Prod.fst = some [3, 4, 5]) ∧
    ∃ w, Runs (fun (w : CircleWorld) e w' => Admits e ∧ w.apply e = .ok w') (create [0, 0, 0, 0])
      [.write [1, 2, 3], .flush] w ∧
      w.content = [] ∧ w.buffer.size = 3 :=
  ⟨by decide +kernel, runs_of_play (fun _ e => Admits e) apply (by decide +kernel),
    runs_of_play (fun _ e => Admits e) apply (by decide +kernel)⟩

end CircleWorld

end Gem5
