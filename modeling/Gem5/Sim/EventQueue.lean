import Gem5.Lib.Linked
import Gem5.Lib.Run

/-!
# The event queue

`sim/eventq.cc` and the inline functions of `sim/eventq.hh`. The queue is a
linked list of linked lists: `nextBin` leads from the top event of a bin to
that of the next bin, `nextInBin` through the events of one bin. Only the
`nextBin` pointer of a top event is kept up to date.

Events are cells of an arbitrary type `E`. A loop over the list takes a bound
on its iterations; running out of it is a fault of its own.
-/

namespace Gem5

open Lib

/-- The fields and flags of an event. `initialized` is the pattern in the upper
flag bits, which the destructor clears. -/
structure Event (E : Type) where
  nextBin : Option E := none
  nextInBin : Option E := none
  when : Nat := 0
  priority : Int
  squashed : Bool := false
  scheduled : Bool := false
  autoDelete : Bool := false
  isExitEvent : Bool := false
  isMainQueue : Bool := false
  initialized : Bool := true

namespace Event

def lt (l r : Event E) : Bool := l.when < r.when || (l.when == r.when && l.priority < r.priority)

def le (l r : Event E) : Bool := l.when < r.when || (l.when == r.when && l.priority ≤ r.priority)

def eq (l r : Event E) : Bool := l.when == r.when && l.priority == r.priority

end Event

structure EventQueue (E : Type) where
  head : Option E
  event : E → Event E
  isMain : Bool

namespace EventQueue

variable {E : Type} [DecidableEq E]

def modify (event : E → Event E) (e : E) (f : Event E → Event E) : E → Event E :=
  Function.update event e (f (event e))

def insertBefore (event : E → Event E) (e : E) (curr : Option E) : E → Event E :=
  match curr with
  | none => modify event e fun v => { v with nextBin := none, nextInBin := none }
  | some c =>
    if (event e).lt (event c) then
      modify event e fun v => { v with nextBin := some c, nextInBin := none }
    else
      modify event e fun v => { v with nextBin := (event c).nextBin, nextInBin := some c }

/-- The loop over the bins that `insert` and `remove` share: the last bin whose
key is less than that of `e`, and the one after it. -/
def findBin (event : E → Event E) (e : E) : Nat → E → Option E → Chk (E × Option E)
  | 0, _, _ => .error .fuel
  | _ + 1, prev, none => .ok (prev, none)
  | n + 1, prev, some c =>
    if (event c).lt (event e) then findBin event e n c (event c).nextBin else .ok (prev, some c)

def insert (fuel : Nat) (q : EventQueue E) (e : E) : Chk (EventQueue E) :=
  match q.head with
  | none => return { q with head := some e, event := insertBefore q.event e none }
  | some h =>
    if (q.event e).le (q.event h) then
      return { q with head := some e, event := insertBefore q.event e (some h) }
    else do
      let (prev, curr) ← findBin q.event e fuel h (q.event h).nextBin
      let event := insertBefore q.event e curr
      return { q with event := modify event prev fun v => { v with nextBin := some e } }

def findInBin (event : E → Event E) (e : E) : Nat → E → Option E → Chk E
  | 0, _, _ => .error .fuel
  | _ + 1, _, none => .error (.panic "event not found!")
  | n + 1, curr, some x =>
    if x = e then .ok curr else findInBin event e n x (event x).nextInBin

def removeItem (fuel : Nat) (event : E → Event E) (e top : E) :
    Chk ((E → Event E) × Option E) :=
  if e = top then
    match (event top).nextInBin with
    | none => return (event, (event top).nextBin)
    | some x => return (modify event x fun v => { v with nextBin := (event top).nextBin }, some x)
  else do
    let curr ← findInBin event e fuel top (event top).nextInBin
    return (modify event curr fun v => { v with nextInBin := (event e).nextInBin }, some top)

def remove (fuel : Nat) (q : EventQueue E) (e : E) : Chk (EventQueue E) :=
  match q.head with
  | none => .error (.panic "event not found!")
  | some h =>
    if (q.event h).eq (q.event e) then do
      let (event, top) ← removeItem fuel q.event e h
      return { q with head := top, event := event }
    else do
      match ← findBin q.event e fuel h (q.event h).nextBin with
      | (_, none) => .error (.panic "event not found!")
      | (prev, some c) =>
        if (q.event c).eq (q.event e) then do
          let (event, top) ← removeItem fuel q.event e c
          return { q with event := modify event prev fun v => { v with nextBin := top } }
        else
          .error (.panic "event not found!")

def setWhen (q : EventQueue E) (e : E) (tick : Nat) : EventQueue E :=
  { q with event := modify q.event e fun v => { v with when := tick } }

def schedule (fuel : Nat) (q : EventQueue E) (now : Nat) (e : E) (tick : Nat) :
    Chk (EventQueue E) := do
  ensure (now ≤ tick) "when >= curTick()"
  ensure (!(q.event e).scheduled) "!event->scheduled()"
  ensure (q.event e).initialized "event->initialized()"
  let q ← insert fuel (q.setWhen e tick) e
  let event := modify q.event e fun v => { v with scheduled := true, isMainQueue := q.isMain }
  return { q with event := event }

def delete (event : E → Event E) (e : E) : Chk (E → Event E) := do
  ensure (!(event e).scheduled) "!scheduled()"
  return modify event e fun v =>
    { v with squashed := false, autoDelete := false, isExitEvent := false, isMainQueue := false,
             initialized := false }

def deschedule (fuel : Nat) (q : EventQueue E) (e : E) : Chk (EventQueue E) := do
  ensure (q.event e).scheduled "event->scheduled()"
  ensure (q.event e).initialized "event->initialized()"
  let q ← remove fuel q e
  let event := modify q.event e fun v => { v with squashed := false, scheduled := false }
  if (event e).autoDelete then
    let event ← delete event e
    return { q with event := event }
  else
    return { q with event := event }

def removeScheduled (fuel : Nat) (q : EventQueue E) (e : E) : Chk (EventQueue E) :=
  if (q.event e).scheduled then remove fuel q e else return q

def reschedule (fuel : Nat) (q : EventQueue E) (now : Nat) (e : E) (tick : Nat) (always : Bool) :
    Chk (EventQueue E) := do
  ensure (now ≤ tick) "when >= curTick()"
  ensure (always || (q.event e).scheduled) "always || event->scheduled()"
  ensure (q.event e).initialized "event->initialized()"
  let q ← removeScheduled fuel q e
  let q ← insert fuel (q.setWhen e tick) e
  let event := modify q.event e fun v =>
    { v with squashed := false, scheduled := true, isMainQueue := q.isMain }
  return { q with event := event }

def retire (event : E → Event E) (e : E) : Chk (E → Event E) :=
  if (event e).autoDelete && !(event e).scheduled then delete event e else return event

def popHead (event : E → Event E) (e : E) : (E → Event E) × Option E :=
  match (event e).nextInBin with
  | some x => (modify event x fun v => { v with nextBin := (event e).nextBin }, some x)
  | none => (event, (event e).nextBin)

/-- `serviceOne` up to the event's action, with the event it takes off. The
action's own calls on the queue come next, and then `finish`; a squashed event
has no action. -/
def serviceOne (q : EventQueue E) : Chk (EventQueue E × E) := do
  let e ← need q.head (.undefined "head->nextInBin")
  let (event, head) := popHead (modify q.event e fun v => { v with scheduled := false }) e
  if (event e).squashed then
    let event ← retire (modify event e fun v => { v with squashed := false }) e
    return ({ q with head := head, event := event }, e)
  else
    return ({ q with head := head, event := event }, e)

def finish (q : EventQueue E) (e : E) : Chk (EventQueue E) :=
  if (q.event e).isExitEvent then do
    ensure (!(q.event e).autoDelete) "!event->flags.isSet(Event::AutoDelete)"
    return q
  else do
    let event ← retire q.event e
    return { q with event := event }

def squash (q : EventQueue E) (e : E) : EventQueue E :=
  { q with event := modify q.event e fun v => { v with squashed := true } }

end EventQueue

end Gem5
