import Mathlib.Logic.Function.Basic
import Hps.Lib.OrderedSet
import Hps.Lib.Run

/-!
# Timers — the timer set and its operations

`timer.cc` as functions on the state of a `TimerManager` and the `Timer`
objects it shares with its users. A timer is known by its address, since
the set's comparator falls back on it; `heap` is what lies at an address.
Each call is one step, under the manager's write lock, and takes the clock
reading `GetCurrentMS` gives it as an argument.
-/

namespace Hps.Timers

open Hps.Lib

/-- The value of a `Timer *`. -/
abbrev Addr := Nat

/-- The target of a `std::function<void()>`; an empty one is `none`. -/
abbrev Callback := Nat

structure Timer where
  recurring : Bool := false
  ms : UInt64 := 0
  next : UInt64 := 0
  cb : Option Callback := none
deriving DecidableEq, Repr

/-- `Timer::Comparator`: null pointers first, then by deadline, then by
address. -/
def comparator (heap : Addr → Timer) : Option Nat → Option Nat → Bool
  | none, none => false
  | none, some _ => true
  | some _, none => false
  | some lhs, some rhs =>
      if (heap lhs).next < (heap rhs).next then true
      else if (heap rhs).next < (heap lhs).next then false
      else lhs < rhs

/-- The comparator on two timers, as the order of the set. -/
def Before (heap : Addr → Timer) (a b : Addr) : Prop :=
  comparator heap (some a) (some b) = true

instance (heap : Addr → Timer) : DecidableRel (Before heap) :=
  fun a b => inferInstanceAs (Decidable (comparator heap (some a) (some b) = true))

structure TimerManager where
  /-- Never-allocated addresses hold a timer without a callback, on which
  every member function of `Timer` returns at once. -/
  heap : Addr → Timer := fun _ => {}
  /-- `m_timers`, in the order of the comparator. -/
  timers : List Addr := []
  tickled : Bool := false
  previouseTime : UInt64
  /-- How often `onTimerInsertedAtFront` has been called. -/
  insertedAtFront : Nat := 0

namespace TimerManager

/-- `TimerManager::TimerManager`. -/
def init (now : UInt64) : TimerManager := { previouseTime := now }

/-- Assignment to the members of a timer. -/
def put (m : TimerManager) (t : Addr) (v : Timer) : TimerManager :=
  { m with heap := Function.update m.heap t v }

/-- `m_timers.insert`. -/
def insert (m : TimerManager) (t : Addr) : TimerManager :=
  { m with timers := OrderedSet.insert (Before m.heap) t m.timers }

/-- `m_timers.find`. -/
def find (m : TimerManager) (t : Addr) : Option Addr :=
  OrderedSet.find (Before m.heap) t m.timers

/-- `m_timers.erase` of an iterator that is not `end()`. -/
def erase (m : TimerManager) (it : Addr) : TimerManager :=
  { m with timers := m.timers.erase it }

/-- `addTimer(Timer::ptr, WriteLock &)`. -/
def addTimerLocked (m : TimerManager) (val : Addr) : TimerManager :=
  let m := m.insert val
  let atFront := m.timers.head? == some val && !m.tickled
  { m with
    tickled := m.tickled || atFront
    insertedAtFront := m.insertedAtFront + if atFront then 1 else 0 }

/-- `addTimer(uint64_t, std::function<void()>, bool)`: the new timer lies at
`addr`. -/
def addTimer (m : TimerManager) (addr : Addr) (ms : UInt64)
    (cb : Option Callback) (recurring : Bool) (now : UInt64) : TimerManager :=
  (m.put addr { recurring, ms, next := now + ms, cb }).addTimerLocked addr

/-- `Timer::cancel`; `none` is the undefined `m_timers.erase(end())`. -/
def cancel (m : TimerManager) (t : Addr) : Option (TimerManager × Bool) :=
  if (m.heap t).cb.isSome then
    let m := m.put t { m.heap t with cb := none }
    (m.find t).map fun it => (m.erase it, true)
  else some (m, false)

/-- `Timer::refresh`. -/
def refresh (m : TimerManager) (t : Addr) (now : UInt64) : TimerManager × Bool :=
  if (m.heap t).cb.isNone then (m, false)
  else
    match m.find t with
    | none => (m, false)
    | some it =>
        let m := m.erase it
        let m := m.put t { m.heap t with next := now + (m.heap t).ms }
        (m.insert t, true)

/-- `Timer::reset`. -/
def reset (m : TimerManager) (t : Addr) (ms : UInt64) (fromNow : Bool)
    (now : UInt64) : TimerManager × Bool :=
  if ms == (m.heap t).ms && !fromNow then (m, true)
  else if (m.heap t).cb.isNone then (m, false)
  else
    match m.find t with
    | none => (m, false)
    | some it =>
        let m := m.erase it
        let start := if fromNow then now else (m.heap t).next - (m.heap t).ms
        let m := m.put t { m.heap t with ms := ms, next := start + ms }
        (m.addTimerLocked t, true)

/-- `getNextTimer`: the time to the first deadline; `~0ull` if there is
none. -/
def getNextTimer (m : TimerManager) (now : UInt64) : TimerManager × UInt64 :=
  let m := { m with tickled := false }
  match m.timers with
  | [] => (m, ~~~0)
  | next :: _ =>
      if now ≥ (m.heap next).next then (m, 0)
      else (m, (m.heap next).next - now)

/-- `detectClockRollover`: the clock stands more than an hour before the
last reading; the subtraction wraps. -/
def detectClockRollover (m : TimerManager) (now : UInt64) :
    TimerManager × Bool :=
  let rollover :=
    decide (now < m.previouseTime) &&
      decide (now < m.previouseTime - 60 * 60 * 1000)
  ({ m with previouseTime := now }, rollover)

/-- One round of the loop over `expired` in `listExpiredCb`. -/
def expire (now : UInt64) (r : TimerManager × List (Option Callback))
    (t : Addr) : TimerManager × List (Option Callback) :=
  let (m, cbs) := r
  let cbs := cbs ++ [(m.heap t).cb]
  if (m.heap t).recurring then
    ((m.put t { m.heap t with next := now + (m.heap t).ms }).insert t, cbs)
  else (m.put t { m.heap t with cb := none }, cbs)

/-- The cut `listExpiredCb` makes in the set: all of it on a rollover, else
`lower_bound` of the probe `now_timer`, which lies at `probe`, and the scan
over the deadlines that equal `now` behind it. -/
def cut (m : TimerManager) (now : UInt64) (probe : Addr) (rollover : Bool) :
    List Addr × List Addr :=
  let (before, it) :=
    if rollover then (m.timers, [])
    else OrderedSet.lowerBound
      (Before (Function.update m.heap probe { next := now })) probe m.timers
  let (ties, it) := it.span fun t => (m.heap t).next == now
  (before ++ ties, it)

/-- `listExpiredCb`. -/
def listExpiredCb (m : TimerManager) (now : UInt64) (probe : Addr)
    (cbs : List (Option Callback)) : TimerManager × List (Option Callback) :=
  match m.timers with
  | [] => (m, cbs)
  | first :: _ =>
      let (m, rollover) := m.detectClockRollover now
      if !rollover && decide ((m.heap first).next > now) then (m, cbs)
      else
        let (expired, rest) := m.cut now probe rollover
        expired.foldl (expire now) ({ m with timers := rest }, cbs)

end TimerManager

/-! ## Runs -/

/-- A call, with the clock reading it makes and the address of the timer it
allocates. `addConditionTimer` is `addTimer` with a wrapped callback. -/
inductive Op where
  | addTimer (addr : Addr) (ms : UInt64) (cb : Option Callback)
      (recurring : Bool) (now : UInt64)
  | cancel (t : Addr)
  | refresh (t : Addr) (now : UInt64)
  | reset (t : Addr) (ms : UInt64) (fromNow : Bool) (now : UInt64)
  | listExpiredCb (now : UInt64) (probe : Addr)
  | getNextTimer (now : UInt64)
deriving DecidableEq, Repr

/-- One call. `new Timer` never returns the address of a timer that is
alive, and those in the set are. -/
def step (m : TimerManager) : Op → Option TimerManager
  | .addTimer addr ms cb recurring now =>
      if addr ∈ m.timers then none
      else some (m.addTimer addr ms cb recurring now)
  | .cancel t => (m.cancel t).map (·.1)
  | .refresh t now => some (m.refresh t now).1
  | .reset t ms fromNow now => some (m.reset t ms fromNow now).1
  | .listExpiredCb now probe =>
      if probe ∈ m.timers then none
      else some (m.listExpiredCb now probe []).1
  | .getNextTimer now => some (m.getNextTimer now).1

end Hps.Timers
