import LinuxProgram.Lib.Agents
import LinuxProgram.Lib.StepSystem

/-!
# The sequence lock

The functions of `seqlock_readme.h`, and the clock that `do_realtime` reads: writers change its two
words between `write_seqlock` and `write_sequnlock`, and readers read them without a lock.  A reader
looks at the sequence before and after, and reads again if it has changed.

* `WriterAt`, `ReaderAt` — where a thread stands between two accesses.
* `State` — the sequence, the clock and the threads.  The times that were written and how often the
  sequence was incremented are kept as well; no step depends on them.
* `nextSeqLock`, `seqSystem` — all interleavings.  The barriers of the source are what keeps the
  accesses in their order.
* `SpinLock` — what is relied on of `spin_lock` and `spin_unlock`.

`sequence` is an `unsigned` that wraps.  Four functions that the header calls are not in the
repository.  `vgetns` returns any number, a step of its own in the loop, and `timespec_add_ns` is a
parameter.  Of `spin_lock` and `spin_unlock` there is no code either: a call of `spin_lock` may
return at any step here, and that it does so only while nobody has the lock is a condition on runs.
-/

namespace LinuxProgram.Utils.SeqLock

open Lib

/-- A `timespec`, and the two words `wall_time_sec` and `wall_time_nsec` of the clock, which a
writer sets one after the other. -/
abbrev Time := ℤ × ℤ

/-- **Where a writer stands** that is to set the clock, from the call of `write_seqlock` to the
return of `write_sequnlock`. -/
inductive WriterAt
  | idle
  /-- in `spin_lock` -/
  | lock (ts : Time)
  /-- before the increment of `write_seqlock` -/
  | seqlock (ts : Time)
  | storeSec (ts : Time)
  | storeNsec (ts : Time)
  /-- before the increment of `write_sequnlock` -/
  | sequnlock (ts : Time)
  /-- before `spin_unlock` -/
  | unlock
  deriving DecidableEq, Repr

/-- **What `read_seqbegin` has returned**, with the number of increments at that time, and the time
that was on the clock when the call of `do_realtime` began. -/
structure Start where
  seq : UInt32
  increments : ℕ
  called : ℕ
  deriving DecidableEq, Repr

/-- **Where a reader stands** in `do_realtime`, with what it has in its local variables. -/
inductive ReaderAt
  | idle
  /-- in the loop of `read_seqbegin` -/
  | seqbegin (called : ℕ)
  | loadSec (start : Start)
  | loadNsec (start : Start) (sec : ℤ)
  | vgetns (start : Start) (ts : Time)
  /-- before `read_seqretry` -/
  | seqretry (start : Start) (ts : Time) (ns : UInt64)
  /-- behind the loop, before `timespec_add_ns` -/
  | addNs (called : ℕ) (ts : Time) (ns : UInt64)
  /-- The caller finds `now` in its `timespec`; `ts` and `ns` are what the loop has left. -/
  | returned (called : ℕ) (ts : Time) (ns : UInt64) (now : Time)
  deriving DecidableEq, Repr

/-- **The lock, the clock and the threads**, with the times that the clock has had as a ghost. -/
structure State where
  sequence : UInt32
  clock : Time
  writers : List WriterAt
  readers : List ReaderAt
  /-- the times that were on the clock, the first one included -/
  times : List Time
  increments : ℕ
  deriving DecidableEq, Repr

def State.start (ts : Time) (writers readers : ℕ) : State where
  sequence := 0
  clock := ts
  writers := List.replicate writers .idle
  readers := List.replicate readers .idle
  times := [ts]
  increments := 0

def State.setWriter (s : State) (i : ℕ) (w : WriterAt) : State :=
  { s with writers := s.writers.set i w }

def State.setReader (s : State) (i : ℕ) (r : ReaderAt) : State :=
  { s with readers := s.readers.set i r }

/-- `++sl->sequence`, 32 bits that wrap; the ghost beside it counts on. -/
def State.increment (s : State) : State :=
  { s with sequence := s.sequence + 1, increments := s.increments + 1 }

/-- **A step of a writer**: `write_seqlock`, the two words, and `write_sequnlock`. -/
def State.writerStep (s : State) (i : ℕ) : WriterAt → Option State
  | .idle => none
  | .lock ts => some (s.setWriter i (.seqlock ts))
  | .seqlock ts => some (s.setWriter i (.storeSec ts)).increment
  | .storeSec ts => some { s.setWriter i (.storeNsec ts) with clock := (ts.1, s.clock.2) }
  | .storeNsec ts => some { s.setWriter i (.sequnlock ts) with clock := (s.clock.1, ts.2) }
  | .sequnlock ts => some { (s.setWriter i .unlock).increment with times := s.times ++ [ts] }
  | .unlock => some (s.setWriter i .idle)

variable (timespecAddNs : Time → UInt64 → Time)

/-- **A step of a reader**: `read_seqbegin`, the two words, `read_seqretry`, and behind the loop
`timespec_add_ns`.  What `vgetns` returns in between is an action of its own. -/
def State.readerStep (s : State) (i : ℕ) : ReaderAt → Option State
  | .idle => none
  | .seqbegin called =>
      if s.sequence &&& 1 = 0 then
        some (s.setReader i (.loadSec ⟨s.sequence, s.increments, called⟩))
      else some s
  | .loadSec start => some (s.setReader i (.loadNsec start s.clock.1))
  | .loadNsec start sec => some (s.setReader i (.vgetns start (sec, s.clock.2)))
  | .vgetns _ _ => none
  | .seqretry start ts ns =>
      if s.sequence ≠ start.seq then some (s.setReader i (.seqbegin start.called))
      else some (s.setReader i (.addNs start.called ts ns))
  | .addNs called ts ns => some (s.setReader i (.returned called ts ns (timespecAddNs ts ns)))
  | .returned _ _ _ _ => some (s.setReader i .idle)

inductive SeqAction
  /-- A writer is to set the clock. -/
  | write (writer : ℕ) (ts : Time)
  | writer (writer : ℕ)
  /-- A reader calls `do_realtime`. -/
  | read (reader : ℕ)
  | reader (reader : ℕ)
  /-- `vgetns` returns to a reader. -/
  | vgetns (reader : ℕ) (ns : UInt64)

def nextSeqLock : SeqAction → State → Option State
  | .write i ts, s =>
      match s.writers[i]? with
      | some .idle => some (s.setWriter i (.lock ts))
      | _ => none
  | .writer i, s => s.writers[i]?.bind (s.writerStep i)
  | .read i, s =>
      match s.readers[i]? with
      | some .idle => some (s.setReader i (.seqbegin (s.times.length - 1)))
      | _ => none
  | .reader i, s => s.readers[i]?.bind (s.readerStep timespecAddNs i)
  | .vgetns i ns, s =>
      match s.readers[i]? with
      | some (.vgetns start ts) => some (s.setReader i (.seqretry start ts ns))
      | _ => none

/-- The writer is between the return of `spin_lock` and its `spin_unlock`. -/
def WriterAt.hasLock : WriterAt → Bool
  | .idle => false
  | .lock _ => false
  | _ => true

/-- The writer is in `spin_lock`. -/
def WriterAt.waits : WriterAt → Bool
  | .lock _ => true
  | _ => false

/-- **What the header relies on**: `spin_lock` returns to a writer only while no writer is between
its return and `spin_unlock`.  It is a condition on the steps of a run. -/
def SpinLock (s : State) : SeqAction → Prop
  | .writer i => ∀ w ∈ s.writers[i]?, w.waits = true → ∀ w' ∈ s.writers, w'.hasLock = false
  | _ => True

end LinuxProgram.Utils.SeqLock
