import LinuxProgram.Lib.StepSystem

/-!
# The ticket lock

`spin_lock<LockPolicy::TICK, Aligned>` of `spinlock.hpp`, and threads that lock and
unlock it again and again.  A thread draws a ticket from `mNext` and waits until `mOwner` has come
to it; `unlock` calls the next ticket.  `Aligned` is about the layout only.

* `ThreadAt` — where a thread stands between two atomic steps.
* `State` — the two counters and the threads, with the order in which the threads have
  come to `mNext` and in which `lock` has returned.
* `threadStep`, `system` — all interleavings, for any number of threads.

Every access to a counter is one step, and the steps of the threads come in any order.
`std::atomic<int>` is 32 bits that wrap, so that two tickets may have the same number; with fewer
than `2 ^ 32` threads no two of them wait with the same one.
-/

namespace LinuxProgram.Utils.TicketLock

open Lib

/-- Where a thread stands between two accesses to the counters. -/
inductive ThreadAt
  /-- before `lock`, or behind `unlock` -/
  | outside
  /-- in the loop of `lock`, with the ticket that it has drawn -/
  | waiting (nextOwner : BitVec 32)
  /-- between the return of `lock` and `unlock`, where the lock is to keep the others out -/
  | inside
  deriving DecidableEq, Repr

/-- **The counters and the threads.**  The two lists are ghosts: no thread reads them, and they say
in which order the threads have come and gone in. -/
structure State (n : ℕ) where
  mOwner : BitVec 32
  mNext : BitVec 32
  threads : Fin n → ThreadAt
  /-- who has added to `mNext`, in order -/
  tickets : List (Fin n)
  /-- for whom `lock` has returned, in order -/
  acquired : List (Fin n)

variable {n : ℕ}

/-- **A step of a thread**: it draws a ticket, looks at `mOwner` once, or calls the next ticket.  A
thread that is outside may come back at any time. -/
def threadStep (t : Fin n) (s : State n) : State n :=
  match s.threads t with
  | .outside =>
      { s with
        mNext := s.mNext + 1
        threads := Function.update s.threads t (.waiting s.mNext)
        tickets := s.tickets ++ [t] }
  | .waiting nextOwner =>
      -- the loop spins: another turn of it is a step that changes nothing
      if nextOwner ≠ s.mOwner then s
      else { s with
        threads := Function.update s.threads t .inside
        acquired := s.acquired ++ [t] }
  | .inside =>
      { s with
        mOwner := s.mOwner + 1
        threads := Function.update s.threads t .outside }

/-- The lock is free, and nobody has had it yet. -/
def init (n : ℕ) : State n where
  mOwner := 0
  mNext := 0
  threads := fun _ => .outside
  tickets := []
  acquired := []

/-- **All interleavings** of `n` threads, each of which can always go on. -/
def system (n : ℕ) : StepSystem (State n) (Fin n) :=
  .ofFun (init n) fun t s => some (threadStep t s)

/-- **What the lock is for**: at most one thread is behind it, and the threads get it in the order
in which they have added to `mNext`. -/
structure Safe (s : State n) : Prop where
  exclusive : ∀ t t', s.threads t = .inside → s.threads t' = .inside → t = t'
  /-- first come, first served -/
  ordered : s.acquired <+: s.tickets

end LinuxProgram.Utils.TicketLock
