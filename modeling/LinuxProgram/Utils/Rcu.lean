import LinuxProgram.Lib.StepSystem

/-!
# Read-copy-update

`rcu.hpp`, and the threads of its test: readers, a writer that replaces the object
behind `gObjPtr`, and a thread that deletes what was replaced.

* `ReaderThread`, `WriterAt`, `FreeAt` — where the threads stand between two atomic
  steps, and the version each reader has published.
* `State` — the shared variables, with the objects that were deleted.
* `readerStep`, `writerStep`, `freeStep` — the steps of the three functions of the
  test.  `lock` of a reader is two of them: it loads `GlobalVersion` and stores what it
  has loaded.
* `system` — all interleavings, for any number of readers.

An object is known by the number of its allocation: a new object is not one that was
deleted, also where it gets the same memory.  `GlobalVersion` does not wrap.  How many
objects `FreeFunc` lets come together before it deletes them, 15 in the test, is a
parameter.
-/

namespace LinuxProgram.Utils.Rcu

open Lib

/-- `NoRCURead`, which a reader publishes while it uses no object.  It is no version, because
`GlobalVersion` begins with 1. -/
def noRCURead : ℕ := 0

/-- Where a reader stands between two accesses to the shared variables. -/
inductive ReaderAt
  | outside
  /-- in `lock`, with the version it has loaded -/
  | locking (version : ℕ)
  /-- behind `lock` -/
  | locked
  /-- with the object it has loaded, which it uses until `unlock` -/
  | reading (obj : ℕ)
  deriving DecidableEq, Repr

/-- **A reader**, with its `CurrentVersionPerThread`.  What is published may be older than what the
reader has loaded: between the two steps of `lock` the writer and `wait` can come in. -/
structure ReaderThread where
  currentVersion : ℕ
  pos : ReaderAt
  deriving DecidableEq, Repr

/-- Where `WriteFunc` stands, on its way from a new object to the list of those to be deleted. -/
inductive WriterAt
  | start
  /-- with the copy it has made -/
  | copied (tmp : ℕ)
  /-- with the object it is about to replace -/
  | replacing (tmp old : ℕ)
  | published (old : ℕ)
  /-- holding `lock_for_node` -/
  | locked (old : ℕ)
  | pushed
  deriving DecidableEq, Repr

/-- Where `FreeFunc` stands.  It holds `lock_for_node` from the test of the list until the list is
empty, also while it waits for the readers. -/
inductive FreeAt
  | start
  /-- holding `lock_for_node` -/
  | locked
  /-- in the loop of `wait`, before the version at `index` -/
  | scanning (tmp index leastVersion : ℕ)
  /-- behind `wait` -/
  | deleting
  deriving DecidableEq, Repr

/-- **The shared variables and the threads.**  The back of `FreeObjList` is the head of
the list. -/
structure State (n : ℕ) where
  GlobalVersion : ℕ
  gObjPtr : ℕ
  FreeObjList : List ℕ
  /-- `lock_for_node` is held -/
  lockForNode : Bool
  readers : Fin n → ReaderThread
  writer : WriterAt
  free : FreeAt
  /-- the number of the next object -/
  nextObj : ℕ
  deleted : List ℕ

variable {n : ℕ}

/-- A reader goes on. -/
def State.setReader (s : State n) (r : Fin n) (t : ReaderThread) : State n :=
  { s with readers := Function.update s.readers r t }

/-- **A step of `ReaderFunc`**, which locks, loads the pointer, uses the object and unlocks, over
and over. -/
def readerStep (s : State n) (r : Fin n) : State n :=
  match (s.readers r).pos with
  -- `lock` loads the version here and stores it with the next step
  | .outside => s.setReader r { s.readers r with pos := .locking s.GlobalVersion }
  | .locking version => s.setReader r { currentVersion := version, pos := .locked }
  | .locked => s.setReader r { s.readers r with pos := .reading s.gObjPtr }
  | .reading _ => s.setReader r { currentVersion := noRCURead, pos := .outside }

/-- **A step of `WriteFunc`**, which copies the object, replaces it and puts the old one on
`FreeObjList`. -/
def writerStep (s : State n) : Option (State n) :=
  match s.writer with
  | .start => some { s with nextObj := s.nextObj + 1, writer := .copied s.nextObj }
  | .copied tmp => some { s with writer := .replacing tmp s.gObjPtr }
  | .replacing tmp old => some { s with gObjPtr := tmp, writer := .published old }
  -- a thread that finds the mutex locked takes no step
  | .published old =>
      if s.lockForNode then none else some { s with lockForNode := true, writer := .locked old }
  | .locked old => some { s with FreeObjList := old :: s.FreeObjList, writer := .pushed }
  | .pushed => some { s with lockForNode := false, writer := .start }

/-- The loop of `wait` looks at the version of a reader, and leaves out those that are not
reading. -/
def leastOf (leastVersion version : ℕ) : ℕ :=
  if version ≠ noRCURead then min leastVersion version else leastVersion

/-- **A step of `FreeFunc`**, with `wait` in it.  The readers are looked at one at a time, so that
each version is from another moment. -/
def freeStep (batch : ℕ) (s : State n) : Option (State n) :=
  match s.free with
  | .start => if s.lockForNode then none else some { s with lockForNode := true, free := .locked }
  | .locked =>
      -- `continue`, which releases the lock
      if s.FreeObjList.length < batch then some { s with lockForNode := false, free := .start }
      else some { s with
        GlobalVersion := s.GlobalVersion + 1
        free := .scanning s.GlobalVersion 0 (s.GlobalVersion + 1) }
  | .scanning tmp index leastVersion =>
      if h : index < n then
        let version := (s.readers ⟨index, h⟩).currentVersion
        some { s with free := .scanning tmp (index + 1) (leastOf leastVersion version) }
      else if leastVersion > tmp then some { s with free := .deleting }
      -- some reader is still under an old version: `wait` goes round again
      else some { s with free := .scanning tmp 0 (tmp + 1) }
  | .deleting =>
      match s.FreeObjList with
      | [] => some { s with lockForNode := false, free := .start }
      | obj :: rest => some { s with FreeObjList := rest, deleted := obj :: s.deleted }

/-- Whose step it is. -/
inductive Action (n : ℕ)
  | reader (r : Fin n)
  | writer
  | free
  deriving DecidableEq, Repr

def next (batch : ℕ) : Action n → State n → Option (State n)
  | .reader r, s => some (readerStep s r)
  | .writer, s => writerStep s
  | .free, s => freeStep batch s

/-- All readers are registered, and the first object is behind `gObjPtr`. -/
def init (n : ℕ) : State n where
  GlobalVersion := 1
  gObjPtr := 0
  FreeObjList := []
  lockForNode := false
  readers := fun _ => ⟨noRCURead, .outside⟩
  writer := .start
  free := .start
  nextObj := 1
  deleted := []

/-- **All interleavings** of `n` readers, the writer and the thread that deletes. -/
def system (n batch : ℕ) : StepSystem (State n) (Action n) := .ofFun (init n) (next batch)

/-- **No reader uses an object that was deleted**: what it has loaded stays allocated until it
unlocks. -/
def State.Safe (s : State n) : Prop :=
  ∀ r obj, (s.readers r).pos = .reading obj → obj ∉ s.deleted

end LinuxProgram.Utils.Rcu
