import LinuxProgram.Lib.Drain
import LinuxProgram.Binlog.LogReadSpec

/-!
# Logging threads and LogDump2File

The writing side of `serialization.h`.  A thread logs into a queue of its own, whose
cells are `LogEntry`s of 288 bytes.  `ParseEventSection` pushes the 560 bytes of a
description as two cells.  The dumper goes over the queues pass by pass and writes the
first record of each to the file.

* `Cell` — the memory of a cell.  It is read as the file is.
* `LogInfoPerThread` — a queue.  `pushed` is a history: what the thread has pushed,
  or begun to.
* `Writer` — the threads in the order of their registration, the file, and where the
  dumper stands.
* `nextWriter` — the step function.  The dumper waits in the middle of a description
  for its second cell, and the other threads go on.
* `initWrite` — what `InitWrite` leaves behind; `loggingSystem` are the runs in which
  threads log from then on.

`SPSCQueue` is a queue: first in, first out.  `write2File` appends the whole buffer.
`mLogInfoAllThreads` is a list here.
-/

namespace LinuxProgram.Binlog

open Lib

/-! ### Cells -/

/-- **A cell of a queue**, the memory of a `LogEntry`. -/
structure Cell where
  bytes : Bytes
  length : bytes.length = 288

namespace Cell

def file (c : Cell) : File := ⟨c.bytes, by rw [c.length]; decide⟩

/-- `isEventDesc(pEntry)` -/
def isEventDesc (c : Cell) : Bool := c.file.isEventDesc 0

/-- `entryLength()` -/
def entryLength (c : Cell) : ℕ := (32 + c.file.word 8) % 2 ^ 64

/-- The cell behind a copy to its front; the rest of it is as it was. -/
def memcpy (c : Cell) (data : Bytes) : Cell where
  bytes := (data ++ c.bytes.drop data.length).take 288
  length := by
    rw [List.length_take, List.length_append, List.length_drop, c.length]
    omega

end Cell

/-- What is pushed for a record, cell by cell. -/
def Record.parts : Record → List Bytes
  | .desc d => [d.bytes.take 288, d.bytes.drop 288]
  | .entry e => [e.bytes]

/-! ### Threads -/

/-- **`LogInfoPerThread`**, and the description of which only the first cell is
pushed yet. -/
structure LogInfoPerThread where
  mLogBuffer : List Cell
  unfinished : Option EventDescDump
  pushed : List Record

namespace LogInfoPerThread

/-- A thread that has just registered. -/
def fresh : LogInfoPerThread := ⟨[], none, []⟩

/-- `UBI_LITERAL_LOG_INFO`, for a payload that fits a cell.  The entry is pushed as one cell, with
whatever the cell had behind it. -/
def log (t : LogInfoPerThread) (e : LogEntry) (cell : Cell) : Option LogInfoPerThread :=
  if t.unfinished.isNone ∧ e.mBuffer.length ≤ 256 then
    some { t with
      mLogBuffer := t.mLogBuffer ++ [cell.memcpy e.bytes]
      pushed := t.pushed ++ [.entry e] }
  else none

/-- The first cell that `ParseEventSection` pushes for a description. -/
def dumpFirst (t : LogInfoPerThread) (d : EventDescDump) (cell : Cell) :
    Option LogInfoPerThread :=
  if t.unfinished.isNone then
    some {
      mLogBuffer := t.mLogBuffer ++ [cell.memcpy (d.bytes.take 288)]
      unfinished := some d
      pushed := t.pushed ++ [.desc d] }
  else none

/-- The second cell. -/
def dumpSecond (t : LogInfoPerThread) (cell : Cell) : Option LogInfoPerThread :=
  t.unfinished.map fun d =>
    { t with
      mLogBuffer := t.mLogBuffer ++ [cell.memcpy (d.bytes.drop 288)]
      unfinished := none }

end LogInfoPerThread

/-! ### The dumper -/

/-- Where the dumper stands.  A visit of a queue is one step, or two if it finds a description,
between which it waits for the second cell. -/
inductive DumperAt
  /-- between two passes -/
  | idle
  /-- in `consume_all`, before it calls its function for `index` -/
  | visiting (index currentSize : ℕ)
  /-- in the function, before the second cell of a description -/
  | second (index currentSize : ℕ)
  deriving DecidableEq, Repr

/-- **The state of the writing side.** -/
structure Writer where
  mLogInfoAllThreads : List LogInfoPerThread
  file : Bytes
  dumper : DumperAt

namespace Writer

/-- A cell leaves the queue of a thread, and the dumper appends `data`. -/
def popWrite (s : Writer) (index : ℕ) (t : LogInfoPerThread) (queue : List Cell) (data : Bytes)
    (dumper : DumperAt) : Writer where
  mLogInfoAllThreads := s.mLogInfoAllThreads.set index { t with mLogBuffer := queue }
  file := s.file ++ data
  dumper := dumper

/-- The call of the dumper's function for the thread at `index`, up to the second
cell of a description. -/
def visit (s : Writer) (index currentSize : ℕ) (t : LogInfoPerThread) : Writer :=
  match t.mLogBuffer with
  -- nothing to read: the next thread's turn
  | [] => { s with dumper := .visiting (index + 1) currentSize }
  | pEntry :: queue =>
      -- the whole cell, which is the front of the description
      if pEntry.isEventDesc then
        s.popWrite index t queue pEntry.bytes (.second index currentSize)
      else
        s.popWrite index t queue (pEntry.bytes.take pEntry.entryLength)
          (.visiting (index + 1) currentSize)

/-- The rest of the call: it spins until there is a second cell. -/
def finish (s : Writer) (index currentSize : ℕ) (t : LogInfoPerThread) : Writer :=
  match t.mLogBuffer with
  | [] => s
  | pEntry :: queue =>
      s.popWrite index t queue (pEntry.bytes.take (560 - 288)) (.visiting (index + 1) currentSize)

/-- A step of `LogDump2File`: it loads the number of queues for a pass, looks at one of them and
writes what is in front of it, or ends the pass behind the last. -/
def dumperStep (s : Writer) : Option Writer :=
  match s.dumper with
  -- the number of threads is read once for a pass
  | .idle => some { s with dumper := .visiting 0 s.mLogInfoAllThreads.length }
  | .visiting index currentSize =>
      if index < currentSize then
        (s.mLogInfoAllThreads[index]?).map (s.visit index currentSize)
      else some { s with dumper := .idle }
  | .second index currentSize => (s.mLogInfoAllThreads[index]?).map (s.finish index currentSize)

end Writer

/-! ### Runs -/

/-- Whose step it is.  `cell` is what the memory of the cell held before. -/
inductive WriterAction
  /-- a thread registers its queue -/
  | register
  | log (index : ℕ) (e : LogEntry) (cell : Cell)
  | dumpFirst (index : ℕ) (d : EventDescDump) (cell : Cell)
  | dumpSecond (index : ℕ) (cell : Cell)
  | dumper

/-- A step of the thread at `index`. -/
def Writer.thread (s : Writer) (index : ℕ) (f : LogInfoPerThread → Option LogInfoPerThread) :
    Option Writer :=
  (s.mLogInfoAllThreads[index]?).bind fun t => (f t).map fun t' =>
    { s with mLogInfoAllThreads := s.mLogInfoAllThreads.set index t' }

/-- **The step function.** -/
def nextWriter : WriterAction → Writer → Option Writer
  | .register, s => some { s with mLogInfoAllThreads := s.mLogInfoAllThreads ++ [.fresh] }
  | .log index e cell, s => s.thread index fun t => t.log e cell
  | .dumpFirst index d cell, s => s.thread index fun t => t.dumpFirst d cell
  | .dumpSecond index cell, s => s.thread index fun t => t.dumpSecond cell
  | .dumper, s => s.dumperStep

/-- `END_EVENT_ID` -/
def endEventID : ℕ := 2 ^ 64 - 1

/-- **The record that ends the event section**, with its other members
uninitialised. -/
structure EndMark extends EventDescDump where
  id : mEventID = endEventID

/-- The file that `ParseEventSection` has written, and no thread yet. -/
def Writer.start (endMark : EndMark) : Writer where
  mLogInfoAllThreads := []
  file := endMark.bytes
  dumper := .idle

/-- **All interleavings** of threads that register and push, and the dumper. -/
def writerSystem (endMark : EndMark) : StepSystem Writer WriterAction :=
  .ofFun (.start endMark) nextWriter

/-! ### Behind InitWrite -/

/-- **`EventDesc`**, with the texts as `strcpy` leaves them in the members of
`EventDescDump`.  So its file, its function, its format and its class tag have fewer than 128
characters and its level fewer than 32, which `strcpy` does not check (`record_iff`).  The id of
an event is its own address. -/
structure EventDesc where
  mEventID : ℕ
  mFile : Vector UInt8 128
  mFunc : Vector UInt8 128
  mLevel : Vector UInt8 32
  mLineNo : ℕ
  mFormat : Vector UInt8 128
  mClassTag : Vector UInt8 128
  lt : mEventID < 2 ^ 63 - 1

/-- `EventDescDump(event)` -/
def EventDesc.dump (event : EventDesc) : EventDescDump where
  mEventID := descdumpBitFlag ||| event.mEventID
  mFile := event.mFile
  mFunc := event.mFunc
  mLevel := event.mLevel
  mLineNo := event.mLineNo
  mFormat := event.mFormat
  mClassTag := event.mClassTag
  lt := Nat.or_lt_two_pow (by decide) (event.lt.trans (by decide))
  flag := Nat.left_le_or

/-- **The event section**, the end mark, and what the cells of the queue of the
initialising thread held before. -/
structure Setup where
  events : List EventDesc
  nodup : (events.map EventDesc.mEventID).Nodup
  endMark : EndMark
  cell : ℕ → Cell

/-- The two cells of a description. -/
def EventDescDump.cells (d : EventDescDump) (first second : Cell) : List Cell :=
  [first.memcpy (d.bytes.take 288), second.memcpy (d.bytes.drop 288)]

/-- What `ParseEventSection` pushes, from a cell on. -/
def pushEvents (cell : ℕ → Cell) : ℕ → List EventDesc → List Cell
  | _, [] => []
  | n, event :: events =>
      event.dump.cells (cell n) (cell (n + 1)) ++ pushEvents cell (n + 2) events

/-- **What `InitWrite` leaves behind**: the initialising thread is registered, and all
descriptions are in its queue. -/
def initWrite (S : Setup) : Writer where
  mLogInfoAllThreads := [{
    mLogBuffer := pushEvents S.cell 0 S.events
    unfinished := none
    pushed := S.events.map fun event => .desc event.dump }]
  file := S.endMark.bytes
  dumper := .idle

/-- The event an entry names. -/
def Setup.Known (S : Setup) (e : LogEntry) : Prop := ∃ event ∈ S.events, event.mEventID = e.mEventID

instance (S : Setup) (e : LogEntry) : Decidable (S.Known e) :=
  inferInstanceAs (Decidable (∃ event ∈ S.events, event.mEventID = e.mEventID))

/-- What threads do behind `InitWrite`: they log entries of events. -/
def Setup.Logs (S : Setup) : WriterAction → Prop
  | .log _ e _ => S.Known e
  | .dumpFirst _ _ _ | .dumpSecond _ _ => False
  | .register | .dumper => True

instance (S : Setup) : DecidablePred S.Logs
  | .log _ e _ => inferInstanceAs (Decidable (S.Known e))
  | .dumpFirst _ _ _ | .dumpSecond _ _ => isFalse id
  | .register | .dumper => isTrue trivial

/-- **All interleavings** of logging threads and the dumper behind `InitWrite`. -/
def loggingSystem (S : Setup) : StepSystem Writer WriterAction where
  init s := s = initWrite S
  step s a s' := S.Logs a ∧ nextWriter a s = some s'

end LinuxProgram.Binlog
