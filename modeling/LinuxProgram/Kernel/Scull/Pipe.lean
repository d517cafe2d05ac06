import LinuxProgram.Kernel.Scull.Ioctl
import LinuxProgram.Lib.CircularBuffer
import LinuxProgram.Lib.StepSystem

/-!
# scullpipe

`pipe.c` of the scull driver: a circular buffer that tasks read and write, and in which they wait
for each other.  A call is cut where another task can come in between: at the semaphore, and at the
places where it touches the device or the wait queues without it.

* `ScullPipe` — the device.  The pointers `rp` and `wp` are offsets in the buffer.
* `spacefree`, `readAtLock`, `writeAtLock` — what `scull_p_read` and `scull_p_write` do with
  the semaphore.
* `Stage` — where a call is.  A task that waits stands in the queue first and then tests what it
  waits for, without the semaphore, so that a wake-up between the test and `schedule` is not lost.
* `PipeSystem`, `nextPipe` — the files and the tasks, and what can happen next.

The step of `wrap` is one of its own: until then a pointer may stand on `end`, and the tests of the
tasks that wait see it there.
-/

namespace LinuxProgram.Kernel.Scull

open Lib

/-- **`struct scull_pipe`**, with the pointers as offsets in the buffer.  `end` is `buffersize`, and
the two wait queues are the stages of the tasks. -/
structure ScullPipe where
  buffer : Option (Block (List Cell))
  buffersize : ℤ
  rp : ℕ
  wp : ℕ
  nreaders : ℤ
  nwriters : ℤ
  deriving DecidableEq, Repr

/-- A `scull_pipe` that was cleared, as `scull_p_init` leaves it before the first `open`. -/
def ScullPipe.zero : ScullPipe := ⟨none, 0, 0, 0, 0, 0⟩

/-- **An open file**: its modes, by which readers and writers are counted, and whether it has
`O_NONBLOCK`, with which a call returns `EAGAIN` instead of waiting. -/
structure PipeFile where
  fmodeRead : Bool
  fmodeWrite : Bool
  nonblock : Bool
  deriving DecidableEq, Repr

/-- **`scull_p_open`** — the device, or `none` if there is no memory.  Only the first file gets a
buffer, but every file sets the size again, to what the parameter is now, and empties the buffer. -/
def scullPOpen (scullPBuffer : ℤ) (dev : ScullPipe) (file : PipeFile) (m : Slab) :
    Option (ScullPipe × Slab) :=
  let buffer := match dev.buffer with
    | some block => some (block, m)
    | none => (m.kmalloc scullPBuffer).map fun (addr, m) =>
        (⟨addr, List.replicate scullPBuffer.toNat none⟩, m)
  buffer.map fun (block, m) =>
    ({ buffer := some block
       buffersize := scullPBuffer
       rp := 0
       wp := 0
       nreaders := if file.fmodeRead then dev.nreaders + 1 else dev.nreaders
       nwriters := if file.fmodeWrite then dev.nwriters + 1 else dev.nwriters }, m)

/-- **`scull_p_release`.**  With the last reader and the last writer the buffer goes; the other
members are as they were, and `scull_p_open` looks at none of them. -/
def scullPRelease (dev : ScullPipe) (file : PipeFile) (m : Slab) : ScullPipe × Slab :=
  let nreaders := if file.fmodeRead then dev.nreaders - 1 else dev.nreaders
  let nwriters := if file.fmodeWrite then dev.nwriters - 1 else dev.nwriters
  let dev := { dev with nreaders := nreaders, nwriters := nwriters }
  if nreaders + nwriters = 0 then
    ({ dev with buffer := none }, match dev.buffer with
      | some block => m.kfree block.addr
      | none => m)
  else (dev, m)

/-- **`spacefree`.**  One byte always stays free, since equal pointers mean an empty buffer. -/
def spacefree (dev : ScullPipe) : ℤ :=
  if dev.rp = dev.wp then dev.buffersize - 1
  else (dev.rp + dev.buffersize - dev.wp).tmod dev.buffersize - 1

/-- A pointer that has come to `end` goes back to the beginning. -/
def ScullPipe.wrapped (dev : ScullPipe) (p : ℕ) : ℕ := if (p : ℤ) = dev.buffersize then 0 else p

/-! ### With the semaphore -/

/-- What a task is in a call for: how many bytes it asks for, or the bytes that it brings. -/
inductive Op
  | read (count : ℕ)
  | write (buf : List UInt8)
  deriving DecidableEq, Repr

def Op.isRead : Op → Bool
  | .read _ => true
  | .write _ => false

/-- The mode of the file is the one that the call needs.  The kernel sees to that before it calls
the driver. -/
def PipeFile.allows (file : PipeFile) (op : Op) : Bool :=
  if op.isRead then file.fmodeRead else file.fmodeWrite

/-- What comes of a call while it has the semaphore, from the test for bytes or space to the moved
pointer. -/
inductive Transfer
  /-- It has to wait. -/
  | wait
  /-- Memory outside of the buffer is read or written. -/
  | oops
  /-- `copy_to_user` or `copy_from_user` fails, and the call returns `EFAULT`. -/
  | fault (dev : ScullPipe)
  /-- What was read or written; `wake_up` follows. -/
  | done (dev : ScullPipe) (bytes : List Cell)

/-- **`scull_p_read`** with the semaphore, until `rp` has moved.  It reads at most to `wp`, or to
the end of the buffer if `wp` is behind that.  If `copy_to_user` fails, nothing moves. -/
def readAtLock (dev : ScullPipe) (count : ℕ) (fault : Bool) : Transfer :=
  if dev.rp = dev.wp then .wait
  else
    let count := if dev.wp > dev.rp then min count (dev.wp - dev.rp)
      else min count (sizeT (dev.buffersize - dev.rp))
    match dev.buffer with
    | none => .oops
    | some block =>
        if block.val.length < dev.rp + count then .oops
        else if fault then .fault dev
        else .done { dev with rp := dev.rp + count }
          (CircularBuffer.segment block.val dev.rp (dev.rp + count))

/-- **`scull_p_write`** with the semaphore, until `wp` has moved.  It writes at most what is free,
and not around the end of the buffer.  If `copy_from_user` fails, `fault` is what it has copied:
these bytes are in the buffer, and `wp` stays in front of them. -/
def writeAtLock (dev : ScullPipe) (buf : List UInt8) (fault : Option (List UInt8)) : Transfer :=
  if spacefree dev = 0 then .wait
  else
    let count := min buf.length (sizeT (spacefree dev))
    let count := if dev.wp ≥ dev.rp then min count (sizeT (dev.buffersize - dev.wp))
      else min count (sizeT (dev.rp - dev.wp - 1))
    match dev.buffer with
    | none => .oops
    | some block =>
        if block.val.length < dev.wp + count then .oops
        else
          let copied := ((fault.getD buf).take count).map some
          let block := { block with val := CircularBuffer.patch block.val dev.wp copied }
          let dev := { dev with buffer := some block }
          if fault.isSome then .fault dev
          else .done { dev with wp := dev.wp + count } copied

/-! ### The tasks -/

/-- **Where a call is.**  A call that finds nothing to do goes round `lock`, `enqueue`, `test` and
`sleep`, and one that has moved a pointer through `wrap` and `wake` to its end. -/
inductive Stage
  /-- It waits for the semaphore. -/
  | lock
  /-- It has moved a pointer, and has the semaphore. -/
  | wrap
  /-- It is to wake the others. -/
  | wake
  /-- It is to go into the queue. -/
  | enqueue
  /-- In the queue, it is to test what it waits for. -/
  | test (woken : Bool)
  /-- In the queue, it has called `schedule`. -/
  | sleep (woken : Bool)
  deriving DecidableEq, Repr

/-- **A call** of `scull_p_read` or `scull_p_write`, through an open file. -/
structure PipeCall where
  file : ℕ
  op : Op
  stage : Stage
  deriving DecidableEq, Repr

/-- What has happened with the semaphore held, with the answers that the caller gets.  The list of
these is the history that is compared with one of a queue. -/
inductive PipeEvent
  | opened (scullPBuffer : ℤ)
  | read (count : ℕ) (bytes : List Cell)
  | write (buf : List UInt8) (bytes : List Cell)
  /-- `EAGAIN` -/
  | readAgain
  | writeAgain
  | poll (readable writable : Bool)
  deriving DecidableEq, Repr

/-- **The driver**, its files and its tasks.  A file that is closed and a task that is in no call
are `none`.  `oops` says that a call has left the buffer; nothing is said of what happens then. -/
structure PipeSystem where
  params : Params
  dev : ScullPipe
  ledger : Ledger
  files : List (Option PipeFile)
  tasks : List (Option PipeCall)
  /-- The task that has the semaphore.  It is held between two steps only while a pointer may
  stand on `end`. -/
  sem : Option ℕ
  events : List PipeEvent
  oops : Bool
  deriving DecidableEq, Repr

def PipeSystem.start (params : Params) (tasks : ℕ) : PipeSystem where
  params := params
  dev := .zero
  ledger := .empty
  files := []
  tasks := List.replicate tasks none
  sem := none
  events := []
  oops := false

/-- **What happens**: any task may go on at any time, and `ioctl` changes the parameters in
between. -/
inductive PipeAction
  | ioctl (caller : Caller) (cmd : UInt32) (arg : ℕ)
  | openFile (file : PipeFile) (room : ℕ)
  /-- The last call on the file has ended, and it is closed. -/
  | release (file : ℕ)
  | poll (file : ℕ)
  /-- A task calls `read` or `write`. -/
  | call (task file : ℕ) (op : Op)
  /-- The call of a task goes on. -/
  | step (task : ℕ) (fault : Option (List UInt8))
  /-- A signal comes while the task waits, and the call returns `ERESTARTSYS`. -/
  | signal (task : ℕ)

def PipeSystem.setTask (s : PipeSystem) (task : ℕ) (c : Option PipeCall) : PipeSystem :=
  { s with tasks := s.tasks.set task c }

def PipeSystem.log (s : PipeSystem) (e : PipeEvent) : PipeSystem :=
  { s with events := s.events ++ [e] }

/-- `wake_up_interruptible` for the calls of one of the queues.  A task that is about to test is
woken as well, and so does not go to sleep for long. -/
def PipeCall.wakeUp (readers : Bool) (c : PipeCall) : PipeCall :=
  if c.op.isRead = readers then
    match c.stage with
    | .test _ => { c with stage := .test true }
    | .sleep _ => { c with stage := .sleep true }
    | _ => c
  else c

/-- What a task waits for, as `wait_event_interruptible` and `scull_getwritespace` test it without
the semaphore. -/
def mayGoOn (dev : ScullPipe) : Op → Bool
  | .read _ => dev.rp ≠ dev.wp
  | .write _ => spacefree dev ≠ 0

/-- What comes of a call that gets the semaphore: it gives up, goes to wait, or moves a pointer and
keeps the semaphore for the step that follows. -/
def PipeSystem.atLock (s : PipeSystem) (task : ℕ) (c : PipeCall) (nonblock : Bool)
    (fault : Option (List UInt8)) : PipeSystem :=
  let transfer := match c.op with
    | .read count => readAtLock s.dev count fault.isSome
    | .write buf => writeAtLock s.dev buf fault
  match transfer with
  | .wait =>
      if nonblock then
        (s.setTask task none).log (if c.op.isRead then .readAgain else .writeAgain)
      else s.setTask task (some { c with stage := .enqueue })
  | .oops => { s with oops := true }
  | .fault dev => { s.setTask task none with dev := dev }
  | .done dev bytes =>
      ({ s.setTask task (some { c with stage := .wrap }) with dev := dev, sem := some task }).log
        (match c.op with
          | .read count => .read count bytes
          | .write buf => .write buf bytes)

/-- **A step of a call.**  There is none for a task that waits for the semaphore while another has
it, nor for one that sleeps and was not woken. -/
def PipeSystem.stepCall (s : PipeSystem) (task : ℕ) (c : PipeCall) (nonblock : Bool)
    (fault : Option (List UInt8)) : Option PipeSystem :=
  match c.stage with
  | .lock => if s.sem.isSome then none else some (s.atLock task c nonblock fault)
  | .wrap =>
      let dev := if c.op.isRead then { s.dev with rp := s.dev.wrapped s.dev.rp }
        else { s.dev with wp := s.dev.wrapped s.dev.wp }
      some { s.setTask task (some { c with stage := .wake }) with dev := dev, sem := none }
  | .wake =>
      let s := s.setTask task none
      some { s with tasks := s.tasks.map (Option.map (PipeCall.wakeUp !c.op.isRead)) }
  | .enqueue => some (s.setTask task (some { c with stage := .test false }))
  | .test woken =>
      if mayGoOn s.dev c.op then some (s.setTask task (some { c with stage := .lock }))
      else some (s.setTask task (some { c with stage := .sleep woken }))
  | .sleep woken =>
      -- `wait_event_interruptible` tests again, and `scull_getwritespace` takes the semaphore
      if woken then
        some (s.setTask task (some { c with stage := if c.op.isRead then .enqueue else .lock }))
      else none

/-- A call that a signal can end: it waits for the semaphore or for what it has tested. -/
def Stage.waits : Stage → Bool
  | .lock => true
  | .test _ => true
  | .sleep _ => true
  | _ => false

/-- What happens to a driver that is alive.  `open`, `release` and `poll` have the semaphore from
their beginning to their end, and so are one step each; a file is closed when no call is in it. -/
def PipeSystem.act (s : PipeSystem) : PipeAction → Option PipeSystem
  | .ioctl caller cmd arg => some { s with params := (scullIoctl s.params caller cmd arg).params }
  | .openFile file room =>
      if s.sem.isSome then none
      else
        match scullPOpen s.params.scullPBuffer s.dev file ⟨s.ledger, room⟩ with
        | none => some s
        | some (dev, m) =>
            some ({ s with dev := dev, ledger := m.ledger, files := s.files ++ [some file] }.log
              (.opened s.params.scullPBuffer))
  | .release f =>
      match s.files[f]? with
      | some (some file) =>
          if s.sem.isSome ∨ ∃ c ∈ s.tasks, c.map PipeCall.file = some f then none
          else
            let (dev, m) := scullPRelease s.dev file ⟨s.ledger, 0⟩
            some { s with dev := dev, ledger := m.ledger, files := s.files.set f none }
      | _ => none
  | .poll f =>
      match s.files[f]? with
      | some (some _) =>
          if s.sem.isSome then none
          else some (s.log (.poll (s.dev.rp ≠ s.dev.wp) (spacefree s.dev ≠ 0)))
      | _ => none
  | .call task f op =>
      match s.files[f]?, s.tasks[task]? with
      | some (some file), some none =>
          if file.allows op then some (s.setTask task (some ⟨f, op, .lock⟩)) else none
      | _, _ => none
  | .step task fault =>
      match s.tasks[task]? with
      | some (some c) =>
          match s.files[c.file]? with
          | some (some file) => s.stepCall task c file.nonblock fault
          | _ => none
      | _ => none
  | .signal task =>
      match s.tasks[task]? with
      | some (some c) => if c.stage.waits then some (s.setTask task none) else none
      | _ => none

/-- **The step function.**  After an `oops` nothing happens any more. -/
def nextPipe (a : PipeAction) (s : PipeSystem) : Option PipeSystem :=
  if s.oops then none else s.act a

/-- **All interleavings** of so many tasks. -/
def pipeSystem (params : Params) (tasks : ℕ) : StepSystem PipeSystem PipeAction :=
  .ofFun (.start params tasks) nextPipe

end LinuxProgram.Kernel.Scull
