import LinuxProgram.Lib.Agents
import LinuxProgram.Lib.StepSystem

/-!
# Who may open a scull device

`access.c` of the scull driver: devices that differ from the bare one in `open` and `release`.

* `SingleOpen` — `scullsingle`, which one file at a time may have open.
* `Grab` — what `sculluid` and `scullwuid` know: how many files are open, and who was the first.
* `scullUOpen`, `UidDevice` — `sculluid`, which turns other users away.
* `scullWAvailable`, `WuidDevice` — `scullwuid`, in which they wait.
-/

namespace LinuxProgram.Kernel.Scull

open Lib

/-! ### scullsingle -/

/-- **Where a task is** in `scull_s_open`, or behind it. -/
inductive SingleStage
  /-- It is to call `atomic_dec_and_test`. -/
  | dec
  /-- It did not get the device, and is to call `atomic_inc`. -/
  | undo
  | opened
  deriving DecidableEq, Repr

/-- **`scull_s_device`** and the tasks; one that is in no call and has no file is `none`. -/
structure SingleOpen where
  scullSAvailable : ℤ
  tasks : List (Option SingleStage)
  deriving DecidableEq, Repr

inductive SingleAction
  | call (task : ℕ)
  /-- The call goes on, or the file is closed. -/
  | step (task : ℕ)

def SingleOpen.set (s : SingleOpen) (task : ℕ) (scullSAvailable : ℤ) (x : Option SingleStage) :
    SingleOpen := ⟨scullSAvailable, s.tasks.set task x⟩

/-- **`scull_s_open` and `scull_s_release`**, one atomic operation after the other. -/
def nextSingle : SingleAction → SingleOpen → Option SingleOpen
  | .call task, s =>
      match s.tasks[task]? with
      | some none => some (s.set task s.scullSAvailable (some .dec))
      | _ => none
  | .step task, s =>
      match s.tasks[task]? with
      | some (some .dec) =>
          some (s.set task (s.scullSAvailable - 1)
            (some (if s.scullSAvailable - 1 = 0 then .opened else .undo)))
      | some (some .undo) => some (s.set task (s.scullSAvailable + 1) none)
      | some (some .opened) => some (s.set task (s.scullSAvailable + 1) none)
      | _ => none

def singleSystem (tasks : ℕ) : StepSystem SingleOpen SingleAction :=
  .ofFun ⟨1, List.replicate tasks none⟩ nextSingle

/-! ### sculluid -/

/-- **Who calls**: what `current` says, its two user ids and whether it may override the owner. -/
structure Cred where
  uid : ℕ
  euid : ℕ
  capDacOverride : Bool
  deriving DecidableEq, Repr

/-- **The count and the owner** of a device, of which the owner means something only while the count
is not 0. -/
structure Grab where
  count : ℤ
  owner : ℕ
  deriving DecidableEq, Repr

/-- The first one to open the device grabs it, and the count goes up. -/
def Grab.enter (g : Grab) (cred : Cred) : Grab :=
  ⟨g.count + 1, if g.count = 0 then cred.uid else g.owner⟩

def Grab.leave (g : Grab) : Grab := ⟨g.count - 1, g.owner⟩

/-- **`scull_u_open`**, with the lock; `none` is `EBUSY`. -/
def scullUOpen (g : Grab) (cred : Cred) : Option Grab :=
  if g.count ≠ 0 ∧ g.owner ≠ cred.uid ∧ g.owner ≠ cred.euid ∧ cred.capDacOverride = false then none
  else some (g.enter cred)

/-- **`scull_u_device`** and its files; one that is closed is `none`. -/
structure UidDevice where
  grab : Grab
  files : List (Option Cred)
  deriving DecidableEq, Repr

inductive UidAction
  | openFile (file : ℕ) (cred : Cred)
  | release (file : ℕ)

def nextUid : UidAction → UidDevice → Option UidDevice
  | .openFile file cred, s =>
      match s.files[file]? with
      | some none =>
          match scullUOpen s.grab cred with
          | none => some s
          | some grab => some ⟨grab, s.files.set file (some cred)⟩
      | _ => none
  | .release file, s =>
      match s.files[file]? with
      | some (some _) => some ⟨s.grab.leave, s.files.set file none⟩
      | _ => none

def uidSystem (files : ℕ) : StepSystem UidDevice UidAction :=
  .ofFun ⟨⟨0, 0⟩, List.replicate files none⟩ nextUid

/-! ### scullwuid -/

/-- **`scull_w_available`**, the test that lets a task pass. -/
def scullWAvailable (g : Grab) (cred : Cred) : Bool :=
  g.count = 0 || g.owner = cred.uid || g.owner = cred.euid || cred.capDacOverride

/-- **Where a task is** in `scull_w_open` or `scull_w_release`. -/
inductive WuidStage
  /-- It is to take the lock, and to see if the device is available. -/
  | lock
  /-- It is to go into the queue. -/
  | enqueue
  /-- In the queue, it is to see if the device is available. -/
  | test (woken : Bool)
  /-- In the queue, it has called `schedule`. -/
  | sleep (woken : Bool)
  | opened
  /-- It has closed the last file, and is to wake the others. -/
  | wake
  deriving DecidableEq, Repr

structure WuidTask where
  cred : Cred
  nonblock : Bool
  stage : WuidStage
  deriving DecidableEq, Repr

/-- **`scull_w_device`** and the tasks; one that is in no call and has no file is `none`. -/
structure WuidDevice where
  grab : Grab
  tasks : List (Option WuidTask)
  deriving DecidableEq, Repr

inductive WuidAction
  | call (task : ℕ) (cred : Cred) (nonblock : Bool)
  /-- The call goes on, or the file is closed. -/
  | step (task : ℕ)
  /-- A signal comes while the task waits. -/
  | signal (task : ℕ)

/-- `wake_up_interruptible_sync`, for a task in the queue. -/
def WuidTask.wakeUp (t : WuidTask) : WuidTask :=
  match t.stage with
  | .test _ => { t with stage := .test true }
  | .sleep _ => { t with stage := .sleep true }
  | _ => t

def WuidDevice.set (s : WuidDevice) (task : ℕ) (grab : Grab) (x : Option WuidTask) : WuidDevice :=
  ⟨grab, s.tasks.set task x⟩

/-- **A step of a task.** -/
def WuidDevice.step (s : WuidDevice) (task : ℕ) (t : WuidTask) : Option WuidDevice :=
  match t.stage with
  | .lock =>
      if scullWAvailable s.grab t.cred then
        some (s.set task (s.grab.enter t.cred) (some { t with stage := .opened }))
      else if t.nonblock then some (s.set task s.grab none)
      else some (s.set task s.grab (some { t with stage := .enqueue }))
  | .enqueue => some (s.set task s.grab (some { t with stage := .test false }))
  | .test woken =>
      if scullWAvailable s.grab t.cred then
        some (s.set task s.grab (some { t with stage := .lock }))
      else some (s.set task s.grab (some { t with stage := .sleep woken }))
  | .sleep woken =>
      if woken then some (s.set task s.grab (some { t with stage := .enqueue })) else none
  | .opened =>
      some (s.set task s.grab.leave
        (if s.grab.leave.count = 0 then some { t with stage := .wake } else none))
  | .wake => some ⟨s.grab, (s.tasks.set task none).map (Option.map WuidTask.wakeUp)⟩

def WuidStage.waits : WuidStage → Bool
  | .test _ => true
  | .sleep _ => true
  | _ => false

def nextWuid : WuidAction → WuidDevice → Option WuidDevice
  | .call task cred nonblock, s =>
      match s.tasks[task]? with
      | some none => some (s.set task s.grab (some ⟨cred, nonblock, .lock⟩))
      | _ => none
  | .step task, s =>
      match s.tasks[task]? with
      | some (some t) => s.step task t
      | _ => none
  | .signal task, s =>
      match s.tasks[task]? with
      | some (some t) => if t.stage.waits then some (s.set task s.grab none) else none
      | _ => none

def wuidSystem (tasks : ℕ) : StepSystem WuidDevice WuidAction :=
  .ofFun ⟨⟨0, 0⟩, List.replicate tasks none⟩ nextWuid

end LinuxProgram.Kernel.Scull
