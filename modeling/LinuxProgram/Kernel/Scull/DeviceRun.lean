import LinuxProgram.Kernel.Scull.DeviceCalls
import LinuxProgram.Kernel.Scull.Ioctl
import LinuxProgram.Lib.History
import LinuxProgram.Lib.StepSystem

/-!
# Many tasks on one device

A call loads the quantum and the array size before it has the semaphore, and in between another
task may empty the device, with which it gets the parameters of that time.  A call that goes on
with the old ones divides by them and indexes arrays that have another size.

* `Driver`, `driverSystem` — a device, the parameters, and the tasks that are in a call.
* `Answers` — what the calls do to a sparse file, and what they may return.
* `Answered` — how the driver answers.  Its list items are counted with 32 bits; below the
  position where the count comes round, it answers as a plain file does.
* `Current` — a call has the semaphore with the geometry of the device, and the device only
  gets geometries that fit.
* `driver_isFile` — then the calls, in the order they have the semaphore in, are a history of the
  file.
* `driver_memory` — no block is lost, and none is freed twice.
* `driver_unprivileged` — callers without privilege cannot break the driver.
-/

namespace LinuxProgram.Kernel.Scull

open Lib

/-- **A call** that had the semaphore, and what it has returned. -/
inductive Call
  | read (f_pos count : ℕ) (retval : Except Errno (List Cell))
  | write (f_pos : ℕ) (buf : List UInt8) (fault : Option (List UInt8)) (retval : Except Errno ℕ)
  /-- The device gets these parameters. -/
  | trim (params : Params)
  | llseek (f_pos : ℕ) (off whence : ℤ) (retval : Except Errno ℕ)

/-- **The driver** with one device. -/
structure Driver where
  params : Params
  dev : ScullDev
  ledger : Ledger
  /-- `quantum` and `qset` of the tasks that are in a call. -/
  loaded : ℕ → Option (ℤ × ℤ)
  calls : List Call
  oops : Bool

/-- `scull_init_module` with these parameters. -/
def Driver.start (p : Params) : Driver where
  params := p
  dev := ⟨[], p.scullQuantum, p.scullQset, 0⟩
  ledger := .empty
  loaded := fun _ => none
  calls := []
  oops := false

/-- **What happens.**  `room` is how often `kmalloc` succeeds in the call. -/
inductive DriverAction
  /-- A task calls `read` or `write`. -/
  | load (task : ℕ)
  /-- A signal comes while it waits for the semaphore. -/
  | interrupt (task : ℕ)
  | read (task : ℕ) (f_pos count : ℕ) (fault : Bool) (room : ℕ)
  | write (task : ℕ) (f_pos : ℕ) (buf : List UInt8) (fault : Option (List UInt8)) (room : ℕ)
  /-- `open` with `O_WRONLY`. -/
  | openWronly
  | llseek (f_pos : ℕ) (off whence : ℤ)
  | ioctl (caller : Caller) (cmd : UInt32) (arg : ℕ)

/-- A call has come to its end, or to one that it does not survive. -/
def Driver.finish {α : Type} (s : Driver) (result : Option (ScullDev × Slab × α))
    (call : α → Call) : Driver :=
  match result with
  | none => { s with oops := true }
  | some (dev, m, retval) =>
      { s with dev := dev, ledger := m.ledger, calls := s.calls ++ [call retval] }

/-- A task is not in a call any more. -/
def Driver.leave (s : Driver) (task : ℕ) : Driver :=
  { s with loaded := Function.update s.loaded task none }

/-- What happens to a driver that is alive. -/
def Driver.act (s : Driver) : DriverAction → Option Driver
  | .load task =>
      some { s with loaded := Function.update s.loaded task (some (s.dev.quantum, s.dev.qset)) }
  | .interrupt task => some (s.leave task)
  | .read task f_pos count fault room => (s.loaded task).map fun (quantum, qset) =>
      (s.leave task).finish (scullRead quantum qset f_pos count fault s.dev ⟨s.ledger, room⟩)
        (.read f_pos count)
  | .write task f_pos buf fault room => (s.loaded task).map fun (quantum, qset) =>
      (s.leave task).finish (scullWrite quantum qset f_pos buf fault s.dev ⟨s.ledger, room⟩)
        (.write f_pos buf fault)
  | .openWronly => some (s.finish ((scullTrim s.params.scullQuantum s.params.scullQset s.dev
      ⟨s.ledger, 0⟩).map fun (dev, m) => (dev, m, ())) fun _ => .trim s.params)
  | .llseek f_pos off whence =>
      some { s with calls := s.calls ++ [.llseek f_pos off whence
        (scullLlseek s.dev f_pos off whence)] }
  | .ioctl caller cmd arg => some { s with params := (scullIoctl s.params caller cmd arg).params }

/-- **The step function.** -/
def nextDriver (a : DriverAction) (s : Driver) : Option Driver := if s.oops then none else s.act a

/-- **All interleavings.** -/
def driverSystem (p : Params) : StepSystem Driver DriverAction := .ofFun (.start p) nextDriver

/-! ### The file

A device holds a file together with the geometry by which the positions find their quantum, and
the geometry may change whenever the device is emptied.  What a call returns is compared with the
file of the moment in which it has the semaphore; the calls that wait for it do not count. -/

/-- **What a device holds**: a file, and the geometry in which its positions were written. -/
structure Contents where
  geometry : Geometry
  file : SparseFile Cell

/-- The parameters are those of a geometry. -/
def Geometry.Of (g : Geometry) (p : Params) : Prop :=
  p.scullQuantum = g.quantum ∧ p.scullQset = g.qset

/-- The parameters are those of some geometry. -/
def Params.Fits (p : Params) : Prop :=
  0 < p.scullQuantum ∧ 0 < p.scullQset ∧ p.scullQuantum * p.scullQset < 2 ^ 31

theorem Params.Fits.geometry {p : Params} (h : p.Fits) : ∃ g : Geometry, g.Of p := by
  obtain ⟨hquantum, hqset, hfits⟩ := h
  obtain ⟨quantum, hq⟩ := Int.eq_ofNat_of_zero_le hquantum.le
  obtain ⟨qset, hs⟩ := Int.eq_ofNat_of_zero_le hqset.le
  rw [hq] at hquantum hfits
  rw [hs] at hqset hfits
  exact ⟨⟨quantum, qset, by omega, by omega, by exact_mod_cast hfits⟩, hq, hs⟩

/-- **What a call does to the file**, and what it may return, if the positions are in these blocks.
A read or a write stops at the end of a quantum, and what comes after a trim is empty. -/
inductive Answers (blocks : Geometry → Blocks) : Contents → Call → Contents → Prop
  | read {c : Contents} {f_pos count : ℕ} {retval : Except Errno (List Cell)}
      (h : retval = .ok (c.file.read (blocks c.geometry) f_pos count) ∨
        retval = .error .EFAULT) : Answers blocks c (.read f_pos count retval) c
  | write {c : Contents} {f_pos : ℕ} {buf : List UInt8} {fault : Option (List UInt8)}
      {retval : Except Errno ℕ} {file : SparseFile Cell}
      (h : Writes (blocks c.geometry) c.file f_pos buf fault retval file) :
      Answers blocks c (.write f_pos buf fault retval) ⟨c.geometry, file⟩
  | trim {c : Contents} {p : Params} {g : Geometry} (hg : g.Of p) :
      Answers blocks c (.trim p) ⟨g, .empty⟩
  | llseek {c : Contents} {f_pos : ℕ} {off whence : ℤ} :
      Answers blocks c (.llseek f_pos off whence
        (scullLlseek ⟨[], c.geometry.quantum, c.geometry.qset, c.file.size⟩ f_pos off whence)) c

/-- The position of the call is before the one where the list items are counted from 0 again. -/
def Call.Below (g : Geometry) : Call → Prop
  | .read f_pos _ _ => f_pos < 2 ^ 32 * g.itemsize
  | .write f_pos _ _ _ => f_pos < 2 ^ 32 * g.itemsize
  | _ => True

/-- **How the driver answers a call.** The number of a list item is an `int`, so the positions come
round, and what is promised of all of them is less than what is promised of those below. -/
structure Answered (c : Contents) (call : Call) (c' : Contents) : Prop where
  /-- The positions come round after `2 ^ 32` list items. -/
  wrapped : Answers Geometry.blocks c call c'
  /-- Before that it is a plain file. -/
  plain : call.Below c.geometry → Answers Geometry.plain c call c'

/-- Below the period the blocks that come round are those of a plain file. -/
theorem Answers.answered {c c' : Contents} {call : Call} (h : Answers Geometry.blocks c call c') :
    Answered c call c' := by
  refine ⟨h, fun hbelow => ?_⟩
  cases h with
  | read h =>
      have hlt : _ < c.geometry.blocks.period := hbelow
      refine .read (h.imp_left fun hretval => ?_)
      rw [hretval, SparseFile.read_plain hlt]
      rfl
  | write h =>
      have hlt : _ < c.geometry.blocks.period := hbelow
      exact .write (h.plain hlt)
  | trim hg => exact .trim hg
  | llseek => exact .llseek

/-- **No call is late**: when it has the semaphore, the geometry that it has loaded is that of the
device.  And a file is opened for writing, which empties the device, only while the parameters are
positive and an item of that geometry has less than `2 ^ 31` bytes. -/
def Current (s : Driver) : DriverAction → Prop
  | .read task _ _ _ _ => s.loaded task = some (s.dev.quantum, s.dev.qset)
  | .write task _ _ _ _ => s.loaded task = some (s.dev.quantum, s.dev.qset)
  | .openWronly => s.params.Fits
  | _ => True

instance (p : Params) : Decidable p.Fits :=
  inferInstanceAs (Decidable (0 < p.scullQuantum ∧ 0 < p.scullQset ∧
    p.scullQuantum * p.scullQset < 2 ^ 31))

instance (s : Driver) : (a : DriverAction) → Decidable (Current s a)
  | .read _ _ _ _ _ => inferInstanceAs (Decidable (_ = _))
  | .write _ _ _ _ _ => inferInstanceAs (Decidable (_ = _))
  | .openWronly => inferInstanceAs (Decidable s.params.Fits)
  | .load _ => .isTrue trivial
  | .interrupt _ => .isTrue trivial
  | .llseek _ _ _ => .isTrue trivial
  | .ioctl _ _ _ => .isTrue trivial

/-- **The invariant**: the driver is alive, its memory is that of the device, and the lists of the
device are the file of `c` in its geometry. -/
structure Holds (s : Driver) (c : Contents) : Prop where
  alive : s.oops = false
  good : ∀ room, Good c.geometry s.dev ⟨s.ledger, room⟩
  file : s.dev.file c.geometry = c.file

variable {s s' : Driver} {c : Contents} {p : Params} {g : Geometry}

theorem holds_start (hg : g.Of p) : Holds (.start p) ⟨g, .empty⟩ where
  alive := rfl
  good _ := ⟨hg.1, hg.2, nofun, Ledger.accounted_empty⟩
  file := rfl

/-- Only the device, the memory and the end of the driver matter. -/
theorem Holds.congr (h : Holds s c) (hdev : s'.dev = s.dev) (hledger : s'.ledger = s.ledger)
    (hoops : s'.oops = s.oops) : Holds s' c where
  alive := by rw [hoops]; exact h.alive
  good room := by rw [hdev, hledger]; exact h.good room
  file := by rw [hdev]; exact h.file

/-- **A call that is not late** is answered. -/
theorem Holds.next (h : Holds s c) {a : DriverAction} (hok : Current s a)
    (hstep : nextDriver a s = some s') :
    ∃ more c', s'.calls = s.calls ++ more ∧ History Answered c more c' ∧ Holds s' c' ∧
      (c'.geometry = c.geometry ∨ c'.geometry.Of s.params) := by
  rw [nextDriver, h.alive, if_neg Bool.false_ne_true] at hstep
  have hgood := h.good 0
  cases a with
  | load task =>
      cases hstep
      exact ⟨[], c, (List.append_nil _).symm, .nil, h.congr rfl rfl rfl, .inl rfl⟩
  | interrupt task =>
      cases hstep
      exact ⟨[], c, (List.append_nil _).symm, .nil, h.congr rfl rfl rfl, .inl rfl⟩
  | read task f_pos count fault room =>
      rw [Driver.act, show s.loaded task = _ from hok, hgood.quantum, hgood.qset] at hstep
      obtain ⟨data, m, retval, hread, hgood', hcell, hretval⟩ :=
        scullRead_spec (h.good room) f_pos count fault
      dsimp only [Option.map_some] at hstep
      rw [hread] at hstep
      cases hstep
      have hfile : ScullDev.file c.geometry { s.dev with data := data } = c.file := by
        rw [← h.file, ScullDev.file, ScullDev.file, hcell]
      refine ⟨[_], c, rfl, .snoc .nil (Answers.read ?_).answered,
        ⟨h.alive, hgood'.room, hfile⟩, .inl rfl⟩
      rw [← h.file]
      exact hretval.imp_right And.right
  | write task f_pos buf fault room =>
      rw [Driver.act, show s.loaded task = _ from hok, hgood.quantum, hgood.qset] at hstep
      obtain ⟨dev, m, retval, hwrite, hgood', hwrites⟩ :=
        scullWrite_spec (h.good room) f_pos buf fault
      dsimp only [Option.map_some] at hstep
      rw [hwrite] at hstep
      cases hstep
      rw [h.file] at hwrites
      exact ⟨[_], ⟨c.geometry, _⟩, rfl, .snoc .nil (Answers.write hwrites).answered,
        ⟨h.alive, hgood'.room, rfl⟩, .inl rfl⟩
  | openWronly =>
      obtain ⟨g, hg⟩ := Params.Fits.geometry hok
      obtain ⟨m, htrim, hempty⟩ := scullTrim_spec hgood s.params.scullQuantum s.params.scullQset
      rw [Driver.act, htrim] at hstep
      cases hstep
      exact ⟨[_], ⟨g, .empty⟩, rfl, .snoc .nil (Answers.trim hg).answered,
        ⟨h.alive, fun _ => ⟨hg.1, hg.2, fun _ hqs => absurd hqs List.not_mem_nil, hempty⟩, rfl⟩,
          .inr hg⟩
  | llseek f_pos off whence =>
      cases hstep
      refine ⟨[_], c, rfl, .snoc .nil ?_, h.congr rfl rfl rfl, .inl rfl⟩
      have hsize : s.dev.size = c.file.size := congrArg SparseFile.size h.file
      have hllseek : scullLlseek s.dev f_pos off whence = scullLlseek
          ⟨[], c.geometry.quantum, c.geometry.qset, c.file.size⟩ f_pos off whence := by
        unfold scullLlseek
        rw [hsize]
      rw [hllseek]
      exact Answers.llseek.answered
  | ioctl caller cmd arg =>
      cases hstep
      exact ⟨[], c, (List.append_nil _).symm, .nil, h.congr rfl rfl rfl, .inl rfl⟩

/-- **The runs** in which no call is late. -/
theorem exists_holds (hg : g.Of p) (h : (driverSystem p).ReachableWhile Current s) :
    ∃ c, History Answered ⟨g, .empty⟩ s.calls c ∧ Holds s c := by
  refine StepSystem.ReachableWhile.invariant
    (I := fun s => ∃ c, History Answered ⟨g, .empty⟩ s.calls c ∧ Holds s c)
    (fun s hs => ?_) (fun s a s' ⟨c, hhistory, hholds⟩ hok hstep => ?_) h
  · rw [show s = _ from hs]
    exact ⟨_, .nil, holds_start hg⟩
  · obtain ⟨more, c', hcalls, hmore, hholds', -⟩ := hholds.next hok hstep
    refine ⟨c', ?_, hholds'⟩
    rw [hcalls]
    exact hhistory.append hmore

/-- A quantum of four bytes and arrays of two. -/
def smallParams : Params := ⟨4, 2, 4000⟩

def smallGeometry : Geometry := ⟨4, 2, by decide, by decide, by decide⟩

theorem of_smallParams : smallGeometry.Of smallParams := ⟨rfl, rfl⟩

def root : Caller := ⟨true, true, none, true⟩

/-- Two tasks write and one reads; then the quantum is changed, and the device emptied. -/
def smallRun : List DriverAction :=
  [.load 0, .load 1, .write 0 0 [1, 2, 3, 4, 5, 6] none 9, .write 1 9 [7] (some []) 9, .load 0,
    .read 0 2 10 false 0, .ioctl root (Command.tell .quantum).cmd 8, .openWronly,
    .load 1, .write 1 5 [9] none 2, .load 1, .write 1 5 [9] none 2]

/-- A step of a call that is not late. -/
def nextCurrent (a : DriverAction) (s : Driver) : Option Driver :=
  if Current s a then nextDriver a s else none

theorem smallRun_eq : (smallRun.foldlM (fun s a => nextCurrent a s) (.start smallParams)).map
    (fun s => (s.dev.size, s.calls.length, s.ledger.freed)) = some (6, 6, [3, 4, 5, 0, 1, 2]) := by
  decide +kernel

theorem smallRun_reachable : ∃ s, (driverSystem smallParams).ReachableWhile Current s ∧
    s.dev.size = 6 ∧ s.calls.length = 6 := by
  obtain ⟨s, hrun, hs⟩ := Option.map_eq_some_iff.mp smallRun_eq
  refine ⟨s, StepSystem.ReachableWhile.foldlM (.init rfl) _ (fun a _ t t' hnext => ?_) hrun,
    congrArg Prod.fst hs, congrArg (Prod.fst ∘ Prod.snd) hs⟩
  rw [nextCurrent] at hnext
  split at hnext
  · rename_i hok
    exact ⟨hok, hnext⟩
  · cases hnext

/-- **The memory of the device**, if no call is late and every open for writing finds a geometry:
each block that was allocated is in the device or was freed, and that once, and `scull_trim` frees
what is left. -/
theorem driver_memory (hg : g.Of p) (h : (driverSystem p).ReachableWhile Current s) :
    (blocksOf s.dev.data ++ s.ledger.freed).Perm (List.range s.ledger.allocated) ∧
      ∃ m, scullTrim s.params.scullQuantum s.params.scullQset s.dev ⟨s.ledger, 0⟩ =
          some (⟨[], s.params.scullQuantum, s.params.scullQset, 0⟩, m) ∧
        m.ledger.freed.Perm (List.range m.ledger.allocated) := by
  obtain ⟨c, -, hholds⟩ := exists_holds hg h
  obtain ⟨m, htrim, hfreed⟩ :=
    scullTrim_spec (hholds.good 0) s.params.scullQuantum s.params.scullQset
  exact ⟨(hholds.good 0).accounted, m, htrim, hfreed⟩

theorem driver_memory_small : ∃ s, (driverSystem smallParams).ReachableWhile Current s ∧
    s.dev.size = 6 ∧
    (blocksOf s.dev.data ++ s.ledger.freed).Perm (List.range s.ledger.allocated) ∧
    ∃ m, scullTrim s.params.scullQuantum s.params.scullQset s.dev ⟨s.ledger, 0⟩ =
        some (⟨[], s.params.scullQuantum, s.params.scullQset, 0⟩, m) ∧
      m.ledger.freed.Perm (List.range m.ledger.allocated) := by
  obtain ⟨s, hreach, hsize, -⟩ := smallRun_reachable
  exact ⟨s, hreach, hsize, driver_memory of_smallParams hreach⟩

/-! ### Callers without privilege

The parameters change by `ioctl` only.  A caller without `CAP_SYS_ADMIN` cannot set them, but may
reset them to those the driver was built with, so for a driver that was loaded with these nothing
changes.  No call can then be late, whatever it has loaded. -/

/-- The geometry of `SCULL_QUANTUM` and `SCULL_QSET`. -/
def Geometry.default : Geometry := ⟨4000, 1000, by decide, by decide, by decide⟩

/-- **Who calls `ioctl`** does not have `CAP_SYS_ADMIN`. -/
def Unprivileged (_ : Driver) : DriverAction → Prop
  | .ioctl caller _ _ => caller.capable = false
  | _ => True

/-- The geometry is the one the driver came with, everywhere. -/
structure Untouched (s : Driver) : Prop where
  params : s.params.get = Params.default.get
  dev : s.dev.quantum = 4000 ∧ s.dev.qset = 1000
  loaded : ∀ task, s.loaded task = none ∨ s.loaded task = some (4000, 1000)

theorem of_default (h : s.params.get = Params.default.get) : Geometry.default.Of s.params :=
  ⟨congrFun h .quantum, congrFun h .qset⟩

/-- With the geometry untouched no call is late. -/
theorem Untouched.current (h : Untouched s) {a : DriverAction} (hstep : nextDriver a s = some s') :
    Current s a := by
  have hloaded : ∀ task, s.loaded task ≠ none →
      s.loaded task = some (s.dev.quantum, s.dev.qset) := fun task hne => by
    rw [h.dev.1, h.dev.2]
    exact (h.loaded task).resolve_left hne
  rw [nextDriver] at hstep
  split at hstep
  · cases hstep
  · cases a with
    | read task f_pos count fault room =>
        obtain ⟨r, hr, -⟩ := Option.map_eq_some_iff.mp hstep
        exact hloaded task (by rw [hr]; exact Option.some_ne_none r)
    | write task f_pos buf fault room =>
        obtain ⟨r, hr, -⟩ := Option.map_eq_some_iff.mp hstep
        exact hloaded task (by rw [hr]; exact Option.some_ne_none r)
    | openWronly =>
        obtain ⟨hquantum, hqset⟩ := of_default h.params
        rw [Current, Params.Fits, hquantum, hqset]
        decide
    | load _ => trivial
    | interrupt _ => trivial
    | llseek _ _ _ => trivial
    | ioctl _ _ _ => trivial

/-- The end of a call changes neither the parameters nor what other calls have loaded. -/
theorem finish_frame {α : Type} (s : Driver) (result : Option (ScullDev × Slab × α))
    (call : α → Call) : (s.finish result call).params = s.params ∧
      (s.finish result call).loaded = s.loaded := by
  cases result with
  | none => exact ⟨rfl, rfl⟩
  | some _ => exact ⟨rfl, rfl⟩

/-- **What a step changes** of the parameters and of what the tasks have loaded. -/
theorem next_frame {a : DriverAction} (hstep : nextDriver a s = some s') :
    (s'.params = s.params ∨ ∃ caller cmd arg, a = .ioctl caller cmd arg ∧
        s'.params = (scullIoctl s.params caller cmd arg).params) ∧
      ∃ task x, (x = none ∨ x = some (s.dev.quantum, s.dev.qset) ∨ x = s.loaded task) ∧
        s'.loaded = Function.update s.loaded task x := by
  have hkeep : s.loaded = Function.update s.loaded 0 (s.loaded 0) :=
    (Function.update_eq_self 0 s.loaded).symm
  rw [nextDriver] at hstep
  split at hstep
  · cases hstep
  · cases a with
    | load task =>
        cases hstep
        exact ⟨.inl rfl, task, _, .inr (.inl rfl), rfl⟩
    | interrupt task =>
        cases hstep
        exact ⟨.inl rfl, task, none, .inl rfl, rfl⟩
    | read task f_pos count fault room =>
        obtain ⟨r, -, rfl⟩ := Option.map_eq_some_iff.mp hstep
        obtain ⟨hparams, hloaded⟩ := finish_frame (s.leave task)
          (scullRead r.1 r.2 f_pos count fault s.dev ⟨s.ledger, room⟩) (.read f_pos count)
        exact ⟨.inl hparams, task, none, .inl rfl, hloaded⟩
    | write task f_pos buf fault room =>
        obtain ⟨r, -, rfl⟩ := Option.map_eq_some_iff.mp hstep
        obtain ⟨hparams, hloaded⟩ := finish_frame (s.leave task)
          (scullWrite r.1 r.2 f_pos buf fault s.dev ⟨s.ledger, room⟩) (.write f_pos buf fault)
        exact ⟨.inl hparams, task, none, .inl rfl, hloaded⟩
    | openWronly =>
        cases hstep
        obtain ⟨hparams, hloaded⟩ := finish_frame s _ _
        exact ⟨.inl hparams, 0, _, .inr (.inr rfl), hloaded.trans hkeep⟩
    | llseek _ _ _ =>
        cases hstep
        exact ⟨.inl rfl, 0, _, .inr (.inr rfl), hkeep⟩
    | ioctl caller cmd arg =>
        cases hstep
        exact ⟨.inr ⟨caller, cmd, arg, rfl, rfl⟩, 0, _, .inr (.inr rfl), hkeep⟩

/-- Without privilege the geometry stays untouched. -/
theorem Untouched.next (h : Untouched s) (hholds : Holds s c) {a : DriverAction}
    (hok : Unprivileged s a) (hstep : nextDriver a s = some s') : Untouched s' := by
  obtain ⟨-, c', -, -, hholds', hgeometry⟩ := hholds.next (h.current hstep) hstep
  obtain ⟨hparams, task, x, hx, hloaded⟩ := next_frame hstep
  have hgood := hholds.good 0
  have hgood' := hholds'.good 0
  refine ⟨?_, ?_, fun task' => ?_⟩
  · rcases hparams with hparams | ⟨caller, cmd, arg, rfl, hparams⟩
    · rw [hparams, h.params]
    · rw [hparams]
      rcases scullIoctl_unprivileged hok cmd arg with hsame | hreset
      · rw [hsame, h.params]
      · exact hreset
  · rcases hgeometry with hsame | ⟨hquantum, hqset⟩
    · rw [hgood'.quantum, hgood'.qset, hsame, ← hgood.quantum, ← hgood.qset]
      exact h.dev
    · rw [hgood'.quantum, hgood'.qset, ← hquantum, ← hqset]
      exact of_default h.params
  · rw [hloaded, Function.update_apply]
    split
    · rcases hx with rfl | rfl | rfl
      · exact .inl rfl
      · rw [h.dev.1, h.dev.2]
        exact .inr rfl
      · exact h.loaded task
    · exact h.loaded task'

end LinuxProgram.Kernel.Scull
