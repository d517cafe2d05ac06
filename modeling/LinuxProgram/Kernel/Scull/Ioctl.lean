import LinuxProgram.Kernel.Scull.Device

/-!
# scull_ioctl

The parameters of the driver can be read and changed by `ioctl`.

* `Params` — the parameters, and `Field` the two that the bare device has.
* `ioc` and the numbers of the commands, as `scull.h` makes them.
* `scullIoctl` — the function; `Caller` is what it finds out about its caller.
* `scullIoctl_unprivileged` — without the capability the quantum and the array size stay or
  are reset.
-/

namespace LinuxProgram.Kernel.Scull

/-- **The parameters** of the driver, which the next `open` goes by.  They are of type `int`, and
nothing checks what `ioctl` stores in them. -/
structure Params where
  scullQuantum : ℤ
  scullQset : ℤ
  scullPBuffer : ℤ
  deriving DecidableEq, Repr

/-- `SCULL_QUANTUM`, `SCULL_QSET` and `SCULL_P_BUFFER`. -/
def Params.default : Params := ⟨4000, 1000, 4000⟩

/-- The parameters of the bare device, for each of which there are six commands. -/
inductive Field
  | quantum
  | qset
  deriving DecidableEq, Repr

def Params.get (p : Params) : Field → ℤ
  | .quantum => p.scullQuantum
  | .qset => p.scullQset

def Params.set (p : Params) : Field → ℤ → Params
  | .quantum, x => { p with scullQuantum := x }
  | .qset, x => { p with scullQset := x }

def Params.setPipe (p : Params) (x : ℤ) : Params := { p with scullPBuffer := x }

@[simp] theorem Params.setPipe_get (p : Params) (x : ℤ) (f : Field) :
    (p.setPipe x).get f = p.get f := by
  cases f <;> rfl

/-! ### The numbers of the commands -/

/-- `_IOC`, which puts the direction, the type, the number and the size together. -/
def ioc (dir type nr size : UInt32) : UInt32 := dir <<< 30 ||| type <<< 8 ||| nr ||| size <<< 16

def iocDir (cmd : UInt32) : UInt32 := cmd >>> 30 &&& 3

def iocType (cmd : UInt32) : UInt32 := cmd >>> 8 &&& 0xff

def iocNr (cmd : UInt32) : UInt32 := cmd &&& 0xff

/-- `SCULL_IOC_MAGIC`, which is `'k'`. -/
def scullIocMagic : UInt32 := 0x6b

def scullIocMaxnr : UInt32 := 14

/-- `_IO`, `_IOW`, `_IOR` and `_IOWR` of an `int`. -/
def io (nr : UInt32) : UInt32 := ioc 0 scullIocMagic nr 0
def iow (nr : UInt32) : UInt32 := ioc 1 scullIocMagic nr 4
def ior (nr : UInt32) : UInt32 := ioc 2 scullIocMagic nr 4
def iowr (nr : UInt32) : UInt32 := ioc 3 scullIocMagic nr 4

/-- **The commands**, with one constructor for each way of setting and querying a parameter. -/
inductive Command
  | reset
  | set (field : Field)
  | tell (field : Field)
  | get (field : Field)
  | query (field : Field)
  | exchange (field : Field)
  | shift (field : Field)
  | pipeTell
  | pipeQuery
  deriving DecidableEq, Repr

/-- Their numbers in `scull.h`. -/
def Command.cmd : Command → UInt32
  | .reset => io 0
  | .set .quantum => iow 1
  | .set .qset => iow 2
  | .tell .quantum => io 3
  | .tell .qset => io 4
  | .get .quantum => ior 5
  | .get .qset => ior 6
  | .query .quantum => io 7
  | .query .qset => io 8
  | .exchange .quantum => iowr 9
  | .exchange .qset => iowr 10
  | .shift .quantum => io 11
  | .shift .qset => io 12
  | .pipeTell => io 13
  | .pipeQuery => io 14

def commands : List Command :=
  .reset :: [Field.quantum, .qset].flatMap (fun f =>
    [.set f, .tell f, .get f, .query f, .exchange f, .shift f]) ++ [.pipeTell, .pipeQuery]

/-! ### The function -/

/-- **A caller**: whether it has `CAP_SYS_ADMIN`, whether `arg` is an address of its own, the
`int` that `__get_user` finds there, and whether `__put_user` can store one. -/
structure Caller where
  capable : Bool
  accessOk : Bool
  fetched : Option ℤ
  storable : Bool

/-- What a call does: the parameters behind it, the `int` that is stored at `arg`, and what is
returned. -/
structure IoctlResult where
  params : Params
  stored : Option ℤ
  retval : ℤ
  deriving DecidableEq, Repr

/-- `__get_user` into a variable, which is zero if it fails. -/
def Caller.getUser (u : Caller) : ℤ × ℤ :=
  match u.fetched with
  | some x => (int x, 0)
  | none => (0, -Errno.EFAULT.code)

/-- `__put_user`, which changes no parameter. -/
def Caller.putUser (u : Caller) (p : Params) (x : ℤ) : IoctlResult :=
  if u.storable then ⟨p, some x, 0⟩ else ⟨p, none, -Errno.EFAULT.code⟩

/-- **The cases of the switch.** What sets a parameter wants `CAP_SYS_ADMIN`; the size of a pipe and
the reset are for everybody. -/
def runCommand (p : Params) (u : Caller) (arg : ℕ) : Command → IoctlResult
  | .reset => ⟨{ p with scullQuantum := 4000, scullQset := 1000 }, none, 0⟩
  | .set f =>
      if ¬u.capable then ⟨p, none, -Errno.EPERM.code⟩
      else ⟨p.set f u.getUser.1, none, u.getUser.2⟩
  | .tell f =>
      if ¬u.capable then ⟨p, none, -Errno.EPERM.code⟩ else ⟨p.set f (int arg), none, 0⟩
  | .get f => u.putUser p (p.get f)
  | .query f => ⟨p, none, p.get f⟩
  | .exchange f =>
      if ¬u.capable then ⟨p, none, -Errno.EPERM.code⟩
      else
        let tmp := p.get f
        let p := p.set f u.getUser.1
        if u.getUser.2 = 0 then u.putUser p tmp else ⟨p, none, u.getUser.2⟩
  | .shift f =>
      if ¬u.capable then ⟨p, none, -Errno.EPERM.code⟩
      else ⟨p.set f (int arg), none, p.get f⟩
  | .pipeTell => ⟨p.setPipe (int arg), none, 0⟩
  | .pipeQuery => ⟨p, none, p.scullPBuffer⟩

/-- **`scull_ioctl`**, with the checks of the number of the command in front of the switch. -/
def scullIoctl (p : Params) (u : Caller) (cmd : UInt32) (arg : ℕ) : IoctlResult :=
  if iocType cmd ≠ scullIocMagic then ⟨p, none, -Errno.ENOTTY.code⟩
  else if iocNr cmd > scullIocMaxnr then ⟨p, none, -Errno.ENOTTY.code⟩
  else if iocDir cmd ≠ 0 ∧ ¬u.accessOk then ⟨p, none, -Errno.EFAULT.code⟩
  else
    match commands.find? (·.cmd = cmd) with
    | none => ⟨p, none, -Errno.ENOTTY.code⟩
    | some command => runCommand p u arg command

/-! ### What a caller can change -/

variable {p : Params} {u : Caller}

/-- What holds behind every command, and of the parameters themselves, holds behind a call. -/
theorem scullIoctl_params {motive : Params → Prop} (hp : motive p) (arg : ℕ)
    (hrun : ∀ command, motive (runCommand p u arg command).params) (cmd : UInt32) :
    motive (scullIoctl p u cmd arg).params := by
  rw [scullIoctl]
  split
  · exact hp
  · split
    · exact hp
    · split
      · exact hp
      · split
        · exact hp
        · exact hrun _

theorem putUser_params (x : ℤ) : (u.putUser p x).params = p := by
  rw [Caller.putUser]
  split <;> rfl

/-- **Without the capability** a caller leaves the quantum and the array size, or resets both. -/
theorem scullIoctl_unprivileged (h : u.capable = false) (cmd : UInt32) (arg : ℕ) :
    (scullIoctl p u cmd arg).params.get = p.get ∨
      (scullIoctl p u cmd arg).params.get = Params.default.get := by
  have hdenied : ¬u.capable = true := by rw [h]; exact Bool.false_ne_true
  refine scullIoctl_params (motive := fun p' => p'.get = p.get ∨ p'.get = Params.default.get)
    (.inl rfl) arg (fun command => ?_) cmd
  cases command with
  | reset =>
      refine .inr ?_
      funext f
      cases f <;> rfl
  | set f => rw [runCommand, if_pos hdenied]; exact .inl rfl
  | tell f => rw [runCommand, if_pos hdenied]; exact .inl rfl
  | get f => rw [runCommand, putUser_params]; exact .inl rfl
  | query f => exact .inl rfl
  | exchange f => rw [runCommand, if_pos hdenied]; exact .inl rfl
  | shift f => rw [runCommand, if_pos hdenied]; exact .inl rfl
  | pipeTell => rw [runCommand]; exact .inl (funext (p.setPipe_get _))
  | pipeQuery => exact .inl rfl

end LinuxProgram.Kernel.Scull
