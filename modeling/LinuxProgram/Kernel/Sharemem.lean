import Mathlib

/-!
# The driver of sharemem.c

A misc device with one buffer for all who open it.  `sharemem_mmap` makes the buffer in
the first call and publishes it in the globals `buffer_addr` and `pages_ptr_array`; reads
give the name of the task that opened the file.

* `Driver` — the globals, and the `sharemem_proc` of every open file.
* `sharememOpen`, `sharememMmap`, `sharememRead`, `sharememWrite` — the file operations.
  What the kernel functions they call return is an argument.  An operation returns
  `none` when it does not come back: it waits for a mutex that is held, or reads or writes
  through an address where nothing is.
-/

namespace LinuxProgram.Kernel.Sharemem

def EINVAL : ℤ := 22

def ENOMEM : ℤ := 12

def EFAULT : ℤ := 14

/-- **`comm`**, the name of a task, of which the array has `TASK_COMM_LEN` = 16 bytes with
the one that ends it. -/
structure Comm where
  name : List UInt8
  nonzero : 0 ∉ name
  fits : name.length < 16

/-- **A `task_struct`**, which is where `address` says. -/
structure Task where
  address : ℕ
  comm : Comm

/-- **`sharemem_proc`**, without what is never read.  An array of pages is the one page in
it. -/
structure Proc where
  tsk : Task
  namelen : ℕ
  kernelAddr : Option ℕ
  pages : Option (Option ℕ)
  /-- Whether `mmap_mutex` is held. -/
  mmapMutex : Bool

/-- **The globals**, with the `private_data` of the files in the order they were opened in.
Of the last two the code has nothing: where `map_vm_area` mapped a page, and what was read
or written through `buffer_addr`. -/
structure Driver where
  bufferAddr : Option ℕ := none
  pagesPtrArray : Option (Option ℕ) := none
  files : List Proc := []
  mapped : List ℕ := []
  used : List ℕ := []

/-- **What the kernel returns** to `sharemem_mmap`: `NULL` is `none`, and of `kzalloc` it is
only whether there is memory. -/
structure Outcome where
  getVmArea : Option ℕ
  kzalloc : Bool
  allocPage : Option ℕ
  mapVmArea : ℤ
  vmInsertPage : ℤ

def Driver.setProc (s : Driver) (file : ℕ) (proc : Proc) : Driver :=
  { s with files := s.files.set file proc }

/-- The buffer is read or written. -/
def Driver.touch (s : Driver) (addr : ℕ) : Driver := { s with used := s.used ++ [addr] }

/-- **`sharemem_open`** by the task `current`, with memory for its `sharemem_proc` or
without. -/
def sharememOpen (s : Driver) (current : Task) (kzalloc : Bool) : Driver × Option ℤ :=
  if kzalloc then
    ({ s with files := s.files ++ [{
        tsk := current
        namelen := current.comm.name.length
        kernelAddr := none
        pages := none
        mmapMutex := false }] }, some 0)
  else (s, some (-ENOMEM))

/-- What `sharemem_mmap` does from the label `MMAP_USER_SPACE`. -/
def mmapUserSpace (s : Driver) (file : ℕ) (proc : Proc) (o : Outcome) : Driver × Option ℤ :=
  let s := s.setProc file { proc with kernelAddr := s.bufferAddr, pages := s.pagesPtrArray }
  match s.pagesPtrArray with
  | none => (s, none)
  | some none => (s, some (-ENOMEM))
  | some (some _) => (s, some o.vmInsertPage)

/-- **`sharemem_mmap`** of a file. -/
def sharememMmap (s : Driver) (file : ℕ) (current : Task) (o : Outcome) : Driver × Option ℤ :=
  match s.files[file]? with
  | none => (s, none)
  | some proc =>
      if proc.tsk.address ≠ current.address then (s, some (-EINVAL))
      else if proc.mmapMutex then (s, none)
      else
        let locked := { proc with mmapMutex := true }
        match s.bufferAddr with
        | some addr =>
            -- the message prints the first word of the buffer
            if addr ∈ s.mapped then mmapUserSpace (s.touch addr) file proc o
            else ((s.touch addr).setProc file locked, none)
        | none =>
            match o.getVmArea with
            | none => (s.setProc file locked, some (-ENOMEM))
            | some addr =>
                let s := { s with bufferAddr := some addr }
                if o.kzalloc = false then
                  -- `pages_ptr_array[0]` is written all the same
                  ({ s with pagesPtrArray := none }.setProc file locked, none)
                else
                  let s := { s with pagesPtrArray := some o.allocPage }
                  if o.mapVmArea ≠ 0 then (s.setProc file locked, some o.mapVmArea)
                  else
                    let mapped := if o.allocPage.isSome then s.mapped ++ [addr] else s.mapped
                    mmapUserSpace { s with mapped := mapped } file proc o

/-- What a read leaves of the name, what it delivers and what it returns. -/
structure NameRead where
  namelen : ℕ
  delivered : List UInt8
  retval : ℤ

/-- What `sharemem_read` does with the name.  A copy of no bytes to user space does not
fail. -/
def readName (comm : Comm) (namelen count : ℕ) (copyFails : Bool) : NameRead :=
  let retval := if count > namelen then namelen else count
  let fails := copyFails && retval != 0
  { namelen := if count > namelen then 0 else namelen - count
    delivered := if fails then [] else comm.name.take retval
    retval := if fails then -EFAULT else retval }

/-- **`sharemem_read`** of a file. -/
def sharememRead (s : Driver) (file count : ℕ) (copyFails : Bool) : Driver × Option ℤ :=
  match s.files[file]? with
  | none => (s, none)
  | some proc =>
      let r := readName proc.tsk.comm proc.namelen count copyFails
      let s := s.setProc file { proc with namelen := r.namelen }
      match s.bufferAddr with
      | none => (s, some r.retval)
      | some addr => (s.touch addr, if addr ∈ s.mapped then some r.retval else none)

/-- **`sharemem_write`** to a file. -/
def sharememWrite (s : Driver) (file count : ℕ) (copyFails : Bool) : Driver × Option ℤ :=
  match s.files[file]? with
  | none => (s, none)
  | some proc =>
      match s.bufferAddr with
      | none => (s, some (-EINVAL))
      | some addr =>
          if proc.mmapMutex then (s, none)
          else if addr ∈ s.mapped then
            -- an `int` holds the count
            (s.touch addr, some (if copyFails then -EFAULT else (count : ℤ).bmod (2 ^ 32)))
          else ((s.touch addr).setProc file { proc with mmapMutex := true }, none)

/-- **A call** of a file operation, with what the kernel returns to it. -/
inductive Call
  | opened (current : Task) (kzalloc : Bool)
  | mmap (file : ℕ) (current : Task) (o : Outcome)
  | read (file count : ℕ) (copyFails : Bool)
  | write (file count : ℕ) (copyFails : Bool)

/-- The driver behind a call. -/
def next (s : Driver) : Call → Driver
  | .opened current kzalloc => (sharememOpen s current kzalloc).1
  | .mmap file current o => (sharememMmap s file current o).1
  | .read file count copyFails => (sharememRead s file count copyFails).1
  | .write file count copyFails => (sharememWrite s file count copyFails).1

end LinuxProgram.Kernel.Sharemem
