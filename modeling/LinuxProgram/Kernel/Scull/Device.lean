import LinuxProgram.Lib.Ledger

/-!
# The bare scull device

`main.c` of the scull driver: a device is a region of memory that grows as it is written, a
list of items, each of which has an array of `qset` pointers to `quantum` bytes.

* `ScullDev` — a device.  A pointer that is NULL is `none`.
* `scullTrim`, `scullFollow`, `scullRead`, `scullWrite`, `scullLlseek` — the functions of the
  source.  `scullRead` and `scullWrite` are given the quantum and the array size that they have
  loaded before they wait for the semaphore; they are what the calls do while they hold it.

A function is `none` where the code divides by zero, or goes past the end of a block.
-/

namespace LinuxProgram.Kernel.Scull

open Lib

/-- A byte in memory, or what `kmalloc` has left there. -/
abbrev Cell := Option UInt8

inductive Errno
  | EPERM
  | ENOMEM
  | EFAULT
  | EINVAL
  | ENOTTY
  deriving DecidableEq, Repr

def Errno.code : Errno → ℤ
  | .EPERM => 1
  | .ENOMEM => 12
  | .EFAULT => 14
  | .EINVAL => 22
  | .ENOTTY => 25

/-- A value that is converted to `int`. -/
def int (x : ℤ) : ℤ := x.bmod 0x100000000

/-- A value that is converted to `size_t`. -/
def sizeT (x : ℤ) : ℕ := (x % 0x10000000000000000).toNat

/-- A value that is converted to `loff_t`. -/
def loff (x : ℤ) : ℤ := x.bmod 0x10000000000000000

/-- `l[i]` -/
def at? {α : Type*} (l : List α) (i : ℤ) : Option α := if i < 0 then none else l[i.toNat]?

/-! ### kmalloc and kfree -/

/-- **Memory.**  `room` is how many more calls of `kmalloc` succeed. -/
structure Slab where
  ledger : Ledger
  room : ℕ
  deriving DecidableEq, Repr

namespace Slab

/-- `kmalloc(size)`.  A negative size is huge. -/
def kmalloc (m : Slab) (size : ℤ) : Option (ℕ × Slab) :=
  if size < 0 then none
  else
    match m.room with
    | 0 => none
    | room + 1 => some (m.ledger.alloc.1, ⟨m.ledger.alloc.2, room⟩)

def kfree (addr : ℕ) (m : Slab) : Slab := { m with ledger := m.ledger.free addr }

end Slab

/-- **A block** that was allocated, and what is in it. -/
structure Block (α : Type) where
  addr : ℕ
  val : α
  deriving DecidableEq, Repr

/-- The bytes of a quantum. -/
abbrev Quantum := Block (List Cell)

/-- The array of an item. -/
abbrev QuantumSet := Block (List (Option Quantum))

/-- **`struct scull_qset`**; `next` is the rest of the list. -/
structure ScullQset where
  addr : ℕ
  data : Option QuantumSet
  deriving DecidableEq, Repr

/-- **`struct scull_dev`**, the bare device: the list of its items, the quantum and the array size
they were made with, and how many bytes there are. -/
structure ScullDev where
  data : List ScullQset
  quantum : ℤ
  qset : ℤ
  size : ℕ
  deriving DecidableEq, Repr

/-! ### scull_trim -/

/-- The loop of `scull_trim` over an array, up to the size that the device has now. -/
def freeQuanta : List (Option Quantum) → ℕ → Slab → Option Slab
  | _, 0, m => some m
  | [], _ + 1, _ => none
  | none :: set, n + 1, m => freeQuanta set n m
  | some quantum :: set, n + 1, m => freeQuanta set n (m.kfree quantum.addr)

/-- The loop over the list. -/
def freeItems (qset : ℤ) : List ScullQset → Slab → Option Slab
  | [], m => some m
  | dptr :: next, m =>
      let m' := match dptr.data with
        | none => some m
        | some set => (freeQuanta set.val qset.toNat m).map (Slab.kfree set.addr)
      m'.bind fun m => freeItems qset next (m.kfree dptr.addr)

/-- **`scull_trim`** with the parameters of the module, which become those of the device. -/
def scullTrim (scullQuantum scullQset : ℤ) (dev : ScullDev) (m : Slab) :
    Option (ScullDev × Slab) :=
  (freeItems dev.qset dev.data m).map fun m =>
    ({ data := [], quantum := scullQuantum, qset := scullQset, size := 0 }, m)

/-! ### scull_follow -/

/-- The loop of `scull_follow`, on the items behind `qs`, and whether it comes to its end. -/
def followLoop (rest : List ScullQset) : ℕ → Slab → List ScullQset × Slab × Bool
  | 0, m => (rest, m, true)
  | n + 1, m =>
      match rest with
      | qs :: rest =>
          let (rest, m, found) := followLoop rest n m
          (qs :: rest, m, found)
      | [] =>
          match m.kmalloc 16 with
          | none => ([], m, false)
          | some (addr, m) =>
              let (rest, m, found) := followLoop [] n m
              (⟨addr, none⟩ :: rest, m, found)

/-- **`scull_follow`** — the list, and the place of the item in it.  A negative `n` comes to zero
only after it has wrapped. -/
def scullFollow (data : List ScullQset) (n : ℤ) (m : Slab) :
    List ScullQset × Slab × Option ℕ :=
  let steps := (n % 0x100000000).toNat
  match data with
  | qs :: rest =>
      let (rest, m, found) := followLoop rest steps m
      (qs :: rest, m, if found then some steps else none)
  | [] =>
      match m.kmalloc 16 with
      | none => ([], m, none)
      | some (addr, m) =>
          let (rest, m, found) := followLoop [] steps m
          (⟨addr, none⟩ :: rest, m, if found then some steps else none)

/-! ### scull_read and scull_write -/

/-- Where a position is: the list item, the index in its array, and the offset in the quantum. -/
structure Place where
  item : ℤ
  s_pos : ℤ
  q_pos : ℤ
  deriving DecidableEq, Repr

/-- The place of a position, or nothing where the item has no bytes and it divides by zero. -/
def locate (quantum qset : ℤ) (f_pos : ℕ) : Option Place :=
  let itemsize := int (quantum * qset)
  if itemsize = 0 then none
  else
    let item := int ((f_pos : ℤ).tdiv itemsize)
    let rest := int ((f_pos : ℤ).tmod itemsize)
    some ⟨item, rest.tdiv quantum, rest.tmod quantum⟩

/-- `scull_read` in the item that `scull_follow` has found. -/
def readItem (quantum : ℤ) (place : Place) (count : ℕ) (fault : Bool) (dptr : ScullQset) :
    Option (Except Errno (List Cell)) :=
  match dptr.data with
  | none => some (.ok [])
  | some set =>
      match at? set.val place.s_pos with
      | none => none
      | some none => some (.ok [])
      | some (some block) =>
          let count := min count (sizeT (quantum - place.q_pos))
          if place.q_pos < 0 ∨ block.val.length < place.q_pos + count then none
          else if fault then some (.error .EFAULT)
          else some (.ok ((block.val.drop place.q_pos.toNat).take count))

/-- **`scull_read`**, and the bytes that the caller gets.  `fault` is whether `copy_to_user`
fails.  That `f_pos + count` is a `loff_t` was checked before. -/
def scullRead (quantum qset : ℤ) (f_pos count : ℕ) (fault : Bool) (dev : ScullDev) (m : Slab) :
    Option (ScullDev × Slab × Except Errno (List Cell)) :=
  if f_pos ≥ dev.size then some (dev, m, .ok [])
  else
    let count := if f_pos + count > dev.size then dev.size - f_pos else count
    match locate quantum qset f_pos with
    | none => none
    | some place =>
        let (data, m, found) := scullFollow dev.data place.item m
        let dev := { dev with data := data }
        match found.bind (data[·]?) with
        | none => some (dev, m, .ok [])
        | some dptr => (readItem quantum place count fault dptr).map fun retval => (dev, m, retval)

/-- The array of the item, which is allocated if there is none. -/
def itemSet (qset : ℤ) (data : Option QuantumSet) (m : Slab) : Option (QuantumSet × Slab) :=
  match data with
  | some set => some (set, m)
  | none => (m.kmalloc (qset * 8)).map fun (addr, m) =>
      (⟨addr, List.replicate qset.toNat none⟩, m)

/-- The quantum, which is allocated if there is none. -/
def setQuantum (quantum : ℤ) (slot : Option Quantum) (m : Slab) : Option (Quantum × Slab) :=
  match slot with
  | some block => some (block, m)
  | none => (m.kmalloc quantum).map fun (addr, m) =>
      (⟨addr, List.replicate quantum.toNat none⟩, m)

/-- What is in memory after bytes were copied to an offset. -/
def splice (old : List Cell) (offset : ℕ) (bytes : List UInt8) : List Cell :=
  old.take offset ++ bytes.map some ++ old.drop (offset + bytes.length)

/-- `scull_write` in the item that `scull_follow` has found.  If `copy_from_user` fails, `fault`
is what it has copied. -/
def writeItem (quantum qset : ℤ) (place : Place) (buf : List UInt8) (fault : Option (List UInt8))
    (dptr : ScullQset) (m : Slab) : Option (ScullQset × Slab × Except Errno ℕ) :=
  match itemSet qset dptr.data m with
  | none => some (dptr, m, .error .ENOMEM)
  | some (set, m) =>
      match at? set.val place.s_pos with
      | none => none
      | some slot =>
          match setQuantum quantum slot m with
          | none => some ({ dptr with data := some set }, m, .error .ENOMEM)
          | some (block, m) =>
              let count := min buf.length (sizeT (quantum - place.q_pos))
              if place.q_pos < 0 ∨ block.val.length < place.q_pos + count then none
              else
                let copied := ((fault.getD buf).take count)
                let block := { block with val := splice block.val place.q_pos.toNat copied }
                let set := { set with val := set.val.set place.s_pos.toNat (some block) }
                some ({ dptr with data := some set }, m,
                  if fault.isSome then .error .EFAULT else .ok count)

/-- **`scull_write`**, and how many bytes were taken. -/
def scullWrite (quantum qset : ℤ) (f_pos : ℕ) (buf : List UInt8) (fault : Option (List UInt8))
    (dev : ScullDev) (m : Slab) : Option (ScullDev × Slab × Except Errno ℕ) :=
  match locate quantum qset f_pos with
  | none => none
  | some place =>
      let (data, m, found) := scullFollow dev.data place.item m
      let dev := { dev with data := data }
      match found with
      | none => some (dev, m, .error .ENOMEM)
      | some n =>
          match data[n]? with
          | none => none
          | some dptr =>
              (writeItem quantum qset place buf fault dptr m).map fun (dptr, m, retval) =>
                let size := match retval with
                  | .error _ => dev.size
                  | .ok count => max dev.size (f_pos + count)
                ({ dev with data := data.set n dptr, size := size }, m, retval)

/-! ### scull_llseek -/

/-- **`scull_llseek`** of a file at `f_pos`: its new position. -/
def scullLlseek (dev : ScullDev) (f_pos : ℕ) (off : ℤ) (whence : ℤ) : Except Errno ℕ :=
  let newpos := match whence with
    | 0 => some off
    | 1 => some (f_pos + off)
    | 2 => some (dev.size + off)
    | _ => none
  match newpos with
  | none => .error .EINVAL
  | some newpos => if loff newpos < 0 then .error .EINVAL else .ok (loff newpos).toNat

end LinuxProgram.Kernel.Scull
