import LinuxProgram.Lib.StepSystem
import LinuxProgram.Lib.Allocation

/-!
# The bitmap allocator

`MemoryRingBuffer2.hpp` with the bit operations of `bitop.hpp`.

* `Params` — the two template arguments of the class.
* `Bitmap` — `mFreeBitMap`; `Bitmap.bit k` is its bit number `k`.
* `find`, `findSlices`, `bitmapOP` — the private members.  The two functions named
  `Find` are `find` and `findSlices`.
* `acquire`, `release`, `empty`, `size` — the public members.
* `system` — every sequence of calls in which a block that is released is live.

A pointer is its offset from `mStorage`, a `size_t` is a natural number that is
reduced modulo `2^64` where it can wrap, and an `int` is an integer in the range of
32 bits (`toInt` is the conversion).  `none` stands for undefined behaviour: an
`int` that overflows or a word outside of `mFreeBitMap` that is written.
-/

namespace LinuxProgram.MemoryAllocatorBitmap

open Lib

/-! ### bitop.hpp -/

/-- `ffsll`: one plus the number of the lowest bit that is set, or 0. -/
def ffsll (i : BitVec 64) : ℕ := if i = 0#64 then 0 else i.ctz.toNat + 1

def ffzll (i : BitVec 64) : ℕ := ffsll (~~~i)

def tzcnt (l : BitVec 64) : ℕ := l.ctz.toNat

def bitSetCount (data : BitVec 64) : ℕ := data.cpop.toNat

def setBit (nr : ℕ) (word : BitVec 64) : BitVec 64 := word ||| (1#64 <<< nr)

def clearBit (nr : ℕ) (word : BitVec 64) : BitVec 64 := word &&& ~~~(1#64 <<< nr)

/-! ### The bitmap -/

/-- **The template arguments**: a positive multiple of 64 and a positive size, both
of type `size_t`. -/
structure Params where
  fixedSliceCnt : ℕ
  sliceSize : ℕ
  cnt_pos : 0 < fixedSliceCnt
  cnt_dvd : 64 ∣ fixedSliceCnt
  cnt_lt : fixedSliceCnt < 2 ^ 64
  size_pos : 0 < sliceSize
  size_lt : sliceSize < 2 ^ 64

/-- `mFreeBitMap`: 0 is free, 1 is allocated. -/
abbrev Bitmap (cnt : ℕ) := Vector (BitVec 64) (cnt / 64)

/-- Conversion to `int`, of which the compiler keeps 32 bits. -/
def toInt (x : ℤ) : ℤ := x.bmod (2 ^ 32)

/-- The sum of two `int`s, or nothing where it overflows. -/
def addInt (x y : ℤ) : Option ℤ :=
  if -2 ^ 31 ≤ x + y ∧ x + y < 2 ^ 31 then some (x + y) else none

/-- `enum BITOP`. -/
inductive BitOp
  | set
  | clear
  deriving DecidableEq, Repr

/-- `set_bit` or `clear_bit`. -/
def BitOp.onBit (op : BitOp) (nr : ℕ) (word : BitVec 64) : BitVec 64 :=
  match op with
  | .set => setBit nr word
  | .clear => clearBit nr word

/-- What is stored to a whole word. -/
def BitOp.word : BitOp → BitVec 64
  | .set => 0xFFFFFFFFFFFFFFFF#64
  | .clear => 0x00#64

namespace Bitmap

variable {cnt : ℕ}

def word (bm : Bitmap cnt) (i : ℕ) : BitVec 64 := bm[i]?.getD 0#64

/-- Bit number `k` of the bitmap. -/
def bit (bm : Bitmap cnt) (k : ℕ) : Bool := (bm.word (k / 64)).getLsbD (k % 64)

/-- A write to the word at `pos`, or nothing where that is outside of the bitmap. -/
def update (bm : Bitmap cnt) (pos : ℤ) (f : BitVec 64 → BitVec 64) : Option (Bitmap cnt) :=
  if h : pos.toNat < cnt / 64 then
    if 0 ≤ pos then some (bm.set pos.toNat (f bm[pos.toNat])) else none
  else none

/-- `Find()`: one plus the number of the first zero bit, or 0. -/
def find (bm : Bitmap cnt) : ℕ :=
  ((List.range (cnt / 64)).findSome? fun i =>
    let nr := ffzll (bm.word i)
    if nr ≠ 0 then some (i * 64 + nr) else none).getD 0

/-- The loop of `Find<SLICES>()` at `bit`, with `left` turns to go.  Every turn
computes `bit + 1`. -/
def findLoop (bm : Bitmap cnt) (slices : ℕ) :
    ℕ → ℕ → BitVec 64 → ℕ → ℕ → Option ℕ
  | 0, _, _, _, _ => some 0
  | left + 1, bit, data, currentRet, maxSoFar =>
      let shift := bit % 64
      let data := if shift = 0 then bm.word (bit / 64) else data
      if bit + 1 = 2 ^ 31 then none
      else if (1#64 <<< shift) &&& data ≠ 0#64 then
        findLoop bm slices left (bit + 1) data 0 maxSoFar
      else
        let currentRet := currentRet + 1
        let maxSoFar := max currentRet maxSoFar
        if maxSoFar = slices then some ((bit + 1 - slices) + 1)
        else findLoop bm slices left (bit + 1) data currentRet maxSoFar

/-- `Find<SLICES>()`: one plus the first bit of the first run of zeros, or 0. -/
def findSlices (bm : Bitmap cnt) (slices : ℕ) : Option ℕ :=
  let nr := tzcnt (bm.word 0)
  if nr < slices then bm.findLoop slices cnt 0 0#64 0 0 else some 1

/-- **`BitmapOP<op>(NR, bits)`**: the bits of the first word one by one, the words in between as a
whole, and the bits of the last word one by one. -/
def bitmapOP (op : BitOp) (bm : Bitmap cnt) (nr bits : ℕ) : Option (Bitmap cnt) := do
  let endBit := (nr + bits) % 2 ^ 64
  let pos := toInt (nr / 64 : ℕ)
  let leftEndBit := (nr / 64 + 1) * 64 % 2 ^ 64
  -- process left odd bits
  let bm ← (List.range' nr (min endBit leftEndBit - nr)).foldlM
    (fun bm i => bm.update pos (op.onBit (i &&& 0x3F))) bm
  if endBit ≤ leftEndBit then return bm
  -- continuous words
  let pos ← addInt pos 1
  let bytes := toInt ((endBit / 64 : ℕ) - pos)
  let last ← addInt pos bytes
  let bm ← (List.range bytes.toNat).foldlM
    (fun (bm : Bitmap cnt) (i : ℕ) => bm.update (pos + i) fun _ => op.word) bm
  -- process right odd bits
  let pos := last
  (List.range (endBit &&& 0x3F)).foldlM (fun bm bit => bm.update pos (op.onBit bit)) bm

def empty (bm : Bitmap cnt) : Bool := bm.toList.all fun iter => ffzll iter = 0

def size (bm : Bitmap cnt) : ℕ := (bm.toList.map fun iter => bitSetCount (~~~iter)).sum

end Bitmap

/-! ### acquire and release -/

namespace Params

variable (P : Params)

/-- The number of slices of a request, where `SIZE+SLICE_SIZE-1` is a `size_t` that can wrap. -/
def slices (size : ℕ) : ℕ := (size + P.sliceSize - 1) % 2 ^ 64 / P.sliceSize

/-- `Round2SliceSIZE<SIZE>()`, an `unsigned int`. -/
def round2SliceSize (size : ℕ) : ℕ := P.slices size % 2 ^ 32

/-- The search of `acquire`: `Find()` for one slice, `Find<slices>()` otherwise. -/
def found (size : ℕ) (bm : Bitmap P.fixedSliceCnt) : Option ℕ :=
  let slices := P.slices size
  if slices = 1 then some bm.find else bm.findSlices slices

/-- `acquire` behind the search; `slot` is an `int`. -/
def acquireAt (size : ℕ) (slot : ℤ) (bm : Bitmap P.fixedSliceCnt) :
    Option (Option ℕ × Bitmap P.fixedSliceCnt) :=
  if slot = 0 then some (none, bm)
  else if slot = -2 ^ 31 then none
  else (bm.bitmapOP .set ((slot - 1) % 2 ^ 64).toNat (P.slices size)).map fun bm =>
    (some ((P.sliceSize * slot) % 2 ^ 64).toNat, bm)

/-- `acquire<SIZE>()`: the pointer, which may be null, and the bitmap.  `slot` is
declared as `auto slot = 0`. -/
def acquire (size : ℕ) (bm : Bitmap P.fixedSliceCnt) :
    Option (Option ℕ × Bitmap P.fixedSliceCnt) :=
  (P.found size bm).bind fun slot => P.acquireAt size (toInt slot) bm

/-- **`release<SIZE>(ptr)`**, which clears as many bits as the size asks for, from the slice of the
pointer on. -/
def release (size ptr : ℕ) (bm : Bitmap P.fixedSliceCnt) : Option (Bitmap P.fixedSliceCnt) :=
  let slices := P.round2SliceSize size
  let diff := ptr / P.sliceSize
  bm.bitmapOP .clear ((diff + (2 ^ 64 - 1)) % 2 ^ 64) slices

/-- The constructor leaves every slice free. -/
def initial : Bitmap P.fixedSliceCnt := Vector.replicate _ 0#64

end Params

/-! ### Sequences of calls -/

/-- A block that was acquired: its pointer and how many slices were asked for. -/
structure Block where
  ptr : ℕ
  slices : ℕ
  deriving DecidableEq, Repr

/-- **The allocator**, with the blocks that are live as a ghost. -/
structure State (P : Params) where
  mFreeBitMap : Bitmap P.fixedSliceCnt
  live : List Block

/-- A call; `size` is its template argument. -/
inductive Call
  | acquire (size : ℕ)
  | release (size ptr : ℕ)
  deriving DecidableEq, Repr

/-- **A call.**  A block is released with its pointer and the slice count it was
acquired with. -/
def next (P : Params) : Call → State P → Option (State P)
  | .acquire size, s =>
      if 1 ≤ size ∧ size < 2 ^ 64 then do
        let (ptr, bm) ← P.acquire size s.mFreeBitMap
        match ptr with
        | none => return { s with mFreeBitMap := bm }
        | some ptr => return { mFreeBitMap := bm, live := ⟨ptr, P.slices size⟩ :: s.live }
      else none
  | .release size ptr, s =>
      if 1 ≤ size ∧ size < 2 ^ 64 ∧ ⟨ptr, P.slices size⟩ ∈ s.live then do
        let bm ← P.release size ptr s.mFreeBitMap
        return { mFreeBitMap := bm, live := s.live.erase ⟨ptr, P.slices size⟩ }
      else none

/-- **All sequences of calls** that release only what is live. -/
def system (P : Params) : StepSystem (State P) Call :=
  .ofFun { mFreeBitMap := P.initial, live := [] } (next P)

end LinuxProgram.MemoryAllocatorBitmap
