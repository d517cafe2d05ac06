import LinuxProgram.Lib.StepSystem

/-!
# The single-producer single-consumer ring allocator

`ConcurrentMemoryRingBuffer.cpp`: one thread calls `Producer::acquire`, another
`Consumer::consume`, and they share three words, `mWriteIndex`, `mReadIndex` and
`mDataEnd`.  Every load and every store of one of them is a step of its own; what
a thread computes between two of them on its own variables belongs to the step
before.

* `Ring` — the shared words, the members of the two classes, where each thread
  stands in its code (`ProducerAt`, `ConsumerAt`), and three ghosts: the regions
  `acquire` returned, the ranges `beginRead` returned, and how many bytes
  `endRead` has released.
* `next` — the step function.

A pointer into `mStorage` is its offset.  `aligned_alloc` returns no block of
`2^63` bytes or more, so the conversions to `int64_t` in `maximizeWriteCapacity`
are exact; the comparison there is one of integers, because `leftSize` is `-1` for
`r = 0`.
-/

namespace LinuxProgram.MemoryAllocator

open Lib

/-- A region returned by `acquire`: where it starts in `mStorage`, and how long it is. -/
structure Region where
  start : ℕ
  size : ℕ
  deriving DecidableEq, Repr

/-- The offsets of the bytes of a region, in order. -/
def Region.bytes (r : Region) : List ℕ := List.range' r.start r.size

/-- `Consumer::ResultVec`, the two ranges that `beginRead` returns.  The second one is empty unless
the data go around the end. -/
structure ResultVec where
  buffer1 : ℕ
  size1 : ℕ
  buffer2 : ℕ
  size2 : ℕ
  deriving DecidableEq, Repr

/-- The offsets of the bytes of the two ranges, in order. -/
def ResultVec.bytes (v : ResultVec) : List ℕ :=
  List.range' v.buffer1 v.size1 ++ List.range' v.buffer2 v.size2

/-- Where the producer stands, with what it has loaded so far. -/
inductive ProducerAt
  /-- outside of `acquire` -/
  | idle
  /-- in `maximizeWriteCapacity`, before it loads `mWriteIndex` -/
  | loadWrite (size : ℕ)
  /-- before it loads `mReadIndex` -/
  | loadRead (size w : ℕ)
  /-- before it stores `mDataEnd` -/
  | storeDataEnd (size w r : ℕ)
  /-- in `CommitAllocate`, before it stores `mWriteIndex` -/
  | storeWrite (result : Region)
  deriving DecidableEq, Repr

/-- Where the consumer stands.  It loads `mDataEnd` twice, and between the two loads the producer
can store it again. -/
inductive ConsumerAt
  /-- in `beginRead`, before it loads `mWriteIndex` -/
  | loadWrite
  /-- before it loads `mReadIndex` -/
  | loadRead (w : ℕ)
  /-- before it loads `mDataEnd` for the comparison with `r` -/
  | loadDataEnd (w r : ℕ)
  /-- before it loads `mDataEnd` for the size of the first range -/
  | loadDataEndAgain (w r : ℕ)
  /-- in `endRead`, before it stores `mReadIndex` -/
  | storeRead
  deriving DecidableEq, Repr

/-- **The state of both threads.**  `mSnapWritePos` and `mSnapWriteEnd` are what the producer
remembers of its last look at the indices, `mSnapReadEnd` is what the consumer does. -/
structure Ring where
  mWriteIndex : ℕ := 0
  mReadIndex : ℕ := 0
  mDataEnd : ℕ := 0
  mSnapWritePos : ℕ := 0
  mSnapWriteEnd : ℕ := 0
  mSnapReadEnd : ℕ := 0
  producer : ProducerAt := .idle
  consumer : ConsumerAt := .loadWrite
  /-- Ghost: the regions `acquire` returned. -/
  acquired : List Region := []
  /-- Ghost: the ranges `beginRead` returned. -/
  returned : List ResultVec := []
  /-- Ghost: the number of bytes `endRead` has released. -/
  released : ℕ := 0
  deriving DecidableEq, Repr

namespace Ring

/-- `writeCapacity()`, how much of the snapshot is left. -/
def writeCapacity (s : Ring) : ℕ := s.mSnapWriteEnd - s.mSnapWritePos

/-- The test of `Reserve(size)` on the snapshot: `writeBuffer` if it holds, else
`maximizeWriteCapacity`. -/
def tryReserve (s : Ring) (size : ℕ) : Ring :=
  if size ≤ s.writeCapacity then
    { s with
      mSnapWritePos := s.mSnapWritePos + size
      producer := .storeWrite ⟨s.mSnapWritePos, size⟩ }
  else { s with producer := .loadWrite size }

/-- **The producer inside `acquire`.**  It takes the larger of the two free sides; where that is the
left one, it says in `mDataEnd` where the data on the right end. -/
def producerStep (capacity : ℕ) (s : Ring) : Option Ring :=
  match s.producer with
  | .idle => none
  | .loadWrite size => some { s with producer := .loadRead size s.mWriteIndex }
  | .loadRead size w =>
      let r := s.mReadIndex
      if w < r then
        -- one byte is kept free, so that equal indices mean empty
        some (({ s with mSnapWritePos := w, mSnapWriteEnd := r - 1 } : Ring).tryReserve size)
      else
        let rightSize := capacity - w
        -- the larger side, a signed comparison
        if (rightSize : ℤ) ≥ (r : ℤ) - 1 then
          some (({ s with mSnapWritePos := w, mSnapWriteEnd := w + rightSize } : Ring).tryReserve
            size)
        else some { s with producer := .storeDataEnd size w r }
  | .storeDataEnd size w r =>
      let leftSize := r - 1
      some (({ s with mDataEnd := w, mSnapWritePos := 0, mSnapWriteEnd := leftSize } :
        Ring).tryReserve size)
  | .storeWrite result =>
      some { s with
        mWriteIndex := s.mSnapWritePos
        producer := .idle
        acquired := s.acquired ++ [result] }

/-- `beginRead` returns `v`, and the consumer is to call `endRead`. -/
def beginReadReturns (s : Ring) (v : ResultVec) : Ring :=
  { s with consumer := .storeRead, returned := s.returned ++ [v] }

/-- **The consumer**, which calls `consume` over and over.  `endRead` releases what `beginRead` has
seen, whatever was written since. -/
def consumerStep (s : Ring) : Ring :=
  match s.consumer with
  | .loadWrite => { s with consumer := .loadRead s.mWriteIndex, mSnapReadEnd := s.mWriteIndex }
  | .loadRead w =>
      let r := s.mReadIndex
      if r ≤ w then s.beginReadReturns ⟨r, w - r, 0, 0⟩
      else { s with consumer := .loadDataEnd w r }
  | .loadDataEnd w r =>
      if r < s.mDataEnd then { s with consumer := .loadDataEndAgain w r }
      else s.beginReadReturns ⟨0, w, 0, 0⟩
  | .loadDataEndAgain w r => s.beginReadReturns ⟨r, s.mDataEnd - r, 0, w⟩
  | .storeRead =>
      { s with
        mReadIndex := s.mSnapReadEnd
        consumer := .loadWrite
        released := (s.returned.flatMap ResultVec.bytes).length }

/-- Whose step it is. -/
inductive Action
  /-- the producer calls `acquire(size)` -/
  | acquire (size : ℕ)
  /-- the producer goes on with its call -/
  | producer
  /-- the consumer goes on -/
  | consumer
  deriving DecidableEq, Repr

/-- **The step function.** -/
def next (capacity : ℕ) : Action → Ring → Option Ring
  | .acquire size, s => if s.producer = .idle then some (s.tryReserve size) else none
  | .producer, s => s.producerStep capacity
  | .consumer, s => some s.consumerStep

/-- **All interleavings** of the two threads, with any sizes. -/
def system (capacity : ℕ) : StepSystem Ring Action := .ofFun {} (next capacity)

/-! ### What is observed -/

/-- The bytes of the regions `acquire` returned, in order. -/
def acquiredBytes (s : Ring) : List ℕ := s.acquired.flatMap Region.bytes

/-- The bytes `beginRead` returned, in order. -/
def returnedBytes (s : Ring) : List ℕ := s.returned.flatMap ResultVec.bytes

/-- The bytes of returned regions that were not released yet. -/
def liveBytes (s : Ring) : List ℕ := s.acquiredBytes.drop s.released

/-- The region an `acquire` that was not returned from yet writes to. -/
def reserved (s : Ring) : List Region :=
  match s.producer with
  | .storeWrite result => [result]
  | _ => []

end Ring

end LinuxProgram.MemoryAllocator
