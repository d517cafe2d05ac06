import LinuxProgram.Binlog.Record

/-!
# LogRead

`LiteralLog::LogRead` of `serialization.h` on a file that is mapped to memory.

* `File` — what is in the file at the time of a call.  Bytes past its end read as
  zero.
* `Reader` — the members of `LiteralLog` that `LogRead` uses.  A pointer into the
  mapping is its offset.
* `logRead` — the function; `readDescs` is its loop.
* `read` — a call, and what its caller gets to see.

The offsets of the members of `EventDescDump` and `LogEntry` are written out in the
places where the code uses the members.
-/

namespace LinuxProgram.Binlog

/-- **A file** that is mapped, whose length is an `off_t`. -/
structure File where
  bytes : Bytes
  fits : bytes.length < 2 ^ 63

namespace File

/-- `statbuf.st_size` -/
def size (f : File) : ℕ := f.bytes.length

def byte (f : File) (i : ℕ) : UInt8 := f.bytes[i]?.getD 0

/-- The `size_t` at an offset.  Behind the end of the file the model reads zeros; what is read there
is a matter of `LogReadBounds`. -/
def word (f : File) (offset : ℕ) : ℕ :=
  (List.range 8).foldr (fun i acc => (f.byte (offset + i)).toNat + 256 * acc) 0

/-- The bytes of an array. -/
def range (f : File) (offset length : ℕ) : Bytes :=
  (List.range length).map fun i => f.byte (offset + i)

def isEventDesc (f : File) (ptr : ℕ) : Bool := f.word ptr &&& descdumpBitFlag ≠ 0

/-- `index()` of the description at `ptr`. -/
def index (f : File) (ptr : ℕ) : ℕ := f.word ptr &&& (2 ^ 64 - 1 - descdumpBitFlag)

theorem byte_of_size_le {f : File} {i : ℕ} (h : f.size ≤ i) : f.byte i = 0 := by
  rw [byte, List.getElem?_eq_none h]
  rfl

theorem word_eq (f : File) (offset : ℕ) : f.word offset =
    (f.byte offset).toNat + 256 * ((f.byte (offset + 1)).toNat
      + 256 * ((f.byte (offset + 2)).toNat + 256 * ((f.byte (offset + 3)).toNat
      + 256 * ((f.byte (offset + 4)).toNat + 256 * ((f.byte (offset + 5)).toNat
      + 256 * ((f.byte (offset + 6)).toNat + 256 * ((f.byte (offset + 7)).toNat + 0))))))) := rfl

/-- One byte more. -/
theorem byte_add_lt (b : UInt8) {rest bound : ℕ} (h : rest < bound) :
    b.toNat + 256 * rest < 256 * bound := by
  have := b.toNat_lt
  omega

theorem word_lt (f : File) (offset : ℕ) : f.word offset < 2 ^ 64 := by
  rw [word_eq]
  refine (?_ : _ < 256 * (256 * (256 * (256 * (256 * (256 * (256 * 256))))))).trans_eq
    (by norm_num)
  iterate 7 apply byte_add_lt
  exact UInt8.toNat_lt _

/-- The test reads bit 63. -/
theorem isEventDesc_iff {f : File} {ptr : ℕ} :
    f.isEventDesc ptr = true ↔ descdumpBitFlag ≤ f.word ptr := by
  have hlt := f.word_lt ptr
  rw [isEventDesc, descdumpBitFlag, decide_eq_true_eq, Nat.and_two_pow,
    Nat.testBit_eq_decide_div_mod_eq]
  simp only [ne_eq, mul_eq_zero, Bool.toNat_eq_zero, decide_eq_false_iff_not]
  omega

/-- What the test finds is complete as far as the test goes. -/
theorem isEventDesc_lt {f : File} {ptr : ℕ} (h : f.isEventDesc ptr = true) :
    ptr + 7 < f.size := by
  by_contra hle
  rw [isEventDesc_iff, word_eq, byte_of_size_le (i := ptr + 7) (by omega)] at h
  -- the last byte of the word is not there, so the flag is not set
  refine absurd h (not_le.mpr ?_)
  refine (?_ : _ < 256 * (256 * (256 * (256 * (256 * (256 * (256 * 1))))))).trans_le
    (by norm_num [descdumpBitFlag])
  iterate 7 apply byte_add_lt
  exact Nat.zero_lt_one

end File

/-- **The members of `LiteralLog`** that the reader uses.  `mEventDescMap` maps the
index of an event to its description. -/
structure Reader where
  mCurBinLogSize : ℕ
  mEventDescMap : ℕ → Option ℕ
  mCurEntry : Option ℕ
  mCurTag : Option ℕ

/-- **The loop of `LogRead`** over the descriptions, each of which goes into the map.  It ends
because a description starts in the file. -/
def readDescs (f : File) (cur : ℕ) (descMap : ℕ → Option ℕ) : ℕ × (ℕ → Option ℕ) :=
  if h : f.isEventDesc cur then
    readDescs f (cur + 560) (Function.update descMap (f.index cur) (some cur))
  else (cur, descMap)
termination_by f.size - cur
decreasing_by
  have := File.isEventDesc_lt h
  omega

/-- **`LogRead`** — the reader behind the call, and `mBuffer` of the entry or null. -/
def logRead (f : File) (s : Reader) : Reader × Option ℕ :=
  let s := { s with mCurEntry := none, mCurTag := none }
  if s.mCurBinLogSize + 8 > f.size then (s, none)
  else
    let (cur, descMap) := readDescs f s.mCurBinLogSize s.mEventDescMap
    let s := { s with mCurBinLogSize := cur, mEventDescMap := descMap }
    if cur + 32 > f.size then (s, none)
    else
      let mBufferLength := f.word (cur + 8)
      if (cur + 32 + mBufferLength) % 2 ^ 64 > f.size then (s, none)
      else
        ({ s with
            mCurEntry := some cur
            mCurTag := (descMap (f.word cur)).map (· + 432)
            mCurBinLogSize := (cur + 32 + mBufferLength) % 2 ^ 64 }, some (cur + 32))

/-- What the caller reads through the pointer, `mCurEntry` and `GetCurTag()`. -/
def File.item (f : File) (entry buffer : ℕ) (tag : Option ℕ) : LogItem where
  mEventID := f.word entry
  mBufferLength := f.word (entry + 8)
  mTsc := f.word (entry + 16)
  mTID := f.word (entry + 24)
  mBuffer := f.range buffer (f.word (entry + 8))
  curTag := tag.map fun tag => f.range tag 128

/-- **A call of `LogRead`** and, unless it returns null, what the caller reads. -/
def read (f : File) (s : Reader) : Option LogItem × Reader :=
  let (s', result) := logRead f s
  (result.bind fun buffer => s'.mCurEntry.map fun entry => f.item entry buffer s'.mCurTag, s')

/-- A reader that has opened the file and has called nothing yet. -/
def Reader.opened : Reader where
  mCurBinLogSize := 0
  mEventDescMap := fun _ => none
  mCurEntry := none
  mCurTag := none

end LinuxProgram.Binlog
