import LinuxProgram.Lib.Polling

/-!
# The records of a binlog file

`serialization.h`: a binlog file is a sequence of records, and a record is either the
dump of an event description or a log entry.

* `EventDescDump` — 560 bytes that start with the event id, in which bit 63 is set.
* `LogEntry` — a head of 32 bytes, which starts with an event id in which bit 63 is
  clear, and `mBufferLength` bytes of payload.
* `Log` — a sequence of records that fits a file, whose length is an `off_t`.

Words are written with the lowest byte first (`le64`).
-/

namespace LinuxProgram.Binlog

abbrev Bytes := List UInt8

/-- A `size_t` in memory, its lowest byte first. -/
def le64 (x : ℕ) : Bytes := (List.range 8).map fun i => UInt8.ofNat (x / 256 ^ i)

@[simp] theorem length_le64 (x : ℕ) : (le64 x).length = 8 := rfl

/-- `DESCDUMP_BIT_FLAG`, the bit by which a reader tells the two kinds of records apart. -/
def descdumpBitFlag : ℕ := 2 ^ 63

/-- **`EventDescDump`**, a record of 560 bytes.  The arrays are taken as they are, with whatever
stands behind the zero of a string, and the id has the bit of a description. -/
structure EventDescDump where
  mEventID : ℕ
  mFile : Vector UInt8 128
  mFunc : Vector UInt8 128
  mLevel : Vector UInt8 32
  mLineNo : ℕ
  mFormat : Vector UInt8 128
  mClassTag : Vector UInt8 128
  lt : mEventID < 2 ^ 64
  flag : descdumpBitFlag ≤ mEventID

namespace EventDescDump

/-- What stands before `mClassTag`. -/
def header (d : EventDescDump) : Bytes :=
  le64 d.mEventID ++ d.mFile.toList ++ d.mFunc.toList ++ d.mLevel.toList ++ le64 d.mLineNo
    ++ d.mFormat.toList

/-- The record as it stands in memory, which is also how it is written. -/
def bytes (d : EventDescDump) : Bytes := d.header ++ d.mClassTag.toList

/-- `index()`, the id of the event without the bit. -/
def index (d : EventDescDump) : ℕ := d.mEventID &&& (2 ^ 64 - 1 - descdumpBitFlag)

theorem length_header (d : EventDescDump) : d.header.length = 432 := by
  simp [header]

theorem length_bytes (d : EventDescDump) : d.bytes.length = 560 := by
  simp [bytes, length_header]

/-- It starts with the event id. -/
theorem bytes_eq (d : EventDescDump) : d.bytes = le64 d.mEventID ++ (d.mFile.toList ++
    (d.mFunc.toList ++ (d.mLevel.toList ++ (le64 d.mLineNo ++ (d.mFormat.toList
      ++ d.mClassTag.toList))))) := by
  simp only [bytes, header, List.append_assoc]

end EventDescDump

/-- **`LogEntry`**, with the payload in place of `mBufferLength` and `mBuffer`.  Its id is one
without the bit, as the ids that the linker makes are. -/
structure LogEntry where
  mEventID : ℕ
  mTsc : ℕ
  mTID : ℕ
  mBuffer : Bytes
  flag : mEventID < descdumpBitFlag
  tsc_lt : mTsc < 2 ^ 64
  tid_lt : mTID < 2 ^ 64

namespace LogEntry

/-- `LogEntryHead` as it stands in memory. -/
def head (e : LogEntry) : Bytes :=
  le64 e.mEventID ++ le64 e.mBuffer.length ++ le64 e.mTsc ++ le64 e.mTID

/-- The entry as it is written to the file. -/
def bytes (e : LogEntry) : Bytes := e.head ++ e.mBuffer

theorem length_head (e : LogEntry) : e.head.length = 32 := rfl

/-- It starts with the event id. -/
theorem bytes_eq (e : LogEntry) : e.bytes = le64 e.mEventID ++ (le64 e.mBuffer.length ++
    (le64 e.mTsc ++ (le64 e.mTID ++ e.mBuffer))) := by
  simp only [bytes, head, List.append_assoc]

/-- `entryLength()` -/
theorem length_bytes (e : LogEntry) : e.bytes.length = 32 + e.mBuffer.length := by
  rw [bytes, List.length_append, length_head]

end LogEntry

/-- **A record** of the file: a description or an entry. -/
inductive Record
  | desc (d : EventDescDump)
  | entry (e : LogEntry)

def Record.bytes : Record → Bytes
  | .desc d => d.bytes
  | .entry e => e.bytes

/-- The records one after the other. -/
def contents (records : List Record) : Bytes := records.flatMap Record.bytes

@[simp] theorem contents_nil : contents [] = [] := rfl

@[simp] theorem contents_cons (r : Record) (rs : List Record) :
    contents (r :: rs) = r.bytes ++ contents rs := rfl

@[simp] theorem contents_append (rs rs' : List Record) :
    contents (rs ++ rs') = contents rs ++ contents rs' := List.flatMap_append

/-- **A log**: records that fit a file, so that every offset in it is an `off_t`. -/
structure Log where
  records : List Record
  fits : (contents records).length < 2 ^ 63

/-! ### What a reader is to return -/

/-- **An entry as a reader sees it**, with the class tag of its event. -/
structure LogItem where
  mEventID : ℕ
  mBufferLength : ℕ
  mTsc : ℕ
  mTID : ℕ
  mBuffer : Bytes
  curTag : Option Bytes
  deriving DecidableEq, Repr

/-- The descriptions in a list of records, the latest first. -/
def descs (records : List Record) : List EventDescDump :=
  records.reverse.filterMap fun
    | .desc d => some d
    | .entry _ => none

/-- The latest description of an event, which is the one that the map of a reader has. -/
def latest (seen : List EventDescDump) (eventID : ℕ) : Option EventDescDump :=
  seen.find? fun d => d.index = eventID

/-- An entry behind the descriptions `seen`, which decide its class tag. -/
def LogEntry.item (e : LogEntry) (seen : List EventDescDump) : LogItem where
  mEventID := e.mEventID
  mBufferLength := e.mBuffer.length
  mTsc := e.mTsc
  mTID := e.mTID
  mBuffer := e.mBuffer
  curTag := (latest seen e.mEventID).map fun d => d.mClassTag.toList

/-- **The entries of a list of records** that starts at `offset`, each with the
offset at which it ends. -/
def entriesFrom (offset : ℕ) (seen : List EventDescDump) : List Record → List (ℕ × LogItem)
  | [] => []
  | .desc d :: rs => entriesFrom (offset + d.bytes.length) (d :: seen) rs
  | .entry e :: rs =>
      (offset + e.bytes.length, e.item seen) :: entriesFrom (offset + e.bytes.length) seen rs

/-- The entries of a log. -/
def Log.entries (log : Log) : List (ℕ × LogItem) := entriesFrom 0 [] log.records

/-- Where entries end. -/
theorem entriesFrom_end {offset : ℕ} {seen : List EventDescDump} {rs : List Record}
    {item : ℕ × LogItem} (h : item ∈ entriesFrom offset seen rs) :
    offset + 32 ≤ item.1 ∧ item.1 ≤ offset + (contents rs).length := by
  induction rs generalizing offset seen with
  | nil => cases h
  | cons r rs ih =>
      rw [contents_cons, List.length_append]
      cases r with
      | desc d =>
          have := ih h
          rw [Record.bytes]
          omega
      | entry e =>
          have hlen := e.length_bytes
          rw [Record.bytes]
          rcases List.mem_cons.mp h with rfl | h
          · dsimp only
            omega
          · have := ih h
            omega

end LinuxProgram.Binlog
