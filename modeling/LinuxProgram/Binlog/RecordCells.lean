import LinuxProgram.Lib.ByteLayout
import LinuxProgram.Lib.Stores
import LinuxProgram.Binlog.Dump

/-!
# The memory of records

`EventDescDump` has an array for every string of an `EventDesc`, into which its
constructor copies with `strcpy`; the macros that log construct an object of any type in
the 256 bytes of `LogEntry::mBuffer`.  Neither looks at a length.

* `construct`, `logInfo`, `logDeclare` — what is stored, in order.
* `DescFits`, `EntryFits` — the object and the cell are not left, and every array holds its
  string.
* `record_iff` — so it is exactly if the strings have fewer than 128 characters and the type
  has at most 256 bytes.
* `record_bytes` — then the bytes in memory are the records that the dumper copies (`Dump`).
* `record_longFormat` — a format of 128 characters.
-/

namespace LinuxProgram.Binlog.RecordCells

open Lib.ByteLayout Lib.Stores

/-- **A string**, without the zero that ends it. -/
structure CString where
  chars : Bytes
  nonzero : 0 ∉ chars

/-- **`EventDesc`**, with the strings its pointers point to. -/
structure EventDesc where
  mEventID : UInt64
  mFile : CString
  mFunc : CString
  mLevel : CString
  mLineNo : UInt64
  mFormat : CString
  mClassTag : CString

/-- `"INFO"` -/
def info : CString := ⟨[73, 78, 70, 79], by decide⟩

/-- **`CREATE_EVENT_ID`**, as the macros that log use it. -/
def createEventID (mEventID : UInt64) (mFile mFunc : CString) (mLineNo : UInt64)
    (mFormat mClassTag : CString) : EventDesc :=
  { mEventID, mFile, mFunc, mLevel := info, mLineNo, mFormat, mClassTag }

/-- `strcpy` to an offset. -/
def strcpy (offset : ℕ) (s : CString) : Store := ⟨offset, s.chars ++ [0]⟩

/-- What is stored first: `mEventID` has an initializer. -/
def endEventID : Store := ⟨0, le 8 (2 ^ 64 - 1)⟩

/-- The body of the constructor. -/
def constructBody (event : EventDesc) : List Store :=
  [⟨0, le 8 (descdumpBitFlag ||| event.mEventID.toNat)⟩,
    strcpy 8 event.mFile,
    strcpy 136 event.mFunc,
    strcpy 264 event.mLevel,
    ⟨296, le 8 event.mLineNo.toNat⟩,
    strcpy 304 event.mFormat,
    strcpy 432 event.mClassTag]

/-- **`EventDescDump(event)`**. -/
def construct (event : EventDesc) : List Store := endEventID :: constructBody event

def sizeofEventDescDump : ℕ := 560

/-- The arguments of `LogEntry(EventID, ThreadID)`, and the time stamp it takes. -/
structure EntryHead where
  mEventID : UInt64
  mTsc : UInt64
  mTID : UInt64

/-- **`LogEntry(EventID, ThreadID)`**. -/
def newLogEntry (e : EntryHead) : List Store :=
  [⟨0, le 8 e.mEventID.toNat⟩, ⟨16, le 8 e.mTsc.toNat⟩, ⟨24, le 8 e.mTID.toNat⟩]

/-- **`UBI_LITERAL_LOG_INFO`** of an object of as many bytes as its type has. -/
def logInfo (e : EntryHead) (obj : Bytes) : List Store :=
  newLogEntry e ++ [⟨32, obj⟩, ⟨8, le 8 obj.length⟩]

/-- **`UBI_LITERAL_LOG_DECLARE`**, and what is stored through the pointer it leaves. -/
def logDeclare (e : EntryHead) (obj : Bytes) : List Store :=
  newLogEntry e ++ [⟨8, le 8 obj.length⟩, ⟨32, obj⟩]

def sizeofLogEntry : ℕ := 288

/-- `entryLength()` -/
def entryLength (m : Memory) : ℕ := (32 + ofLE (load m 8 8)) % 2 ^ 64

/-- **A description fits** its object: the constructor stores inside of it, and what a reader finds
in each array is the string that was meant. -/
structure DescFits (event : EventDesc) (m : Memory) : Prop where
  inside : ∀ st ∈ construct event, st.Inside 0 sizeofEventDescDump
  mFile : stringAt (run (construct event) m) 8 128 = some event.mFile.chars
  mFunc : stringAt (run (construct event) m) 136 128 = some event.mFunc.chars
  mLevel : stringAt (run (construct event) m) 264 32 = some event.mLevel.chars
  mFormat : stringAt (run (construct event) m) 304 128 = some event.mFormat.chars
  mClassTag : stringAt (run (construct event) m) 432 128 = some event.mClassTag.chars

/-- **An entry fits** its cell: the object is in `mBuffer`. -/
structure EntryFits (stores : List Store) (obj : Bytes) (m : Memory) : Prop where
  payload : Store.Inside 32 sizeofLogEntry ⟨32, obj⟩
  inside : ∀ st ∈ stores, st.Inside 0 sizeofLogEntry
  entryLength_le : entryLength (run stores m) ≤ sizeofLogEntry

/-- Strings that are shorter than the arrays. -/
structure Short (event : EventDesc) : Prop where
  mFile : event.mFile.chars.length < 128
  mFunc : event.mFunc.chars.length < 128
  mLevel : event.mLevel.chars.length < 32
  mFormat : event.mFormat.chars.length < 128
  mClassTag : event.mClassTag.chars.length < 128

variable {event : EventDesc} {m : Memory} {e : EntryHead} {obj : Bytes} {stores : List Store}

/-! ### Descriptions -/

theorem stop_strcpy (offset : ℕ) (s : CString) :
    (strcpy offset s).stop = offset + (s.chars.length + 1) := by
  rw [strcpy, Store.stop, List.length_append, List.length_singleton]

theorem stop_le (offset n x : ℕ) : (Store.mk offset (le n x)).stop = offset + n := by
  rw [Store.stop, length_le]

/-- **Short strings** are stored one behind the other. -/
theorem apart_constructBody (h : Short event) : (constructBody event).Pairwise Store.Apart := by
  have hfile := h.mFile
  have hfunc := h.mFunc
  have hlevel := h.mLevel
  have hformat := h.mFormat
  apply apart_of_isChain
  unfold constructBody
  simp only [List.isChain_cons_cons, List.isChain_singleton, stop_strcpy, stop_le, and_true]
  simp only [strcpy]
  omega

/-- A short string that the constructor copies is in its array. -/
theorem stringAt_construct (h : Short event) {offset size : ℕ} {s : CString}
    (hs : strcpy offset s ∈ constructBody event) (hlt : s.chars.length < size) (m : Memory) :
    stringAt (run (construct event) m) offset size = some s.chars := by
  apply stringAt_eq_some s.nonzero hlt
  have hload := load_run (apart_constructBody h) hs (endEventID.apply m)
  rw [strcpy, List.length_append, List.length_singleton] at hload
  rw [construct, run_cons]
  exact hload

/-- **A description fits** exactly if its strings are short. -/
theorem descFits_iff (event : EventDesc) (m : Memory) : DescFits event m ↔ Short event := by
  constructor
  · intro h
    exact ⟨length_lt_of_stringAt h.mFile, length_lt_of_stringAt h.mFunc,
      length_lt_of_stringAt h.mLevel, length_lt_of_stringAt h.mFormat,
      length_lt_of_stringAt h.mClassTag⟩
  · intro h
    have hfile : strcpy 8 event.mFile ∈ constructBody event := .tail _ (.head _)
    have hfunc : strcpy 136 event.mFunc ∈ constructBody event := .tail _ (.tail _ (.head _))
    have hlevel : strcpy 264 event.mLevel ∈ constructBody event :=
      .tail _ (.tail _ (.tail _ (.head _)))
    have hformat : strcpy 304 event.mFormat ∈ constructBody event :=
      .tail _ (.tail _ (.tail _ (.tail _ (.tail _ (.head _)))))
    have htag : strcpy 432 event.mClassTag ∈ constructBody event :=
      .tail _ (.tail _ (.tail _ (.tail _ (.tail _ (.tail _ (.head _))))))
    refine ⟨?_, stringAt_construct h hfile h.mFile m, stringAt_construct h hfunc h.mFunc m,
      stringAt_construct h hlevel h.mLevel m, stringAt_construct h hformat h.mFormat m,
      stringAt_construct h htag h.mClassTag m⟩
    obtain ⟨hfile, hfunc, hlevel, hformat, htag⟩ := h
    unfold construct constructBody endEventID sizeofEventDescDump Store.Inside
    simp only [List.forall_mem_cons, List.not_mem_nil, false_imp_iff, implies_true, and_true,
      stop_strcpy, stop_le]
    simp only [strcpy]
    omega

/-! ### Entries -/

/-- The stores of an entry, in either order of the last two. -/
def EntryStores (e : EntryHead) (obj : Bytes) (stores : List Store) : Prop :=
  stores.Perm (newLogEntry e ++ [⟨8, le 8 obj.length⟩, ⟨32, obj⟩])

theorem logInfo_stores (e : EntryHead) (obj : Bytes) : EntryStores e obj (logInfo e obj) :=
  (List.Perm.swap _ _ _).append_left _

theorem logDeclare_stores (e : EntryHead) (obj : Bytes) : EntryStores e obj (logDeclare e obj) :=
  List.Perm.refl _

theorem EntryStores.apart (h : EntryStores e obj stores) : stores.Pairwise Store.Apart := by
  have hapart : List.Pairwise Store.Apart
      (newLogEntry e ++ [⟨8, le 8 obj.length⟩, ⟨32, obj⟩]) := by
    unfold newLogEntry Store.Apart
    simp only [List.cons_append, List.nil_append, List.pairwise_cons, List.forall_mem_cons,
      List.not_mem_nil, false_imp_iff, implies_true, and_true, stop_le, List.Pairwise.nil]
    omega
  exact h.symm.pairwise hapart fun h => h.symm

/-- The length that the dumper finds. -/
theorem EntryStores.entryLength (h : EntryStores e obj stores) (hlt : obj.length < 2 ^ 64)
    (m : Memory) : entryLength (run stores m) = (32 + obj.length) % 2 ^ 64 := by
  have hmem : (⟨8, le 8 obj.length⟩ : Store) ∈ stores :=
    h.symm.subset (List.mem_append_right _ (.head _))
  have hload := load_run h.apart hmem m
  rw [length_le] at hload
  rw [RecordCells.entryLength, hload, ofLE_le hlt]

/-- **An entry fits** exactly if its object has at most 256 bytes. -/
theorem EntryStores.fits_iff (h : EntryStores e obj stores) (m : Memory) :
    EntryFits stores obj m ↔ obj.length ≤ 256 := by
  constructor
  · intro hfits
    have hstop : 32 + obj.length ≤ 32 + 256 := hfits.payload.2
    exact Nat.le_of_add_le_add_left hstop
  · intro hle
    have hobj : (⟨32, obj⟩ : Store).stop ≤ sizeofLogEntry := Nat.add_le_add_left hle 32
    have hall : ∀ st ∈ newLogEntry e ++ [⟨8, le 8 obj.length⟩, ⟨32, obj⟩],
        st.stop ≤ sizeofLogEntry := by
      unfold newLogEntry
      simp only [List.cons_append, List.nil_append, List.forall_mem_cons, List.not_mem_nil,
        false_imp_iff, implies_true, and_true, stop_le]
      exact ⟨by decide, by decide, by decide, by decide, hobj⟩
    refine ⟨⟨le_rfl, hobj⟩, fun st hst => ⟨Nat.zero_le _, hall st (h.subset hst)⟩, ?_⟩
    rw [h.entryLength (by omega), Nat.mod_eq_of_lt (by omega)]
    exact Nat.add_le_add_left hle 32

/-! ### The records in memory -/

theorem le64_eq_le (x : ℕ) : le64 x = le 8 x := by
  rw [le64, le_eq_map]

/-- The array at an offset. -/
def arrayAt (m : Memory) (offset n : ℕ) : Vector UInt8 n := Vector.ofFn fun i => m (offset + i)

theorem toList_arrayAt (m : Memory) (offset n : ℕ) :
    (arrayAt m offset n).toList = load m offset n := by
  apply List.ext_getElem
  · rw [Vector.length_toList, length_load]
  · intro i hi _
    rw [getElem_load, Vector.getElem_toList]
    exact Vector.getElem_ofFn _

/-- **The description** that the constructor leaves. -/
def dumped (event : EventDesc) (m : Memory) : EventDescDump where
  mEventID := descdumpBitFlag ||| event.mEventID.toNat
  mFile := arrayAt (run (construct event) m) 8 128
  mFunc := arrayAt (run (construct event) m) 136 128
  mLevel := arrayAt (run (construct event) m) 264 32
  mLineNo := event.mLineNo.toNat
  mFormat := arrayAt (run (construct event) m) 304 128
  mClassTag := arrayAt (run (construct event) m) 432 128
  lt := Nat.or_lt_two_pow (by decide) event.mEventID.toNat_lt
  flag := Nat.left_le_or

/-- The members of `EventDescDump`. -/
theorem load_members (m : Memory) : load m 0 560 = load m 0 8 ++ (load m 8 128 ++
    (load m 136 128 ++ (load m 264 32 ++ (load m 296 8 ++ (load m 304 128
      ++ load m 432 128))))) := by
  rw [← load_add, ← load_add, ← load_add, ← load_add, ← load_add, ← load_add]

/-- It is what is in memory, if the strings are short. -/
theorem load_construct (h : Short event) (m : Memory) :
    load (run (construct event) m) 0 560 = (dumped event m).bytes := by
  have hid := load_run (apart_constructBody h) (.head _) (endEventID.apply m)
  have hline := load_run (apart_constructBody h)
    (.tail _ (.tail _ (.tail _ (.tail _ (.head _))))) (endEventID.apply m)
  rw [length_le, ← run_cons, ← construct, ← le64_eq_le] at hid hline
  rw [load_members, EventDescDump.bytes_eq, hid, hline]
  simp only [dumped, toList_arrayAt]

/-- **The entry** of an event whose id has bit 63 clear. -/
def entry (e : EntryHead) (obj : Bytes) (hid : e.mEventID.toNat < descdumpBitFlag) : LogEntry where
  mEventID := e.mEventID.toNat
  mTsc := e.mTsc.toNat
  mTID := e.mTID.toNat
  mBuffer := obj
  flag := hid
  tsc_lt := e.mTsc.toNat_lt
  tid_lt := e.mTID.toNat_lt

/-- The members of `LogEntry`. -/
theorem load_entry_members (m : Memory) (n : ℕ) : load m 0 (32 + n) = load m 0 8 ++
    (load m 8 8 ++ (load m 16 8 ++ (load m 24 8 ++ load m 32 n))) := by
  rw [← load_add, ← load_add, ← load_add, ← load_add]
  congr 1
  omega

/-- It is what the macros leave in the cell. -/
theorem EntryStores.load_eq (h : EntryStores e obj stores)
    (hid : e.mEventID.toNat < descdumpBitFlag) (m : Memory) :
    load (run stores m) 0 (32 + obj.length) = (entry e obj hid).bytes := by
  have hfield : ∀ st ∈ newLogEntry e ++ [⟨8, le 8 obj.length⟩, ⟨32, obj⟩],
      load (run stores m) st.offset st.bytes.length = st.bytes :=
    fun st hst => load_run h.apart (h.symm.subset hst) m
  unfold newLogEntry at hfield
  simp only [List.cons_append, List.nil_append, List.forall_mem_cons, length_le] at hfield
  obtain ⟨hevent, htsc, htid, hlength, hobj, -⟩ := hfield
  rw [load_entry_members, LogEntry.bytes_eq, hevent, htsc, htid, hlength, hobj]
  simp only [entry, le64_eq_le]

/-! ### Events -/

/-- **Records fit** exactly if the strings have fewer than 128 characters and the object at
most 256 bytes. -/
theorem record_iff (mEventID mLineNo : UInt64) (mFile mFunc mFormat mClassTag : CString)
    (e : EntryHead) (obj : Bytes) (m cell : Memory) :
    (DescFits (createEventID mEventID mFile mFunc mLineNo mFormat mClassTag) m ∧
      EntryFits (logInfo e obj) obj cell ∧ EntryFits (logDeclare e obj) obj cell) ↔
    mFile.chars.length < 128 ∧ mFunc.chars.length < 128 ∧ mFormat.chars.length < 128 ∧
      mClassTag.chars.length < 128 ∧ obj.length ≤ 256 := by
  rw [descFits_iff, (logInfo_stores e obj).fits_iff, (logDeclare_stores e obj).fits_iff]
  constructor
  · rintro ⟨⟨hfile, hfunc, -, hformat, htag⟩, hobj, -⟩
    exact ⟨hfile, hfunc, hformat, htag, hobj⟩
  · rintro ⟨hfile, hfunc, hformat, htag, hobj⟩
    have hlevel : info.chars.length < 32 := by decide
    exact ⟨⟨hfile, hfunc, hlevel, hformat, htag⟩, hobj, hobj⟩

/-- **Records that fit are those of the dumper**: the bytes of the object are the description that
`Dump` writes to the file, and the first `entryLength()` bytes of the cell are its entry. -/
theorem record_bytes (event : EventDesc) (e : EntryHead) (obj : Bytes) (m cell : Memory)
    (hid : e.mEventID.toNat < descdumpBitFlag) (hdesc : DescFits event m)
    (hstores : EntryStores e obj stores) (hentry : EntryFits stores obj cell) :
    load (run (construct event) m) 0 sizeofEventDescDump = (dumped event m).bytes ∧
      load (run stores cell) 0 (entryLength (run stores cell)) = (entry e obj hid).bytes := by
  have hle : obj.length ≤ 256 := (hstores.fits_iff cell).mp hentry
  have hlength : entryLength (run stores cell) = 32 + obj.length := by
    rw [hstores.entryLength (by omega), Nat.mod_eq_of_lt (by omega)]
  rw [hlength]
  exact ⟨load_construct ((descFits_iff event m).mp hdesc) m, hstores.load_eq hid cell⟩

/-- **A format of 128 characters** has its last zero in `mClassTag`. -/
theorem record_longFormat : ¬ ∀ (mEventID mLineNo : UInt64)
    (mFile mFunc mFormat mClassTag : CString) (e : EntryHead) (obj : Bytes) (m cell : Memory),
    DescFits (createEventID mEventID mFile mFunc mLineNo mFormat mClassTag) m ∧
      EntryFits (logInfo e obj) obj cell ∧ EntryFits (logDeclare e obj) obj cell := by
  intro h
  have hlong : 0 ∉ List.replicate 128 (65 : UInt8) := fun hmem =>
    absurd (List.eq_of_mem_replicate hmem) (by decide)
  have hfits := (h 0 0 info info ⟨List.replicate 128 65, hlong⟩ info ⟨0, 0, 0⟩ [] (fun _ => 0)
    (fun _ => 0)).1
  have hlength := length_lt_of_stringAt hfits.mFormat
  rw [createEventID, List.length_replicate] at hlength
  exact absurd hlength (by decide)

end LinuxProgram.Binlog.RecordCells
