import LinuxProgram.Binlog.Dump

/-!
# The file is a sequence of records

The writing side, cell by cell, does what `Lib.Drain` does with whole records: the
dumper takes a record when it has written the last cell of it.

* `Cell.isEventDesc_desc`, `Cell.isEventDesc_entry` — the first cell of a record is
  classified as what it is, and an entry is written with its own length.
* `Holds` — the cells in a queue are those of the records in it, but for one that the
  dumper has popped, and one that is not pushed yet.
* `Refines` — how a state of the writing side stands for one of the drain.  The second
  cell of a description is never in front when the dumper begins to look at a queue.
* `refines_step` — every step keeps that.
* `dump_wellFormed` — between two calls of the dumper's function the file is a
  sequence of records, and those of each thread are a prefix of its pushes.
-/

namespace LinuxProgram.Binlog

open Lib

/-! ### Cells

A description takes two cells and an entry takes one.  The dumper decides by the bit in the first
word of the cell in front of it which of the two it has, so this section reads the first cell of a
record as a file that ends with it, and uses what the readers of files are known to do. -/

namespace Cell

variable {c : Cell}

theorem memcpy_prefix (c : Cell) {data : Bytes} (h : data.length ≤ 288) :
    data <+: (c.memcpy data).bytes :=
  List.prefix_take_iff.mpr ⟨List.prefix_append _ _, h⟩

/-- A cell as a file that ends with it. -/
theorem sees {rs : List Record} (h : c.bytes = (contents rs).take 288)
    (hfits : (contents rs).length < 2 ^ 63) : Sees c.file 288 [] rs := ⟨h, hfits⟩

/-- **The first cell of a description** is taken for one, by the bit in its first word. -/
theorem isEventDesc_desc {d : EventDescDump} (h : d.bytes.take 288 <+: c.bytes) :
    c.bytes = d.bytes.take 288 ∧ c.isEventDesc = true ∧ c.file.index 0 = d.index := by
  have hlen : (d.bytes.take 288).length = 288 := by rw [List.length_take, d.length_bytes]; rfl
  have hbytes : c.bytes = d.bytes.take 288 :=
    (h.eq_of_length (hlen.trans c.length.symm)).symm
  have hcontents : contents [.desc d] = d.bytes := List.append_nil _
  have hsees : Sees c.file 288 [] [.desc d] :=
    sees (by rw [hcontents, hbytes]) (by rw [hcontents, d.length_bytes]; decide)
  exact ⟨hbytes, hsees.isEventDesc_desc (by decide)⟩

/-- **The cell of an entry** is taken for an entry. -/
theorem isEventDesc_entry {e : LogEntry} (h : e.bytes <+: c.bytes) :
    c.isEventDesc = false ∧ c.bytes.take c.entryLength = e.bytes := by
  obtain ⟨rest, hrest⟩ := h
  have hbytes : c.bytes = (e.bytes ++ rest).take 288 := by
    rw [hrest, List.take_of_length_le c.length.le]
  have hlen : e.bytes.length + rest.length = 288 := by
    rw [← List.length_append, hrest, c.length]
  have hlength := e.length_bytes
  have hid : c.file.word 0 = e.mEventID :=
    File.word_take (A := []) (B := le64 e.mBuffer.length ++ (le64 e.mTsc ++ (le64 e.mTID
      ++ e.mBuffer)) ++ rest) hbytes (by rw [e.bytes_eq, List.append_assoc]; rfl) (by decide)
      (e.flag.trans (by decide))
  have hbuffer : c.file.word 8 = e.mBuffer.length := by
    refine File.word_take (A := le64 e.mEventID) (B := le64 e.mTsc ++ (le64 e.mTID ++ e.mBuffer)
      ++ rest) hbytes ?_ (by rw [length_le64]; decide) (by omega)
    rw [e.bytes_eq]
    simp only [List.append_assoc]
  constructor
  · rw [isEventDesc, ← Bool.not_eq_true, File.isEventDesc_iff, hid]
    exact Nat.not_le.mpr e.flag
  · rw [entryLength, hbuffer, Nat.mod_eq_of_lt (by omega), ← hlength, ← hrest,
      List.take_left]

/-- **The second cell of a description** has the bytes that the first one has no room for. -/
theorem take_second {d : EventDescDump} (h : d.bytes.drop 288 <+: c.bytes) :
    c.bytes.take (560 - 288) = d.bytes.drop 288 := by
  obtain ⟨rest, hrest⟩ := h
  have hlen : (d.bytes.drop 288).length = 560 - 288 := by rw [List.length_drop, d.length_bytes]
  rw [← hrest, ← hlen, List.take_left]

end Cell

/-! ### Queues

The records in a queue are a ghost: what is there are cells, and a cell is longer than what was
put into it, with old bytes behind.  `Holds` therefore relates the cells to the front of what was
pushed, and has a place for a record that is half pushed at one end and half popped at the other. -/

/-- What is pushed for records, cell by cell. -/
def cellsOf (rs : List Record) : List Bytes := rs.flatMap Record.parts

theorem cellsOf_entry (e : LogEntry) (rs : List Record) :
    cellsOf (.entry e :: rs) = e.bytes :: cellsOf rs := rfl

theorem cellsOf_desc (d : EventDescDump) (rs : List Record) :
    cellsOf (.desc d :: rs) = d.bytes.take 288 :: d.bytes.drop 288 :: cellsOf rs := rfl

theorem cellsOf_concat (rs : List Record) (r : Record) :
    cellsOf (rs ++ [r]) = cellsOf rs ++ r.parts := by
  rw [cellsOf, List.flatMap_append, List.flatMap_singleton]
  rfl

/-- The cells start with the given bytes. -/
def Starts (parts : List Bytes) (cells : List Cell) : Prop :=
  List.Forall₂ (fun part cell => part <+: cell.bytes) parts cells

theorem Starts.concat {parts : List Bytes} {cells : List Cell} (h : Starts parts cells)
    {part : Bytes} {cell : Cell} (hpart : part <+: cell.bytes) :
    Starts (parts ++ [part]) (cells ++ [cell]) :=
  List.rel_append h (.cons hpart .nil)

/-- **The records in a queue**, of which the dumper has popped the first `popped`
cells. -/
structure LogInfoPerThread.Holds (t : LogInfoPerThread) (popped : ℕ) (queue : List Record) :
    Prop where
  cells : ∃ front parts, front.length = popped ∧ Starts parts t.mLogBuffer ∧
    cellsOf queue = front ++ (parts ++ t.unfinished.toList.map fun d => d.bytes.drop 288)
  unfinished : ∀ d ∈ t.unfinished, ∃ before, queue = before ++ [.desc d]

namespace LogInfoPerThread

variable {t t' : LogInfoPerThread} {popped : ℕ} {queue : List Record}

theorem holds_fresh : fresh.Holds 0 [] where
  cells := ⟨[], [], rfl, .nil, rfl⟩
  unfinished d h := by cases h

/-- An entry is logged. -/
theorem Holds.log (h : t.Holds popped queue) {e : LogEntry} {cell : Cell}
    (hlog : t.log e cell = some t') :
    t'.Holds popped (queue ++ [.entry e]) ∧ t'.pushed = t.pushed ++ [.entry e] := by
  rw [LogInfoPerThread.log] at hlog
  split at hlog
  · rename_i hguard
    obtain ⟨hnone, hlen⟩ := hguard
    cases hlog
    rw [Option.isNone_iff_eq_none] at hnone
    obtain ⟨front, parts, hfront, hstarts, hcells⟩ := h.cells
    refine ⟨⟨⟨front, parts ++ [e.bytes], hfront, hstarts.concat (cell.memcpy_prefix ?_), ?_⟩, ?_⟩,
      rfl⟩
    · have := e.length_bytes
      omega
    · rw [cellsOf_concat, hcells, hnone]
      simp [Record.parts]
    · intro d hd
      dsimp only at hd
      rw [hnone] at hd
      cases hd
  · cases hlog

/-- The first cell of a description is pushed. -/
theorem Holds.dumpFirst (h : t.Holds popped queue) {d : EventDescDump} {cell : Cell}
    (hdump : t.dumpFirst d cell = some t') :
    t'.Holds popped (queue ++ [.desc d]) ∧ t'.pushed = t.pushed ++ [.desc d] := by
  rw [LogInfoPerThread.dumpFirst] at hdump
  split at hdump
  · rename_i hnone
    cases hdump
    rw [Option.isNone_iff_eq_none] at hnone
    obtain ⟨front, parts, hfront, hstarts, hcells⟩ := h.cells
    refine ⟨⟨⟨front, parts ++ [d.bytes.take 288], hfront,
      hstarts.concat (cell.memcpy_prefix (List.length_take_le _ _)), ?_⟩, ?_⟩, rfl⟩
    · rw [cellsOf_concat, hcells, hnone]
      simp [Record.parts]
    · intro d' hd
      cases hd
      exact ⟨queue, rfl⟩
  · cases hdump

/-- The second cell of a description is pushed. -/
theorem Holds.dumpSecond (h : t.Holds popped queue) {cell : Cell}
    (hdump : t.dumpSecond cell = some t') : t'.Holds popped queue ∧ t'.pushed = t.pushed := by
  obtain ⟨d, hsome, rfl⟩ := Option.map_eq_some_iff.mp hdump
  obtain ⟨front, parts, hfront, hstarts, hcells⟩ := h.cells
  refine ⟨⟨⟨front, parts ++ [d.bytes.drop 288], hfront, hstarts.concat (cell.memcpy_prefix ?_), ?_⟩,
    fun d' hd => by cases hd⟩, rfl⟩
  · rw [List.length_drop, d.length_bytes]
    decide
  · rw [hcells, hsome]
    simp

/-- The queue of a thread that has nothing to write is empty. -/
theorem Holds.eq_nil (h : t.Holds 0 queue) (hempty : t.mLogBuffer = []) : queue = [] := by
  obtain ⟨front, parts, hfront, hstarts, hcells⟩ := h.cells
  rw [hempty] at hstarts
  cases hstarts
  obtain rfl := List.eq_nil_of_length_eq_zero hfront
  cases hunfinished : t.unfinished with
  | none =>
      rw [hunfinished] at hcells
      cases queue with
      | nil => rfl
      | cons r rest => cases r <;> cases hcells
  | some d =>
      -- its first cell would be in the queue
      obtain ⟨before, rfl⟩ := h.unfinished d hunfinished
      rw [hunfinished, cellsOf_concat] at hcells
      have := congrArg List.length hcells
      simp [Record.parts] at this

/-- A thread that has something to write has a record in its queue. -/
theorem Holds.exists_cons (h : t.Holds 0 queue) {cell : Cell} {cells : List Cell}
    (hcell : t.mLogBuffer = cell :: cells) : ∃ r rest, queue = r :: rest := by
  refine List.exists_cons_of_ne_nil fun hnil => ?_
  obtain ⟨front, parts, hfront, hstarts, hcells⟩ := h.cells
  rw [hcell] at hstarts
  rw [hnil] at hcells
  cases hstarts
  obtain rfl := List.eq_nil_of_length_eq_zero hfront
  cases hcells

/-- **The dumper pops an entry**, and the record leaves the queue. -/
theorem Holds.pop_entry {e : LogEntry} {cell : Cell} {cells : List Cell}
    (h : t.Holds 0 (.entry e :: queue)) (hcell : t.mLogBuffer = cell :: cells) :
    e.bytes <+: cell.bytes ∧ Holds { t with mLogBuffer := cells } 0 queue := by
  obtain ⟨front, parts, hfront, hstarts, hcells⟩ := h.cells
  obtain rfl := List.eq_nil_of_length_eq_zero hfront
  rw [hcell] at hstarts
  cases hstarts with
  | cons hpart hstarts =>
      rw [cellsOf_entry] at hcells
      obtain ⟨rfl, hrest⟩ := List.cons.inj hcells
      refine ⟨hpart, ⟨[], _, rfl, hstarts, hrest⟩, fun d hd => ?_⟩
      obtain ⟨before, hbefore⟩ := h.unfinished d hd
      cases before with
      | nil => cases hbefore
      | cons r before => exact ⟨before, (List.cons.inj hbefore).2⟩

/-- **The dumper pops the first cell of a description**; the record stays in the queue until its
second cell is popped as well. -/
theorem Holds.pop_first {d : EventDescDump} {cell : Cell} {cells : List Cell}
    (h : t.Holds 0 (.desc d :: queue)) (hcell : t.mLogBuffer = cell :: cells) :
    d.bytes.take 288 <+: cell.bytes ∧
      Holds { t with mLogBuffer := cells } 1 (.desc d :: queue) := by
  obtain ⟨front, parts, hfront, hstarts, hcells⟩ := h.cells
  obtain rfl := List.eq_nil_of_length_eq_zero hfront
  rw [hcell] at hstarts
  cases hstarts with
  | cons hpart hstarts =>
      have hfirst := hcells
      rw [cellsOf_desc] at hfirst
      obtain ⟨rfl, -⟩ := List.cons.inj hfirst
      exact ⟨hpart, ⟨[_], _, rfl, hstarts, hcells⟩, h.unfinished⟩

/-- **The dumper pops the second cell of a description**, and the record leaves the queue. -/
theorem Holds.pop_second {d : EventDescDump} {cell : Cell} {cells : List Cell}
    (h : t.Holds 1 (.desc d :: queue)) (hcell : t.mLogBuffer = cell :: cells) :
    d.bytes.drop 288 <+: cell.bytes ∧ Holds { t with mLogBuffer := cells } 0 queue := by
  obtain ⟨front, parts, hfront, hstarts, hcells⟩ := h.cells
  obtain ⟨first, rfl⟩ := List.length_eq_one_iff.mp hfront
  rw [hcell] at hstarts
  cases hstarts with
  | cons hpart hstarts =>
      rw [cellsOf_desc] at hcells
      obtain ⟨-, hsecond⟩ := List.cons.inj hcells
      obtain ⟨rfl, hrest⟩ := List.cons.inj hsecond
      refine ⟨hpart, ⟨[], _, rfl, hstarts, hrest⟩, fun d' hd => ?_⟩
      obtain ⟨before, hbefore⟩ := h.unfinished d' hd
      cases before with
      | nil =>
          -- the second cell is not pushed before it is popped
          obtain ⟨-, rfl⟩ := List.cons.inj hbefore
          rw [show t.unfinished = some d' from hd] at hrest
          have := congrArg List.length hrest
          simp [cellsOf] at this
      | cons r before => exact ⟨before, (List.cons.inj hbefore).2⟩

end LogInfoPerThread

/-! ### The writing side and the drain

The drain of records has no cells and no half records, and it moves when the last cell of a record
is written.  `Halfway` is the difference: it says which bytes of a record that the drain has not
taken yet are in the file, and that they end it. -/

/-- The pass the dumper is in. -/
def DumperAt.pass : DumperAt → Option (ℕ × ℕ)
  | .idle => none
  | .visiting index currentSize | .second index currentSize => some (index, currentSize)

/-- How many cells of the first record of a queue the dumper has popped. -/
def DumperAt.popped (dumper : DumperAt) (index : ℕ) : ℕ :=
  match dumper with
  | .second index' _ => if index = index' then 1 else 0
  | _ => 0

/-- The part of a record that ends the file. -/
def Halfway (a : Drain Record) (half : Bytes) : DumperAt → Prop
  | .second index currentSize => index < currentSize ∧
      ∃ d queue, a.queues[index]? = some (.desc d :: queue) ∧ half = d.bytes.take 288
  | _ => half = []

/-- **How the writing side stands for a drain**, when the file began with `start`. -/
structure Refines (start : Bytes) (s : Writer) (a : Drain Record) : Prop where
  length : s.mLogInfoAllThreads.length = a.queues.length
  threads : ∀ index t queue, s.mLogInfoAllThreads[index]? = some t →
    a.queues[index]? = some queue →
    t.pushed = a.pushed index ∧ t.Holds (s.dumper.popped index) queue
  file : ∃ half, Halfway a half s.dumper ∧
    s.file = start ++ contents (a.taken.map Prod.snd) ++ half
  pass : a.pass = s.dumper.pass
  within : ∀ item ∈ a.taken, item.1 < a.queues.length

variable {start : Bytes} {s s' : Writer} {a : Drain Record} {index currentSize : ℕ}
  {t t' : LogInfoPerThread}

/-- The queue of a thread. -/
theorem Refines.queue (h : Refines start s a) (ht : s.mLogInfoAllThreads[index]? = some t) :
    ∃ queue, a.queues[index]? = some queue := by
  have hlt := Agents.lt_length ht
  rw [h.length] at hlt
  exact ⟨_, List.getElem?_eq_getElem hlt⟩

theorem Halfway.mono {a' : Drain Record} {half : Bytes} {dumper : DumperAt}
    (h : Halfway a half dumper) (hqueues : ∀ (index : ℕ) (r : Record) (queue : List Record),
      a.queues[index]? = some (r :: queue) → ∃ queue', a'.queues[index]? = some (r :: queue')) :
    Halfway a' half dumper := by
  cases dumper with
  | idle => exact h
  | visiting _ _ => exact h
  | second index currentSize =>
      obtain ⟨hlt, d, queue, hqueue, hhalf⟩ := h
      obtain ⟨queue', hqueue'⟩ := hqueues index _ queue hqueue
      exact ⟨hlt, d, queue', hqueue', hhalf⟩

/-- Nothing is popped of a queue that is not there. -/
theorem Halfway.popped_of_length_le {half : Bytes} {dumper : DumperAt} (h : Halfway a half dumper)
    (hle : a.queues.length ≤ index) : dumper.popped index = 0 := by
  cases dumper with
  | idle => rfl
  | visiting _ _ => rfl
  | second index' _ =>
      obtain ⟨-, d, queue, hqueue, -⟩ := h
      have hlt := Agents.lt_length hqueue
      exact if_neg (by omega)

/-- Nothing was pushed to a queue that is not there. -/
theorem Refines.pushed_eq_nil (h : Refines start s a) (hle : a.queues.length ≤ index) :
    a.pushed index = [] := by
  rw [Drain.pushed, Drain.ofQueue_eq_nil fun item hitem => ((h.within item hitem).trans_le hle).ne,
    List.getD_eq_getElem?_getD, List.getElem?_eq_none hle]
  rfl

/-- A thread registers. -/
theorem Refines.register (h : Refines start s a) :
    Refines start { s with mLogInfoAllThreads := s.mLogInfoAllThreads ++ [.fresh] }
      { a with queues := a.queues ++ [[]] } where
  length := by rw [List.length_append, List.length_append, h.length]; rfl
  threads index t queue ht hqueue := by
    rw [Drain.pushed_register]
    rw [Agents.getElem?_concat] at ht hqueue
    rw [h.length] at ht
    split at ht
    · rename_i hindex
      rw [if_pos hindex] at hqueue
      cases ht
      cases hqueue
      obtain ⟨half, hhalf, -⟩ := h.file
      dsimp only
      rw [hhalf.popped_of_length_le hindex.ge, h.pushed_eq_nil hindex.ge]
      exact ⟨rfl, LogInfoPerThread.holds_fresh⟩
    · rename_i hindex
      rw [if_neg hindex] at hqueue
      exact h.threads index t queue ht hqueue
  file := by
    obtain ⟨half, hhalf, hfile⟩ := h.file
    refine ⟨half, hhalf.mono fun index r queue hqueue => ⟨queue, ?_⟩, hfile⟩
    rw [Agents.getElem?_concat, if_neg (Agents.lt_length hqueue).ne, hqueue]
  pass := h.pass
  within item hitem := by
    rw [List.length_append]
    exact (h.within item hitem).trans_le (Nat.le_add_right _ _)

/-- A thread pushes a record, or the first cell of one. -/
theorem Refines.push (h : Refines start s a) (ht : s.mLogInfoAllThreads[index]? = some t)
    {queue : List Record} (hqueue : a.queues[index]? = some queue) {r : Record}
    (hpush : ∀ popped, t.Holds popped queue →
      t'.Holds popped (queue ++ [r]) ∧ t'.pushed = t.pushed ++ [r]) :
    Refines start { s with mLogInfoAllThreads := s.mLogInfoAllThreads.set index t' }
      { a with queues := a.queues.set index (queue ++ [r]) } where
  length := by rw [List.length_set, List.length_set, h.length]
  threads j t₁ queue₁ ht₁ hqueue₁ := by
    rw [Drain.pushed_push hqueue]
    rw [Agents.getElem?_set ht] at ht₁
    rw [Agents.getElem?_set hqueue] at hqueue₁
    split at ht₁
    · rename_i hj
      subst hj
      rw [if_pos rfl] at hqueue₁ ⊢
      cases ht₁
      cases hqueue₁
      obtain ⟨hpushed, hholds⟩ := h.threads j t queue ht hqueue
      obtain ⟨hholds', hpushed'⟩ := hpush _ hholds
      exact ⟨by rw [hpushed', hpushed], hholds'⟩
    · rename_i hj
      rw [if_neg hj] at hqueue₁ ⊢
      rw [List.append_nil]
      exact h.threads j t₁ queue₁ ht₁ hqueue₁
  file := by
    obtain ⟨half, hhalf, hfile⟩ := h.file
    refine ⟨half, hhalf.mono fun j r₁ rest hrest => ?_, hfile⟩
    rw [Agents.getElem?_set hqueue]
    split
    · rename_i hj
      subst hj
      rw [hqueue] at hrest
      cases hrest
      exact ⟨_, rfl⟩
    · exact ⟨rest, hrest⟩
  pass := h.pass
  within item hitem := by
    rw [List.length_set]
    exact h.within item hitem

/-- A thread pushes the second cell of a description. -/
theorem Refines.pushSecond (h : Refines start s a) (ht : s.mLogInfoAllThreads[index]? = some t)
    (hpush : ∀ popped queue, t.Holds popped queue →
      t'.Holds popped queue ∧ t'.pushed = t.pushed) :
    Refines start { s with mLogInfoAllThreads := s.mLogInfoAllThreads.set index t' } a where
  length := by rw [List.length_set, h.length]
  threads j t₁ queue₁ ht₁ hqueue₁ := by
    rw [Agents.getElem?_set ht] at ht₁
    split at ht₁
    · rename_i hj
      subst hj
      cases ht₁
      obtain ⟨hpushed, hholds⟩ := h.threads j t queue₁ ht hqueue₁
      obtain ⟨hholds', hpushed'⟩ := hpush _ _ hholds
      exact ⟨hpushed'.trans hpushed, hholds'⟩
    · exact h.threads j t₁ queue₁ ht₁ hqueue₁
  file := h.file
  pass := h.pass
  within := h.within

/-! ### The dumper

Its steps are those of the loop of `LogDump2File`: it looks at a queue, writes the first cell,
waits for the second one if that cell was a description, and goes on to the next queue.  While it
waits the drain stands still, and other threads may register and log. -/

/-- The dumper moves on. -/
theorem Refines.move (h : Refines start s a) {dumper : DumperAt}
    (hfrom : ∀ index, s.dumper.popped index = 0) (hto : ∀ index, dumper.popped index = 0) :
    Refines start { s with dumper := dumper } { a with pass := dumper.pass } where
  length := h.length
  threads index t queue ht hqueue := by
    have := h.threads index t queue ht hqueue
    rw [hfrom] at this
    dsimp only
    rw [hto]
    exact this
  file := by
    obtain ⟨half, hhalf, hfile⟩ := h.file
    refine ⟨half, ?_, hfile⟩
    have hnil : half = [] := by
      cases hdumper : s.dumper with
      | idle => rw [hdumper] at hhalf; exact hhalf
      | visiting _ _ => rw [hdumper] at hhalf; exact hhalf
      | second index _ =>
          have := hfrom index
          rw [hdumper, DumperAt.popped, if_pos rfl] at this
          cases this
    cases dumper with
    | idle => exact hnil
    | visiting _ _ => exact hnil
    | second index _ =>
        have := hto index
        rw [DumperAt.popped, if_pos rfl] at this
        cases this
  pass := rfl
  within := h.within

/-- **The dumper has written the last cell of a record.** -/
theorem Refines.take (h : Refines start s a) (ht : s.mLogInfoAllThreads[index]? = some t)
    {r : Record} {queue : List Record} (hqueue : a.queues[index]? = some (r :: queue))
    {cells : List Cell} {data : Bytes}
    (hholds : LogInfoPerThread.Holds { t with mLogBuffer := cells } 0 queue)
    (hother : ∀ j, j ≠ index → s.dumper.popped j = 0)
    (hfile : s.file ++ data = start ++ contents (a.taken.map Prod.snd) ++ r.bytes) :
    Refines start (s.popWrite index t cells data (.visiting (index + 1) currentSize))
      { a.take index (r :: queue) with pass := some (index + 1, currentSize) } where
  length := by
    rw [Writer.popWrite, Drain.take, List.length_set, List.length_set, h.length]
  threads j t₁ queue₁ ht₁ hqueue₁ := by
    have hpushed := Drain.pushed_take hqueue j
    rw [Writer.popWrite, Agents.getElem?_set ht] at ht₁
    rw [Drain.take, Agents.getElem?_set hqueue] at hqueue₁
    refine ⟨?_, ?_⟩
    · refine Eq.trans ?_ hpushed.symm
      split at ht₁
      · rename_i hj
        subst hj
        cases ht₁
        exact (h.threads j t _ ht hqueue).1
      · rename_i hj
        rw [if_neg hj] at hqueue₁
        exact (h.threads j t₁ queue₁ ht₁ hqueue₁).1
    · split at ht₁
      · rename_i hj
        subst hj
        rw [if_pos rfl] at hqueue₁
        cases ht₁
        cases hqueue₁
        exact hholds
      · rename_i hj
        rw [if_neg hj] at hqueue₁
        have := (h.threads j t₁ queue₁ ht₁ hqueue₁).2
        rwa [hother j hj] at this
  file := by
    refine ⟨[], rfl, ?_⟩
    rw [Writer.popWrite, hfile, Drain.take, List.map_append, contents_append, List.append_nil,
      List.append_assoc]
    simp
  pass := rfl
  within item hitem := by
    rw [Drain.take, List.length_set]
    rcases List.mem_append.mp hitem with hitem | hitem
    · exact h.within item hitem
    · rw [List.mem_singleton.mp hitem]
      exact Agents.lt_length hqueue

/-- **The dumper has written the first cell of a description.** -/
theorem Refines.first (h : Refines start s a) (hat : s.dumper = .visiting index currentSize)
    (hlt : index < currentSize) (ht : s.mLogInfoAllThreads[index]? = some t)
    {d : EventDescDump} {queue : List Record} (hqueue : a.queues[index]? = some (.desc d :: queue))
    {cells : List Cell}
    (hholds : LogInfoPerThread.Holds { t with mLogBuffer := cells } 1 (.desc d :: queue)) :
    Refines start
      (s.popWrite index t cells (d.bytes.take 288) (.second index currentSize)) a where
  length := by rw [Writer.popWrite, List.length_set, h.length]
  threads j t₁ queue₁ ht₁ hqueue₁ := by
    rw [Writer.popWrite, Agents.getElem?_set ht] at ht₁
    rw [Writer.popWrite, DumperAt.popped]
    split at ht₁
    · rename_i hj
      subst hj
      rw [hqueue] at hqueue₁
      cases ht₁
      cases hqueue₁
      rw [if_pos rfl]
      exact ⟨(h.threads j t _ ht hqueue).1, hholds⟩
    · rename_i hj
      rw [if_neg hj]
      have := h.threads j t₁ queue₁ ht₁ hqueue₁
      rwa [hat] at this
  file := by
    obtain ⟨half, hhalf, hfile⟩ := h.file
    rw [hat] at hhalf
    refine ⟨_, ⟨hlt, d, queue, hqueue, rfl⟩, ?_⟩
    rw [Writer.popWrite, hfile, show half = [] from hhalf, List.append_nil]
  pass := by
    rw [h.pass, hat]
    rfl
  within := h.within

/-- The drain moves on when the dumper does. -/
theorem Refines.consume (h : Refines start s a) (hpass : s.dumper.pass = some (index, currentSize))
    (hlt : index < currentSize) {queue : List Record} (hqueue : a.queues[index]? = some queue) :
    a.consume = some { a.take index queue with pass := some (index + 1, currentSize) } := by
  rw [Drain.consume, h.pass, hpass]
  dsimp only
  rw [if_pos hlt, hqueue]
  rfl

/-- **The dumper looks at a queue.** -/
theorem Refines.visit (h : Refines start s a) (hat : s.dumper = .visiting index currentSize)
    (hlt : index < currentSize) (ht : s.mLogInfoAllThreads[index]? = some t) :
    Refines start (s.visit index currentSize t) a ∨
      ∃ a', a.consume = some a' ∧ Refines start (s.visit index currentSize t) a' := by
  obtain ⟨queue, hqueue⟩ := h.queue ht
  have hconsume := h.consume (by rw [hat]; rfl) hlt hqueue
  have hfrom : ∀ j, s.dumper.popped j = 0 := fun j => by rw [hat]; rfl
  have hholds := (h.threads index t queue ht hqueue).2
  rw [hfrom] at hholds
  obtain ⟨half, hhalf, hfile⟩ := h.file
  rw [hat] at hhalf
  rw [show half = [] from hhalf, List.append_nil] at hfile
  rw [Writer.visit]
  split
  · rename_i hempty
    obtain rfl := hholds.eq_nil hempty
    exact .inr ⟨_, hconsume, h.move hfrom fun _ => rfl⟩
  · rename_i cell cells hcell
    obtain ⟨r, rest, rfl⟩ := hholds.exists_cons hcell
    cases r with
    | desc d =>
        obtain ⟨hpart, hpop⟩ := hholds.pop_first hcell
        obtain ⟨hbytes, htest, -⟩ := Cell.isEventDesc_desc hpart
        rw [if_pos htest, hbytes]
        exact .inl (h.first hat hlt ht hqueue hpop)
    | entry e =>
        obtain ⟨hpart, hpop⟩ := hholds.pop_entry hcell
        obtain ⟨htest, hbytes⟩ := Cell.isEventDesc_entry hpart
        rw [if_neg (by rw [htest]; decide), hbytes]
        exact .inr ⟨_, hconsume, h.take ht hqueue hpop (fun j _ => hfrom j) (by rw [hfile]; rfl)⟩

/-- **The dumper looks for the second cell.** -/
theorem Refines.finish (h : Refines start s a) (hat : s.dumper = .second index currentSize)
    (ht : s.mLogInfoAllThreads[index]? = some t) :
    Refines start (s.finish index currentSize t) a ∨
      ∃ a', a.consume = some a' ∧ Refines start (s.finish index currentSize t) a' := by
  obtain ⟨half, hhalf, hfile⟩ := h.file
  rw [hat] at hhalf
  obtain ⟨hlt, d, queue, hqueue, rfl⟩ := hhalf
  rw [Writer.finish]
  split
  · exact .inl h
  · rename_i cell cells hcell
    have hholds := (h.threads index t _ ht hqueue).2
    rw [hat, DumperAt.popped, if_pos rfl] at hholds
    obtain ⟨hpart, hpop⟩ := hholds.pop_second hcell
    refine .inr ⟨_, h.consume (by rw [hat]; rfl) hlt hqueue, h.take ht hqueue hpop ?_ ?_⟩
    · intro j hj
      rw [hat]
      exact if_neg hj
    · rw [Cell.take_second hpart, hfile, List.append_assoc, List.take_append_drop]
      rfl

/-- A step of the dumper. -/
theorem Refines.dumperStep (h : Refines start s a) (hstep : s.dumperStep = some s') :
    Refines start s' a ∨ ∃ a', a.consume = some a' ∧ Refines start s' a' := by
  rw [Writer.dumperStep] at hstep
  split at hstep
  · rename_i hat
    cases hstep
    refine .inr ⟨{ a with pass := some (0, a.queues.length) }, ?_, ?_⟩
    · rw [Drain.consume, h.pass, hat]
      rfl
    · rw [← h.length]
      exact h.move (fun j => by rw [hat]; rfl) fun _ => rfl
  · rename_i index currentSize hat
    split at hstep
    · rename_i hlt
      obtain ⟨t, ht, rfl⟩ := Option.map_eq_some_iff.mp hstep
      exact h.visit hat hlt ht
    · rename_i hge
      cases hstep
      refine .inr ⟨{ a with pass := none }, ?_, h.move (fun j => by rw [hat]; rfl) fun _ => rfl⟩
      rw [Drain.consume, h.pass, hat, DumperAt.pass]
      exact if_neg hge
  · rename_i index currentSize hat
    obtain ⟨t, ht, rfl⟩ := Option.map_eq_some_iff.mp hstep
    exact h.finish hat ht

/-! ### Runs -/

/-- What a step is for the drain, unless the drain stands still. -/
def WriterAction.toDrain : WriterAction → Drain.Action Record
  | .register => .register
  | .log index e _ => .push index (.entry e)
  | .dumpFirst index d _ => .push index (.desc d)
  | .dumpSecond _ _ | .dumper => .consumer

/-- A step of a thread. -/
theorem thread_eq_some {f : LogInfoPerThread → Option LogInfoPerThread}
    (h : s.thread index f = some s') : ∃ t t', s.mLogInfoAllThreads[index]? = some t ∧
      f t = some t' ∧
      s' = { s with mLogInfoAllThreads := s.mLogInfoAllThreads.set index t' } := by
  obtain ⟨t, ht, hmap⟩ := Option.bind_eq_some_iff.mp h
  obtain ⟨t', ht', rfl⟩ := Option.map_eq_some_iff.mp hmap
  exact ⟨t, t', ht, ht', rfl⟩

/-- **The writing side refines the drain.** -/
theorem refines_step (h : Refines start s a) (w : WriterAction)
    (hstep : nextWriter w s = some s') :
    Refines start s' a ∨ ∃ a', Drain.next w.toDrain a = some a' ∧ Refines start s' a' := by
  cases w with
  | register =>
      cases hstep
      exact .inr ⟨_, rfl, h.register⟩
  | log index e cell =>
      obtain ⟨t, t', ht, hlog, rfl⟩ := thread_eq_some hstep
      obtain ⟨queue, hqueue⟩ := h.queue ht
      refine .inr ⟨_, ?_, h.push ht hqueue fun _ hholds => hholds.log hlog⟩
      rw [WriterAction.toDrain, Drain.next, hqueue]
      rfl
  | dumpFirst index d cell =>
      obtain ⟨t, t', ht, hdump, rfl⟩ := thread_eq_some hstep
      obtain ⟨queue, hqueue⟩ := h.queue ht
      refine .inr ⟨_, ?_, h.push ht hqueue fun _ hholds => hholds.dumpFirst hdump⟩
      rw [WriterAction.toDrain, Drain.next, hqueue]
      rfl
  | dumpSecond index cell =>
      obtain ⟨t, t', ht, hdump, rfl⟩ := thread_eq_some hstep
      exact .inl (h.pushSecond ht fun _ _ hholds => hholds.dumpSecond hdump)
  | dumper => exact h.dumperStep hstep

theorem refines_start (endMark : EndMark) :
    Refines endMark.bytes (.start endMark) ⟨[], [], none⟩ where
  length := rfl
  threads index t queue ht hqueue := by cases ht
  file := ⟨[], rfl, by rw [List.append_nil]; exact (List.append_nil _).symm⟩
  pass := rfl
  within item hitem := by cases hitem

/-! ### What is in the file -/

/-- The dumper is not in the middle of a description. -/
def DumperAt.BetweenCalls : DumperAt → Prop
  | .second _ _ => False
  | .idle | .visiting _ _ => True

/-- **The file behind the end mark**: records of threads, each with the index of its
thread. -/
structure WellFormed (endMark : EndMark) (s : Writer) (records : List (ℕ × Record)) : Prop where
  /-- The file is a concatenation of complete records. -/
  file : s.file = endMark.bytes ++ contents (records.map Prod.snd)
  /-- The records of a thread are a prefix of its pushes, and the rest is queued. -/
  threads : ∀ index t, s.mLogInfoAllThreads[index]? = some t →
    ∃ rest, t.pushed = Drain.ofQueue index records ++ rest ∧ t.Holds 0 rest
  /-- There are no others. -/
  within : ∀ item ∈ records, item.1 < s.mLogInfoAllThreads.length

theorem Refines.wellFormed {endMark : EndMark} (h : Refines endMark.bytes s a)
    (hat : s.dumper.BetweenCalls) : WellFormed endMark s a.taken where
  file := by
    obtain ⟨half, hhalf, hfile⟩ := h.file
    cases hdumper : s.dumper with
    | second _ _ =>
        rw [hdumper] at hat
        exact hat.elim
    | idle =>
        rw [hdumper] at hhalf
        rw [hfile, show half = [] from hhalf, List.append_nil]
    | visiting _ _ =>
        rw [hdumper] at hhalf
        rw [hfile, show half = [] from hhalf, List.append_nil]
  threads index t ht := by
    obtain ⟨queue, hqueue⟩ := h.queue ht
    obtain ⟨hpushed, hholds⟩ := h.threads index t queue ht hqueue
    refine ⟨queue, ?_, ?_⟩
    · rw [hpushed, Drain.pushed, List.getD_eq_getElem?_getD, hqueue]
      rfl
    · cases hdumper : s.dumper with
      | second _ _ =>
          rw [hdumper] at hat
          exact hat.elim
      | idle => rwa [hdumper] at hholds
      | visiting _ _ => rwa [hdumper] at hholds
  within := by
    rw [h.length]
    exact h.within

/-- **The file is well formed between two calls**, for every number of threads, every
sequence of pushes and every interleaving. -/
theorem dump_wellFormed (endMark : EndMark) {s : Writer}
    (h : (writerSystem endMark).Reachable s) (hat : s.dumper.BetweenCalls) :
    ∃ records, WellFormed endMark s records := by
  obtain ⟨a, -, hrefines⟩ := StepSystem.ReachableWhile.simulation
    (.ofFun ⟨[], [], none⟩ Drain.next) (fun _ _ => True) (Refines endMark.bytes)
    (fun s hs => ⟨_, rfl, by rw [show s = .start endMark from hs]; exact refines_start endMark⟩)
    (fun s w s' a hrel _ hstep => (refines_step hrel w hstep).imp_right
      fun ⟨a', hnext, hrel'⟩ => ⟨w.toDrain, a', trivial, hnext, hrel'⟩) h
  exact ⟨a.taken, hrefines.wellFormed hat⟩

/-- A cell that was never used. -/
def blankCell : Cell := ⟨List.replicate 288 0, List.length_replicate⟩

/-- An end mark with blank members. -/
def blankMark : EndMark where
  mEventID := endEventID
  mFile := .replicate 128 0
  mFunc := .replicate 128 0
  mLevel := .replicate 32 0
  mLineNo := 0
  mFormat := .replicate 128 0
  mClassTag := .replicate 128 0
  lt := by decide
  flag := by decide
  id := rfl

/-- The dumper waits for the second cell of a description while another thread logs. -/
def splitRun : List WriterAction :=
  [.register, .register, .dumpFirst 0 blankMark.toEventDescDump blankCell, .dumper, .dumper,
    .log 1 ⟨1, 2, 3, [4], by decide, by decide, by decide⟩ blankCell, .dumper,
    .dumpSecond 0 blankCell, .dumper, .dumper]

set_option maxRecDepth 100000 in
theorem splitRun_eq : ((splitRun.foldlM (fun s w => nextWriter w s) (.start blankMark)).map
    fun s => (s.dumper, s.file.length)) = some (.visiting 2 2, 560 + 560 + 33) := by
  decide +kernel

/-- The file behind it. -/
theorem dump_wellFormed_split : ∃ s, (writerSystem blankMark).Reachable s ∧
    s.dumper = .visiting 2 2 ∧ s.file.length = 560 + 560 + 33 ∧
    ∃ records, WellFormed blankMark s records := by
  obtain ⟨s, hrun, hs⟩ := Option.map_eq_some_iff.mp splitRun_eq
  obtain ⟨hat, hlength⟩ := Prod.mk.inj hs
  have hreach : (writerSystem blankMark).Reachable s :=
    StepSystem.reachable_foldlM (.init rfl) splitRun hrun
  exact ⟨s, hreach, hat, hlength, dump_wellFormed blankMark hreach (by rw [hat]; trivial)⟩

end LinuxProgram.Binlog
