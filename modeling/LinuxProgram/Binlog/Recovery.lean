import LinuxProgram.Binlog.DumpRecords

/-!
# Logging in one process and recovery in another

The threads log, the dumper appends to the file, and another process has the file mapped
and calls `LogRead` from time to time.  A call may find a record half written.

* `Recovery`, `recoverySystem` — both processes, in any order of their steps.
* `recordsOf` — the records in the file, and the one that the dumper is writing.  The bytes of
  the file are the first ones of theirs, and a step of the logging process adds to them at
  the end only (`Refines.file_prefix`, `recordsOf_mono`).
* `Pending` — the reader stands between two of these records.  It is behind a description
  already when the dumper has written half of it.
* `recovery_endToEnd` — what was returned of each thread are the first entries that the
  thread has logged, and all of them when nothing is left.
-/

namespace LinuxProgram.Binlog

open Lib

/-- **Both processes**, and what the calls of `LogRead` have returned. -/
structure Recovery where
  writer : Writer
  reader : Reader
  returned : List LogItem

/-- The file, as the reader has it mapped. -/
def Writer.mapped (s : Writer) : Option File :=
  if h : s.file.length < 2 ^ 63 then some ⟨s.file, h⟩ else none

/-- Whose step it is. -/
inductive RecoveryAction
  | write (action : WriterAction)
  | read

/-- **The step function.** -/
def nextRecovery : RecoveryAction → Recovery → Option Recovery
  | .write action, s => (nextWriter action s.writer).map fun writer => { s with writer := writer }
  | .read, s => s.writer.mapped.map fun f =>
      let (item, reader) := read f s.reader
      { s with reader := reader, returned := s.returned ++ item.toList }

/-- **All interleavings** of both processes, which share the file and nothing else. -/
def recoverySystem (endMark : EndMark) : StepSystem Recovery RecoveryAction :=
  .ofFun ⟨.start endMark, .opened, []⟩ nextRecovery

/-- Nothing is queued, and nothing is half written. -/
structure Writer.Idle (s : Writer) : Prop where
  between : s.dumper.BetweenCalls
  empty : ∀ t ∈ s.mLogInfoAllThreads, t.mLogBuffer = []

/-- The entry that a record is. -/
def Record.logEntry : Record → Option LogEntry
  | .entry e => some e
  | .desc _ => none

/-- The entries among records. -/
def entriesOf (records : List (ℕ × Record)) : List (ℕ × LogEntry) :=
  records.filterMap fun r => r.2.logEntry.map (r.1, ·)

/-- What a thread has logged. -/
def LogInfoPerThread.logged (t : LogInfoPerThread) : List LogEntry :=
  t.pushed.filterMap Record.logEntry

/-- **Recovered entries**, each with the index of the thread that has logged it. -/
structure Recovered (s : Recovery) (entries : List (ℕ × LogEntry)) : Prop where
  /-- They are what was returned. -/
  returned : List.Forall₂ (fun item entry => ∃ seen, item = entry.2.item seen) s.returned entries
  /-- Those of a thread are the first ones it has logged, in order. -/
  threads : ∀ index t, s.writer.mLogInfoAllThreads[index]? = some t →
    Drain.ofQueue index entries <+: t.logged
  /-- There are no others. -/
  within : ∀ entry ∈ entries, entry.1 < s.writer.mLogInfoAllThreads.length
  /-- If nothing is left to write and another call returns null, they are all. -/
  all : s.writer.Idle → (∀ f, s.writer.mapped = some f → (read f s.reader).1 = none) →
    ∀ index t, s.writer.mLogInfoAllThreads[index]? = some t →
      Drain.ofQueue index entries = t.logged

/-! ### The records in the file -/

/-- The record of which the dumper has written a part. -/
def begun (a : Drain Record) : DumperAt → List Record
  | .second index _ => (a.queues.getD index []).take 1
  | _ => []

/-- **The records of the file**: the end mark, what the dumper has taken from the queues, and the
description that it has written one half of. -/
def recordsOf (endMark : EndMark) (a : Drain Record) (dumper : DumperAt) : List Record :=
  .desc endMark.toEventDescDump :: a.taken.map Prod.snd ++ begun a dumper

variable {endMark : EndMark} {s s' : Writer} {a a' : Drain Record}

theorem begun_eq_nil {dumper : DumperAt} (h : dumper.BetweenCalls) : begun a dumper = [] := by
  cases dumper with
  | second _ _ => exact h.elim
  | idle => rfl
  | visiting _ _ => rfl

theorem begun_second {index currentSize : ℕ} {d : EventDescDump} {queue : List Record}
    (h : a.queues[index]? = some (.desc d :: queue)) :
    begun a (.second index currentSize) = [.desc d] := by
  rw [begun, List.getD_eq_getElem?_getD, h]
  rfl

/-- **The file is a prefix** of these records, and at most half a description is missing. -/
theorem Refines.file_prefix (h : Refines endMark.bytes s a) :
    s.file <+: contents (recordsOf endMark a s.dumper) ∧
      (contents (recordsOf endMark a s.dumper)).length ≤ s.file.length + 272 := by
  obtain ⟨half, hhalf, hfile⟩ := h.file
  rw [recordsOf, List.cons_append, contents_cons, contents_append, ← List.append_assoc,
    show Record.bytes (.desc endMark.toEventDescDump) = endMark.bytes from rfl, hfile]
  cases hdumper : s.dumper with
  | idle =>
      rw [hdumper] at hhalf
      rw [show half = [] from hhalf, begun_eq_nil (show DumperAt.BetweenCalls .idle from trivial),
        contents_nil]
      exact ⟨List.prefix_rfl, Nat.le_add_right _ _⟩
  | visiting _ _ =>
      rw [hdumper] at hhalf
      rw [show half = [] from hhalf,
        begun_eq_nil (show DumperAt.BetweenCalls (.visiting _ _) from trivial), contents_nil]
      exact ⟨List.prefix_rfl, Nat.le_add_right _ _⟩
  | second index currentSize =>
      rw [hdumper] at hhalf
      obtain ⟨-, d, queue, hqueue, rfl⟩ := hhalf
      rw [begun_second hqueue, contents_cons, contents_nil, List.append_nil]
      refine ⟨List.prefix_append_right_inj _ |>.mpr (List.take_prefix _ _), ?_⟩
      have hlen : (Record.bytes (.desc d)).length = 560 := d.length_bytes
      have hhalf : (d.bytes.take 288).length = 288 := by
        rw [List.length_take, d.length_bytes]
        rfl
      simp only [List.length_append, hlen, hhalf]
      omega

/-- A record that was begun stays in front of its queue. -/
theorem begun_eq {half : Bytes} {dumper : DumperAt} (h : Halfway a half dumper)
    (hqueues : ∀ (index : ℕ) (r : Record) (queue : List Record),
      a.queues[index]? = some (r :: queue) → ∃ queue', a'.queues[index]? = some (r :: queue')) :
    begun a' dumper = begun a dumper := by
  cases dumper with
  | idle => rfl
  | visiting _ _ => rfl
  | second index _ =>
      obtain ⟨-, d, queue, hqueue, -⟩ := h
      obtain ⟨queue', hqueue'⟩ := hqueues index _ queue hqueue
      rw [begun_second hqueue, begun_second hqueue']

/-- What was taken stays taken. -/
theorem consume_taken (h : a.consume = some a') : a.taken <+: a'.taken := by
  rw [Drain.consume] at h
  split at h
  · cases h
    exact List.prefix_rfl
  · split at h
    · obtain ⟨queue, -, rfl⟩ := Option.map_eq_some_iff.mp h
      cases queue with
      | nil => exact List.prefix_rfl
      | cons r queue => exact List.prefix_append _ _
    · cases h
      exact List.prefix_rfl

/-- Records are added at the end. -/
theorem recordsOf_append (endMark : EndMark) {dumper dumper' : DumperAt} (more : List Record)
    (htaken : a'.taken.map Prod.snd = a.taken.map Prod.snd ++ begun a dumper ++ more) :
    recordsOf endMark a dumper <+: recordsOf endMark a' dumper' := by
  rw [recordsOf, recordsOf, htaken, ← List.cons_append, ← List.cons_append, List.append_assoc]
  exact List.prefix_append _ _

/-- **A step of a thread** leaves the records of the file. -/
theorem recordsOf_thread (h : Refines endMark.bytes s a) (htaken : a'.taken = a.taken)
    (hdumper : s'.dumper = s.dumper) (hqueues : ∀ (index : ℕ) (r : Record) (queue : List Record),
      a.queues[index]? = some (r :: queue) → ∃ queue', a'.queues[index]? = some (r :: queue')) :
    recordsOf endMark a s.dumper <+: recordsOf endMark a' s'.dumper := by
  obtain ⟨half, hhalf, -⟩ := h.file
  rw [recordsOf, recordsOf, htaken, hdumper, begun_eq hhalf hqueues]

/-- The front of a queue stays when something comes behind it. -/
theorem queues_push {index : ℕ} {queue : List Record} (hqueue : a.queues[index]? = some queue)
    (x : Record) (j : ℕ) (r : Record) (rest : List Record)
    (h : a.queues[j]? = some (r :: rest)) :
    ∃ rest', (a.queues.set index (queue ++ [x]))[j]? = some (r :: rest') := by
  rw [Agents.getElem?_set hqueue]
  split
  · rename_i hj
    rw [hj, hqueue] at h
    cases h
    exact ⟨_, rfl⟩
  · exact ⟨rest, h⟩

/-- **A step of the dumper** adds to them. -/
theorem recordsOf_dumper (h : Refines endMark.bytes s a) (hstep : s.dumperStep = some s') :
    ∃ a', Refines endMark.bytes s' a' ∧
      recordsOf endMark a s.dumper <+: recordsOf endMark a' s'.dumper := by
  by_cases hat : s.dumper.BetweenCalls
  · have htaken : ∀ a', a.taken <+: a'.taken →
        recordsOf endMark a s.dumper <+: recordsOf endMark a' s'.dumper := by
      rintro a' ⟨more, hmore⟩
      refine recordsOf_append endMark (more.map Prod.snd) ?_
      rw [begun_eq_nil hat, List.append_nil, ← List.map_append, hmore]
    rcases h.dumperStep hstep with h' | ⟨a', hconsume, h'⟩
    · exact ⟨a, h', htaken a List.prefix_rfl⟩
    · exact ⟨a', h', htaken a' (consume_taken hconsume)⟩
  · -- the dumper waits for the second cell of a description
    cases hdumper : s.dumper with
    | idle => exact absurd (by rw [hdumper]; trivial) hat
    | visiting _ _ => exact absurd (by rw [hdumper]; trivial) hat
    | second index currentSize =>
        rw [Writer.dumperStep, hdumper] at hstep
        obtain ⟨t, ht, rfl⟩ := Option.map_eq_some_iff.mp hstep
        obtain ⟨half, hhalf, hfile⟩ := h.file
        rw [hdumper] at hhalf
        obtain ⟨hlt, d, queue, hqueue, rfl⟩ := hhalf
        cases hbuffer : t.mLogBuffer with
        | nil =>
            refine ⟨a, ?_, ?_⟩
            · rw [Writer.finish, hbuffer]
              exact h
            · rw [Writer.finish, hbuffer, hdumper]
        | cons cell cells =>
            rcases h.finish hdumper ht with h' | ⟨a', hconsume, h'⟩
            · -- nothing was taken, but the file has grown
              obtain ⟨half', hhalf', hfile'⟩ := h'.file
              simp only [Writer.finish, hbuffer, Writer.popWrite] at hhalf' hfile'
              rw [show half' = [] from hhalf', hfile, List.append_assoc, List.append_nil] at hfile'
              have hnil := List.append_right_eq_self.mp hfile'
              have hlen := congrArg List.length (List.append_eq_nil_iff.mp hnil).1
              rw [List.length_take, d.length_bytes] at hlen
              cases hlen
            · refine ⟨a', h', recordsOf_append endMark [] ?_⟩
              rw [h.consume (by rw [hdumper]; rfl) hlt hqueue] at hconsume
              obtain rfl := Option.some.inj hconsume
              rw [begun_second hqueue, List.append_nil, Drain.take, List.map_append]
              rfl

/-- **A step of the logging process** adds records at the end only. -/
theorem recordsOf_mono (h : Refines endMark.bytes s a) (w : WriterAction)
    (hstep : nextWriter w s = some s') :
    ∃ a', Refines endMark.bytes s' a' ∧
      recordsOf endMark a s.dumper <+: recordsOf endMark a' s'.dumper := by
  cases w with
  | register =>
      cases hstep
      refine ⟨_, h.register, recordsOf_thread h rfl rfl fun index r queue hqueue => ?_⟩
      refine ⟨queue, ?_⟩
      rw [Agents.getElem?_concat, if_neg (Agents.lt_length hqueue).ne, hqueue]
  | log index e cell =>
      obtain ⟨t, t', ht, hlog, rfl⟩ := thread_eq_some hstep
      obtain ⟨queue, hqueue⟩ := h.queue ht
      exact ⟨_, h.push ht hqueue fun _ hholds => hholds.log hlog,
        recordsOf_thread h rfl rfl (queues_push hqueue _)⟩
  | dumpFirst index d cell =>
      obtain ⟨t, t', ht, hdump, rfl⟩ := thread_eq_some hstep
      obtain ⟨queue, hqueue⟩ := h.queue ht
      exact ⟨_, h.push ht hqueue fun _ hholds => hholds.dumpFirst hdump,
        recordsOf_thread h rfl rfl (queues_push hqueue _)⟩
  | dumpSecond index cell =>
      obtain ⟨t, t', ht, hdump, rfl⟩ := thread_eq_some hstep
      exact ⟨a, h.pushSecond ht fun _ _ hholds => hholds.dumpSecond hdump,
        recordsOf_thread h rfl rfl fun _ _ queue hqueue => ⟨queue, hqueue⟩⟩
  | dumper => exact recordsOf_dumper h hstep

/-! ### Where the reader stands

A reader that has reached the end of the records does not know of those to come, and a description
that is half written is one it may already have passed.  Its position is therefore one in the
records of the file with the half record included, and stays valid when these grow at the end. -/

theorem entriesFrom_append (offset : ℕ) (seen : List EventDescDump) (rs rs' : List Record) :
    entriesFrom offset seen (rs ++ rs') = entriesFrom offset seen rs ++
      entriesFrom (offset + (contents rs).length) (descs rs ++ seen) rs' := by
  induction rs generalizing offset seen with
  | nil => rfl
  | cons r rs ih =>
      rw [List.cons_append, contents_cons, List.length_append, ← Nat.add_assoc]
      cases r with
      | desc d =>
          rw [entriesFrom, entriesFrom, ih]
          simp [descs, Record.bytes]
      | entry e =>
          rw [entriesFrom, entriesFrom, ih]
          simp [descs, Record.bytes]

theorem descs_append (rs rs' : List Record) : descs (rs ++ rs') = descs rs' ++ descs rs := by
  rw [descs, List.reverse_append, List.filterMap_append]
  rfl

/-- **The log grows** behind the reader's back. -/
theorem Reading.append {log log' : Log} {reader : Reader} {items : List (ℕ × LogItem)}
    (h : Reading log reader items) (hpre : log.records <+: log'.records) :
    ∃ more, Reading log' reader (items ++ more) ∧ log'.entries = log.entries ++ more := by
  obtain ⟨pre, post, hrecords, hcur, hmap, rfl⟩ := h
  obtain ⟨ext, hext⟩ := hpre
  refine ⟨entriesFrom (contents log.records).length (descs log.records) ext,
    ⟨pre, post ++ ext, ?_, hcur, hmap, ?_⟩, ?_⟩
  · rw [← hext, hrecords, List.append_assoc]
  · rw [entriesFrom_append, hrecords, contents_append, List.length_append, descs_append]
  · rw [Log.entries, Log.entries, ← hext, entriesFrom_append, Nat.zero_add, List.append_nil]

/-- **The entries that are left** for the reader. -/
structure Pending (endMark : EndMark) (s : Recovery) (a : Drain Record) : Prop where
  refines : Refines endMark.bytes s.writer a
  reading : ∀ log : Log, log.records = recordsOf endMark a s.writer.dumper →
    ∃ items, Reading log s.reader items ∧
      s.returned ++ items.map Prod.snd = log.entries.map Prod.snd

variable {t t' : Recovery}

/-- The logging process goes on. -/
theorem Pending.write (h : Pending endMark t a) (w : WriterAction)
    (hstep : nextWriter w t.writer = some s') :
    ∃ a', Pending endMark { t with writer := s' } a' := by
  obtain ⟨a', hrefines, hpre⟩ := recordsOf_mono h.refines w hstep
  refine ⟨a', hrefines, fun log' hlog' => ?_⟩
  have hlen : (contents (recordsOf endMark a t.writer.dumper)).length < 2 ^ 63 := by
    refine lt_of_le_of_lt ?_ log'.fits
    obtain ⟨ext, hext⟩ := hpre
    rw [hlog', ← hext, contents_append, List.length_append]
    exact Nat.le_add_right _ _
  obtain ⟨items, hreading, hentries⟩ := h.reading ⟨_, hlen⟩ rfl
  obtain ⟨more, hreading', hmore⟩ := hreading.append
    (show recordsOf endMark a t.writer.dumper <+: log'.records by rw [hlog']; exact hpre)
  refine ⟨items ++ more, hreading', ?_⟩
  rw [hmore, List.map_append, List.map_append, ← hentries, List.append_assoc]

/-- The file that the reader has mapped. -/
theorem Pending.mapped (h : Pending endMark t a) {f : File} (hf : t.writer.mapped = some f)
    {log : Log} (hlog : log.records = recordsOf endMark a t.writer.dumper) :
    f = log.file t.writer.file.length := by
  rw [Writer.mapped] at hf
  split at hf
  · cases hf
    rw [Log.file]
    congr 1
    rw [hlog]
    exact List.prefix_iff_eq_take.mp h.refines.file_prefix.1
  · cases hf

/-- **A call of `LogRead`.** -/
theorem Pending.read (h : Pending endMark t a) {f : File} (hf : t.writer.mapped = some f) :
    Pending endMark { t with
      reader := (read f t.reader).2
      returned := t.returned ++ (read f t.reader).1.toList } a := by
  refine ⟨h.refines, fun log hlog => ?_⟩
  obtain ⟨items, hreading, hentries⟩ := h.reading log hlog
  obtain ⟨hitem, hreading'⟩ := read_spec log t.writer.file.length hreading
  rw [← h.mapped hf hlog] at hitem hreading'
  refine ⟨_, hreading', ?_⟩
  rw [hitem, List.append_assoc, ← hentries]
  congr 1
  cases items with
  | nil => rfl
  | cons item items =>
      rw [Polling.poll]
      split <;> rfl

theorem Pending.next (h : Pending endMark t a) (action : RecoveryAction)
    (hstep : nextRecovery action t = some t') : ∃ a', Pending endMark t' a' := by
  cases action with
  | write w =>
      obtain ⟨writer, hwriter, rfl⟩ := Option.map_eq_some_iff.mp hstep
      exact h.write w hwriter
  | read =>
      obtain ⟨f, hf, rfl⟩ := Option.map_eq_some_iff.mp hstep
      exact ⟨a, h.read hf⟩

theorem pending_start (endMark : EndMark) :
    Pending endMark ⟨.start endMark, .opened, []⟩ ⟨[], [], none⟩ :=
  ⟨refines_start endMark, fun log _ => ⟨log.entries, reading_opened log, rfl⟩⟩

/-! ### What was recovered

The entries of one thread are those of its own queue, in the order in which it logged them.  In
the file they are mixed with the entries of other threads and with descriptions, so the comparison
is made after picking those of one index. -/

theorem ofQueue_cons {α : Type*} (index j : ℕ) (x : α) (items : List (ℕ × α)) :
    Drain.ofQueue index ((j, x) :: items) =
      if j = index then x :: Drain.ofQueue index items else Drain.ofQueue index items := by
  rw [Drain.ofQueue, List.filter_cons]
  by_cases hj : j = index
  · rw [if_pos (decide_eq_true hj), if_pos hj]
    rfl
  · rw [if_neg (by simpa using hj), if_neg hj]
    rfl

theorem ofQueue_entriesOf (index : ℕ) (records : List (ℕ × Record)) :
    Drain.ofQueue index (entriesOf records) =
      (Drain.ofQueue index records).filterMap Record.logEntry := by
  induction records with
  | nil => rfl
  | cons r records ih =>
      obtain ⟨j, r⟩ := r
      rw [ofQueue_cons]
      cases r with
      | desc d =>
          refine Eq.trans ih ?_
          split
          · rfl
          · rfl
      | entry e =>
          refine (ofQueue_cons index j e (entriesOf records)).trans ?_
          split
          · exact congrArg (e :: ·) ih
          · exact ih

theorem ofQueue_mono {α : Type*} {items items' : List (ℕ × α)} (h : items <+: items')
    (index : ℕ) : Drain.ofQueue index items <+: Drain.ofQueue index items' :=
  (h.filter _).map _

/-- The entries of records, as a reader sees them. -/
theorem forall₂_entriesFrom (offset : ℕ) (seen : List EventDescDump) (records : List (ℕ × Record)) :
    List.Forall₂ (fun item entry => ∃ seen, item = entry.2.item seen)
      ((entriesFrom offset seen (records.map Prod.snd)).map Prod.snd) (entriesOf records) := by
  induction records generalizing offset seen with
  | nil => exact .nil
  | cons r records ih =>
      obtain ⟨j, r⟩ := r
      cases r with
      | desc d => exact ih _ _
      | entry e => exact .cons ⟨seen, rfl⟩ (ih _ _)

/-- A record that was begun is no entry. -/
theorem Refines.entriesFrom_begun (h : Refines endMark.bytes s a) (offset : ℕ)
    (seen : List EventDescDump) : entriesFrom offset seen (begun a s.dumper) = [] := by
  obtain ⟨half, hhalf, -⟩ := h.file
  cases hdumper : s.dumper with
  | idle => rfl
  | visiting _ _ => rfl
  | second index currentSize =>
      rw [hdumper] at hhalf
      obtain ⟨-, d, queue, hqueue, -⟩ := hhalf
      rw [begun_second hqueue]
      rfl

/-- **The entries of the file** are those that the dumper has taken. -/
theorem Refines.entries (h : Refines endMark.bytes s a) {log : Log}
    (hlog : log.records = recordsOf endMark a s.dumper) :
    List.Forall₂ (fun item entry => ∃ seen, item = entry.2.item seen)
      (log.entries.map Prod.snd) (entriesOf a.taken) := by
  have hentries : log.entries = entriesFrom (0 + endMark.bytes.length)
      [endMark.toEventDescDump] (a.taken.map Prod.snd) := by
    rw [Log.entries, hlog, recordsOf, List.cons_append, entriesFrom, entriesFrom_append,
      h.entriesFrom_begun, List.append_nil]
  rw [hentries]
  exact forall₂_entriesFrom _ _ _

/-- When nothing is half written, the file is complete. -/
theorem Refines.file_complete (h : Refines endMark.bytes s a) (hat : s.dumper.BetweenCalls) :
    s.file = contents (recordsOf endMark a s.dumper) := by
  rw [(h.wellFormed hat).file, recordsOf, begun_eq_nil hat, List.append_nil, contents_cons]
  rfl

/-- A reader that a call gives nothing has all entries. -/
theorem Pending.items_eq_nil (h : Pending endMark t a) (hat : t.writer.dumper.BetweenCalls)
    {log : Log} (hlog : log.records = recordsOf endMark a t.writer.dumper)
    {items : List (ℕ × LogItem)} (hreading : Reading log t.reader items)
    (hnull : ∀ f, t.writer.mapped = some f → (Binlog.read f t.reader).1 = none) : items = [] := by
  have hfits : t.writer.file.length < 2 ^ 63 := by
    rw [h.refines.file_complete hat, ← hlog]
    exact log.fits
  have hmapped : t.writer.mapped = some ⟨t.writer.file, hfits⟩ := dif_pos hfits
  have hpoll := (read_spec log t.writer.file.length hreading).1
  rw [← h.mapped hmapped hlog, hnull _ hmapped] at hpoll
  have hend := Polling.poll_null_iff.mp hpoll.symm
  obtain ⟨pre, post, hrecords, -, -, rfl⟩ := hreading
  rw [← List.head?_eq_none_iff]
  refine Option.eq_none_iff_forall_not_mem.mpr fun item hitem => ?_
  have hlt := hend item hitem
  have hle := (entriesFrom_end (List.mem_of_mem_head? hitem)).2
  rw [h.refines.file_complete hat, ← hlog, hrecords, contents_append, List.length_append] at hlt
  omega

theorem Pending.recovered (h : Pending endMark t a)
    (hfits : t.writer.file.length + 272 < 2 ^ 63) :
    Recovered t ((entriesOf a.taken).take t.returned.length) := by
  have hlen := h.refines.file_prefix.2.trans_lt hfits
  obtain ⟨items, hreading, hentries⟩ := h.reading ⟨_, hlen⟩ rfl
  have hall := h.refines.entries (show (Log.mk _ hlen).records = _ from rfl)
  have hpre : (entriesOf a.taken).take t.returned.length <+: entriesOf a.taken :=
    List.take_prefix _ _
  refine ⟨?_, fun index thread hthread => ?_, fun entry hentry => ?_,
    fun hidle hnull index thread hthread => ?_⟩
  · have htake := List.forall₂_take t.returned.length hall
    rwa [← hentries, List.take_left] at htake
  · obtain ⟨queue, hqueue⟩ := h.refines.queue hthread
    obtain ⟨hpushed, -⟩ := h.refines.threads index thread queue hthread hqueue
    refine (ofQueue_mono hpre index).trans ?_
    rw [ofQueue_entriesOf, LogInfoPerThread.logged, hpushed, Drain.pushed, List.filterMap_append]
    exact List.prefix_append _ _
  · obtain ⟨r, hr, hsome⟩ := List.mem_filterMap.mp (hpre.subset hentry)
    obtain ⟨e, -, rfl⟩ := Option.map_eq_some_iff.mp hsome
    rw [h.refines.length]
    exact h.refines.within r hr
  · obtain ⟨queue, hqueue⟩ := h.refines.queue hthread
    obtain ⟨hpushed, hholds⟩ := h.refines.threads index thread queue hthread hqueue
    have hpopped : t.writer.dumper.popped index = 0 := by
      have hbetween := hidle.between
      cases hdumper : t.writer.dumper with
      | second _ _ =>
          rw [hdumper] at hbetween
          exact hbetween.elim
      | idle => rfl
      | visiting _ _ => rfl
    rw [hpopped] at hholds
    have hnil := hholds.eq_nil (hidle.empty thread (List.mem_of_getElem? hthread))
    rw [h.items_eq_nil hidle.between rfl hreading hnull, List.map_nil, List.append_nil] at hentries
    rw [hentries, hall.length_eq, List.take_length, ofQueue_entriesOf, LogInfoPerThread.logged,
      hpushed, Drain.pushed, List.getD_eq_getElem?_getD, hqueue, Option.getD_some, hnil,
      List.append_nil]

/-- **From the threads to the recovery**: in every interleaving the calls of `LogRead` return
of each thread the first entries it has logged, and nothing else.

Three things are taken for granted.  The queue of a thread is first in, first out; `write2File`
appends the whole buffer it is called with, as it does when no `write` is short (`write2File_iff`
has the others); and the file, with the 272 bytes that the dumper may still owe of a description,
stays below `2 ^ 63`, where `off_t` ends. -/
theorem recovery_endToEnd (endMark : EndMark) {s : Recovery}
    (h : (recoverySystem endMark).Reachable s)
    (hfits : s.writer.file.length + 272 < 2 ^ 63) : ∃ entries, Recovered s entries := by
  have hpending : ∃ a, Pending endMark s a :=
    StepSystem.ReachableWhile.invariant (I := fun s => ∃ a, Pending endMark s a)
      (fun s hs => ⟨⟨[], [], none⟩, by rw [show s = _ from hs]; exact pending_start endMark⟩)
      (fun s action s' ⟨_, hpending⟩ _ hstep => hpending.next action hstep) h
  obtain ⟨a, ha⟩ := hpending
  exact ⟨_, ha.recovered hfits⟩

/-- `LogRead` is called while a description is half written, and again at the end. -/
def splitReads : List RecoveryAction :=
  (splitRun.take 7).map .write ++ .read :: (splitRun.drop 7).map .write ++ [.read]

set_option maxRecDepth 100000 in
theorem splitReads_eq : ((splitReads.foldlM (fun s a => nextRecovery a s)
    ⟨.start blankMark, .opened, []⟩).map fun s => s.writer.file.length)
      = some (560 + 560 + 33) := by
  decide +kernel

theorem recovery_endToEnd_split : ∃ s, (recoverySystem blankMark).Reachable s ∧
    s.writer.file.length = 560 + 560 + 33 ∧ ∃ entries, Recovered s entries := by
  obtain ⟨s, hrun, hlength⟩ := Option.map_eq_some_iff.mp splitReads_eq
  have hreach : (recoverySystem blankMark).Reachable s :=
    StepSystem.reachable_foldlM (.init rfl) splitReads hrun
  exact ⟨s, hreach, hlength, recovery_endToEnd blankMark hreach (by rw [hlength]; norm_num)⟩

end LinuxProgram.Binlog
