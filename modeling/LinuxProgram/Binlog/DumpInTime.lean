import LinuxProgram.Binlog.DumpOrder

/-!
# Entries that are logged in time

From the drain of records back to the cells: what `InTime` counts in the queues is
what the invariant of the order needs.

* `descsIn_eq` — the descriptions at the front of a queue, read off its cells.
* `Logging` — the writing side behind `InitWrite` stands for a drain in which the
  order is kept.
* `entries_interpretable` — every entry can be interpreted in every run whose
  entries are pushed in time.
* `overtaken` — with two events and a second thread an entry can overtake.
-/

namespace LinuxProgram.Binlog

open Lib

variable {S : Setup} {written remaining : List EventDesc} {start : Bytes} {s s' : Writer}
  {a : Drain Record} {t : LogInfoPerThread} {index : ℕ}

/-! ### Cells and records -/

theorem cellsOf_entries (entries : List LogEntry) :
    cellsOf (entries.map .entry) = entries.map LogEntry.bytes := by
  induction entries with
  | nil => rfl
  | cons e entries ih =>
      rw [List.map_cons, cellsOf_entry, ih, List.map_cons]

/-- **The descriptions at the front of a queue.** -/
theorem descsIn_eq {entries : List LogEntry} {cells : List Cell}
    (h : Starts (cellsOf (ownQueue remaining entries)) cells) :
    descsIn cells = remaining.map EventDesc.mEventID := by
  induction remaining generalizing cells with
  | nil =>
      rw [ownQueue, List.map_nil, List.nil_append, cellsOf_entries] at h
      cases cells with
      | nil => rfl
      | cons cell cells =>
          cases entries with
          | nil => cases h
          | cons e entries =>
              rw [List.map_cons] at h
              cases h with
              | cons hpart _ =>
                  have htest := (Cell.isEventDesc_entry hpart).1
                  cases cells with
                  | nil => rfl
                  | cons _ _ => exact if_neg (by rw [htest]; decide)
  | cons event remaining ih =>
      rw [ownQueue, List.map_cons, List.cons_append, cellsOf_desc] at h
      cases h with
      | cons hfirst hrest =>
          cases hrest with
          | cons hsecond hrest =>
              obtain ⟨-, htest, hindex⟩ := Cell.isEventDesc_desc hfirst
              rw [descsIn, if_pos htest, hindex, dump_index, ih hrest, List.map_cons]

/-! ### Behind InitWrite

The condition `InTime` counts cells, of which the dumper may have written one half of a
description, while the invariant of the order counts records.  In the middle of a description both
counts are off by the same one, which is why they may be compared. -/

/-- No thread is between the two cells of a description. -/
def AllComplete (threads : List LogInfoPerThread) : Prop :=
  ∀ (index : ℕ) (t : LogInfoPerThread), threads[index]? = some t → t.unfinished = none

/-- **The writing side behind InitWrite** stands for a drain in which the order is
kept, and nobody pushes descriptions any more. -/
structure Logging (S : Setup) (s : Writer) (a : Drain Record) : Prop where
  refines : Refines S.endMark.bytes s a
  complete : AllComplete s.mLogInfoAllThreads
  ordered : ∃ written remaining, Ordered S written remaining a

theorem starts_pushEvents (cell : ℕ → Cell) (n : ℕ) (events : List EventDesc) :
    Starts (cellsOf (events.map fun event => .desc event.dump)) (pushEvents cell n events) := by
  induction events generalizing n with
  | nil => exact .nil
  | cons event events ih =>
      refine .cons (Cell.memcpy_prefix _ (List.length_take_le _ _)) (.cons ?_ (ih _))
      refine Cell.memcpy_prefix _ ?_
      rw [List.length_drop, event.dump.length_bytes]
      decide

theorem logging_initWrite (S : Setup) : Logging S (initWrite S) (initDrain S) where
  refines := {
    length := rfl
    threads := by
      intro index t queue ht hqueue
      obtain rfl : index = 0 := Nat.lt_one_iff.mp (Agents.lt_length ht)
      cases ht
      cases hqueue
      refine ⟨rfl, ⟨[], _, rfl, starts_pushEvents S.cell 0 S.events, ?_⟩, fun d hd => by cases hd⟩
      exact (List.append_nil _).symm
    file := ⟨[], rfl, by rw [List.append_nil]; exact (List.append_nil _).symm⟩
    pass := rfl
    within := fun item hitem => by cases hitem }
  complete index t ht := by
    obtain rfl : index = 0 := Nat.lt_one_iff.mp (Agents.lt_length ht)
    cases ht
    rfl
  ordered := ⟨_, _, ordered_initDrain S⟩

/-- Only the queue of the initialising thread has descriptions. -/
theorem Ordered.own_of_desc (h : Ordered S written remaining a) {d : EventDescDump}
    {queue : List Record} (hqueue : a.queues[index]? = some (.desc d :: queue)) :
    index = 0 ∧ ∃ event rest, remaining = event :: rest ∧ d = event.dump := by
  rcases Nat.eq_zero_or_pos index with rfl | hpos
  · refine ⟨rfl, ?_⟩
    obtain ⟨entries, hown, -⟩ := h.own
    rw [hqueue] at hown
    obtain hown := Option.some.inj hown
    cases remaining with
    | nil => cases entries <;> cases hown
    | cons event rest => exact ⟨event, rest, rfl, Record.desc.inj (List.cons.inj hown).1⟩
  · obtain ⟨entries, hentries, -⟩ := h.others index _ hpos hqueue
    cases entries <;> cases hentries

/-- The cells of a thread are those of the records in its queue. -/
theorem Logging.starts (h : Logging S s a) (ht : s.mLogInfoAllThreads[index]? = some t)
    {queue : List Record} (hqueue : a.queues[index]? = some queue) :
    ∃ front parts, front.length = s.dumper.popped index ∧ Starts parts t.mLogBuffer ∧
      cellsOf queue = front ++ parts := by
  obtain ⟨front, parts, hfront, hstarts, hcells⟩ :=
    (h.refines.threads index t queue ht hqueue).2.cells
  rw [h.complete index t ht, Option.toList_none, List.map_nil, List.append_nil] at hcells
  exact ⟨front, parts, hfront, hstarts, hcells⟩

/-- The dumper is in the middle of the first description of queue 0, if of any. -/
theorem Logging.second (h : Logging S s a) (ho : Ordered S written remaining a)
    {currentSize : ℕ} (hat : s.dumper = .second index currentSize) :
    index = 0 ∧ ∃ event rest, remaining = event :: rest := by
  obtain ⟨half, hhalf, -⟩ := h.refines.file
  rw [hat] at hhalf
  obtain ⟨-, d, queue, hqueue, -⟩ := hhalf
  obtain ⟨hindex, event, rest, hrest, -⟩ := ho.own_of_desc hqueue
  exact ⟨hindex, event, rest, hrest⟩

/-- **The descriptions that are left** are those in the queue and one the dumper is in
the middle of. -/
theorem Logging.rank_le (h : Logging S s a) (ho : Ordered S written remaining a) (eventID : ℕ) :
    rank eventID (remaining.map EventDesc.mEventID)
      ≤ rank eventID s.queuedDescs + s.dumper.popped 0 := by
  obtain ⟨entries, hown, -⟩ := ho.own
  have hlt := Agents.lt_length hown
  rw [← h.refines.length] at hlt
  have ht := List.getElem?_eq_getElem hlt
  obtain ⟨front, parts, hfront, hstarts, hcells⟩ := h.starts ht hown
  rw [Writer.queuedDescs, ht, Option.elim_some]
  rcases Nat.eq_zero_or_pos (s.dumper.popped 0) with hzero | hpos
  · rw [hzero] at hfront ⊢
    obtain rfl := List.eq_nil_of_length_eq_zero hfront
    rw [List.nil_append] at hcells
    rw [← hcells] at hstarts
    rw [List.drop_zero, descsIn_eq hstarts, Nat.add_zero]
  · cases hat : s.dumper with
    | idle => rw [hat] at hpos; cases hpos
    | visiting _ _ => rw [hat] at hpos; cases hpos
    | second index currentSize =>
        obtain ⟨rfl, event, rest, rfl⟩ := h.second ho hat
        have hone : (DumperAt.second 0 currentSize).popped 0 = 1 := rfl
        rw [hat, hone] at hfront
        obtain ⟨first, rfl⟩ := List.length_eq_one_iff.mp hfront
        rw [ownQueue, List.map_cons, List.cons_append, cellsOf_desc] at hcells
        obtain ⟨-, rfl⟩ := List.cons.inj hcells
        cases hbuffer : s.mLogInfoAllThreads[0].mLogBuffer with
        | nil => rw [hbuffer] at hstarts; cases hstarts
        | cons cell cells =>
            rw [hbuffer] at hstarts
            cases hstarts with
            | cons _ hrest =>
                rw [hone, List.drop_one, List.tail_cons, descsIn_eq hrest, List.map_cons]
                exact rank_cons_le

/-- The visits that are ahead, for the dumper and for the drain. -/
theorem Logging.ahead_eq (h : Logging S s a) (ho : Ordered S written remaining a) (index : ℕ) :
    s.dumper.ahead index + s.dumper.popped 0 = Drain.ahead a.pass index := by
  rw [h.refines.pass]
  cases hat : s.dumper with
  | idle => rfl
  | visiting _ _ => rfl
  | second index' currentSize =>
      obtain ⟨rfl, -⟩ := h.second ho hat
      rw [DumperAt.popped, if_pos rfl, DumperAt.ahead, DumperAt.pass, Drain.ahead, if_pos rfl,
        Nat.add_comm]

/-- **What is in time for the cells is in time for the records.** -/
theorem Logging.inTime (h : Logging S s a) (ho : Ordered S written remaining a) {e : LogEntry}
    {cell : Cell} (ht : s.mLogInfoAllThreads[index]? = some t)
    (htime : InTime s (.log index e cell)) : DrainInTime remaining a index e := by
  refine htime.imp_right fun hrank entries hqueue => ?_
  obtain ⟨front, parts, hfront, hstarts, hcells⟩ := h.starts ht hqueue
  have hlength : t.mLogBuffer.length ≤ entries.length := by
    have := congrArg List.length hcells
    rw [cellsOf_entries, List.length_map, List.length_append] at this
    rw [← hstarts.length_eq]
    omega
  have hqueued := h.rank_le ho e.mEventID
  have hahead := h.ahead_eq ho index
  rw [Writer.queueLength, ht, Option.elim_some] at hrank
  omega

/-! ### Steps and runs -/

theorem AllComplete.set {threads : List LogInfoPerThread} (h : AllComplete threads)
    {t t' : LogInfoPerThread} (ht : threads[index]? = some t) (ht' : t'.unfinished = none) :
    AllComplete (threads.set index t') := by
  intro j t₁ ht₁
  rw [Agents.getElem?_set ht] at ht₁
  split at ht₁
  · cases ht₁
    exact ht'
  · exact h j t₁ ht₁

/-- The dumper takes cells only. -/
theorem AllComplete.dumperStep (h : AllComplete s.mLogInfoAllThreads)
    (hstep : s.dumperStep = some s') : AllComplete s'.mLogInfoAllThreads := by
  rw [Writer.dumperStep] at hstep
  split at hstep
  · cases hstep
    exact h
  · split at hstep
    · obtain ⟨t, ht, rfl⟩ := Option.map_eq_some_iff.mp hstep
      rw [Writer.visit]
      split
      · exact h
      · split
        · exact h.set ht (h _ t ht)
        · exact h.set ht (h _ t ht)
    · cases hstep
      exact h
  · obtain ⟨t, ht, rfl⟩ := Option.map_eq_some_iff.mp hstep
    rw [Writer.finish]
    split
    · exact h
    · exact h.set ht (h _ t ht)

/-- Threads log whole entries. -/
theorem AllComplete.step (h : AllComplete s.mLogInfoAllThreads) {w : WriterAction}
    (hlogs : S.Logs w) (hstep : nextWriter w s = some s') :
    AllComplete s'.mLogInfoAllThreads := by
  cases w with
  | register =>
      cases hstep
      intro index t ht
      rw [Agents.getElem?_concat] at ht
      split at ht
      · cases ht
        rfl
      · exact h index t ht
  | log index e cell =>
      obtain ⟨t, t', ht, hlog, rfl⟩ := thread_eq_some hstep
      refine h.set ht ?_
      rw [LogInfoPerThread.log] at hlog
      split at hlog
      · cases hlog
        exact h index t ht
      · cases hlog
  | dumpFirst index d cell => exact hlogs.elim
  | dumpSecond index cell => exact hlogs.elim
  | dumper => exact h.dumperStep hstep

/-- **Every step in time keeps the order.** -/
theorem Logging.step (h : Logging S s a) {w : WriterAction} (hlogs : S.Logs w)
    (htime : InTime s w) (hstep : nextWriter w s = some s') : ∃ a', Logging S s' a' := by
  have hcomplete := h.complete.step hlogs hstep
  obtain ⟨written, remaining, ho⟩ := h.ordered
  rcases refines_step h.refines w hstep with hrefines | ⟨a', hnext, hrefines⟩
  · exact ⟨a, hrefines, hcomplete, _, _, ho⟩
  · refine ⟨a', hrefines, hcomplete, ?_⟩
    cases w with
    | register =>
        cases hnext
        exact ⟨_, _, ho.register⟩
    | log index e cell =>
        obtain ⟨t, t', ht, -, -⟩ := thread_eq_some hstep
        obtain ⟨queue, hqueue, rfl⟩ := Option.map_eq_some_iff.mp hnext
        exact ⟨_, _, ho.log hqueue hlogs (h.inTime ho ht htime)⟩
    | dumpFirst index d cell => exact hlogs.elim
    | dumpSecond index cell => exact hlogs.elim
    | dumper => exact ho.consume hnext

/-- What is in the file of a state in which the order is kept. -/
theorem Logging.interpretable (h : Logging S s a) : ∃ records, s.file <+: contents records ∧
    (s.dumper.BetweenCalls → s.file = contents records) ∧ Interpretable S records := by
  obtain ⟨written, remaining, ho⟩ := h.ordered
  obtain ⟨half, hhalf, hfile⟩ := h.refines.file
  have hrecords : contents (S.records a.taken)
      = S.endMark.bytes ++ contents (a.taken.map Prod.snd) := rfl
  rw [← hrecords] at hfile
  cases hat : s.dumper with
  | second index currentSize =>
      rw [hat] at hhalf
      obtain ⟨-, d, queue, hqueue, rfl⟩ := hhalf
      obtain ⟨-, event, rest, rfl, rfl⟩ := ho.own_of_desc hqueue
      refine ⟨S.records a.taken ++ [.desc event.dump], ?_, fun hbetween => hbetween.elim,
        interpretable_of_described ?_ (ho.described.append fun e he => by cases he)⟩
      · rw [hfile, contents_append, List.prefix_append_right_inj, contents_cons, contents_nil,
          List.append_nil]
        exact List.take_prefix _ _
      · intro d hd
        rcases List.mem_append.mp hd with hd | hd
        · exact ho.only d hd
        · refine .inr ⟨event, ?_, Record.desc.inj (List.mem_singleton.mp hd)⟩
          rw [ho.events]
          exact List.mem_append_right _ (.head _)
  | idle =>
      rw [hat] at hhalf
      rw [show half = [] from hhalf, List.append_nil] at hfile
      exact ⟨_, by rw [hfile], fun _ => hfile, interpretable_of_described ho.only ho.described⟩
  | visiting _ _ =>
      rw [hat] at hhalf
      rw [show half = [] from hhalf, List.append_nil] at hfile
      exact ⟨_, by rw [hfile], fun _ => hfile, interpretable_of_described ho.only ho.described⟩

/-- **Every entry can be interpreted in every run whose entries are logged in time**: the
description of its event is in front of it in the file, whatever other threads do.  By the invariant
what is queued for an entry to wait for gets fewer in time; a single entry that is logged too early
overtakes its description (`overtaken`). -/
theorem entries_interpretable (S : Setup) {s : Writer}
    (h : (loggingSystem S).ReachableWhile InTime s) : ∃ records, s.file <+: contents records ∧
      (s.dumper.BetweenCalls → s.file = contents records) ∧ Interpretable S records := by
  have hlogging : ∃ a, Logging S s a := by
    refine StepSystem.ReachableWhile.invariant (I := fun s => ∃ a, Logging S s a) ?_ ?_ h
    · rintro s rfl
      exact ⟨_, logging_initWrite S⟩
    · rintro s w s' ⟨a, ha⟩ htime ⟨hlogs, hstep⟩
      exact ha.step hlogs htime hstep
  obtain ⟨a, ha⟩ := hlogging
  exact ha.interpretable

/-- An event with blank members. -/
def blankEvent (id : ℕ) (h : id < 2 ^ 63 - 1) : EventDesc where
  mEventID := id
  mFile := .replicate 128 0
  mFunc := .replicate 128 0
  mLevel := .replicate 32 0
  mLineNo := 0
  mFormat := .replicate 128 0
  mClassTag := .replicate 128 0
  lt := h

/-- Two events. -/
def twoEvents : Setup where
  events := [blankEvent 1 (by decide), blankEvent 2 (by decide)]
  nodup := by decide
  endMark := blankMark
  cell := fun _ => blankCell

/-- A second thread logs an event, and the dumper makes a pass. -/
def twoThreads (id : ℕ) (h : id < 2 ^ 63) : List WriterAction :=
  [.register, .log 1 ⟨id, 0, 0, [], h, by decide, by decide⟩ blankCell,
    .dumper, .dumper, .dumper, .dumper]

/-- A step that is in time. -/
def nextInTime (w : WriterAction) (s : Writer) : Option Writer :=
  if InTime s w ∧ twoEvents.Logs w then nextWriter w s else none

set_option maxRecDepth 100000 in
theorem twoThreads_first : ((twoThreads 1 (by decide)).foldlM (fun s w => nextInTime w s)
    (initWrite twoEvents)).map (fun s => s.file.length) = some (560 + 560 + 32) := by
  decide +kernel

/-- The entry of the first event comes behind its description. -/
theorem entries_interpretable_first : ∃ s, (loggingSystem twoEvents).ReachableWhile InTime s ∧
    s.file.length = 560 + 560 + 32 ∧ ∃ records, s.file <+: contents records ∧
      (s.dumper.BetweenCalls → s.file = contents records) ∧ Interpretable twoEvents records := by
  obtain ⟨s, hrun, hlength⟩ := Option.map_eq_some_iff.mp twoThreads_first
  have hreach : (loggingSystem twoEvents).ReachableWhile InTime s := by
    refine StepSystem.ReachableWhile.foldlM (.init rfl) _ (fun w _ t t' hnext => ?_) hrun
    rw [nextInTime] at hnext
    split at hnext
    · rename_i hok
      exact ⟨hok.1, hok.2, hnext⟩
    · cases hnext
  exact ⟨s, hreach, hlength, entries_interpretable twoEvents hreach⟩

/-- The class tags `LogRead` finds at the start of a file. -/
def firstTag (s : Writer) : Option (Option Bytes) :=
  if h : s.file.length < 2 ^ 63 then (read ⟨s.file, h⟩ .opened).1.map LogItem.curTag else none

set_option maxRecDepth 100000 in
theorem twoThreads_second : ((twoThreads 2 (by decide)).foldlM (fun s w => nextWriter w s)
    (initWrite twoEvents)).map (fun s => (s.dumper, s.file.length, firstTag s))
      = some (.visiting 2 2, 560 + 560 + 32, some none) := by
  decide +kernel

/-- **An entry overtakes the description of its event**: the second of two events,
logged by a second thread before the first pass. -/
theorem overtaken : ∃ s, (loggingSystem twoEvents).Reachable s ∧ s.dumper.BetweenCalls ∧
    ∀ records, s.file = contents records → ¬ Interpretable twoEvents records := by
  obtain ⟨s, hrun, hs⟩ := Option.map_eq_some_iff.mp twoThreads_second
  obtain ⟨hat, hs⟩ := Prod.mk.inj hs
  obtain ⟨hlength, htag⟩ := Prod.mk.inj hs
  have hlt : s.file.length < 2 ^ 63 := by rw [hlength]; decide
  have hlogs : ∀ w ∈ twoThreads 2 (by decide), twoEvents.Logs w := by decide
  refine ⟨s, ?_, by rw [hat]; trivial, fun records hrecords hinterpretable => ?_⟩
  · exact StepSystem.ReachableWhile.foldlM (.init rfl) _
      (fun w hw t t' hnext => ⟨trivial, hlogs w hw, hnext⟩) hrun
  · -- the reader sees the file as a log of these records
    let log : Log := ⟨records, by rw [← hrecords]; exact hlt⟩
    have hfile : log.file s.file.length = ⟨s.file, hlt⟩ := by
      rw [File.mk.injEq]
      exact (congrArg (List.take _) hrecords.symm).trans (List.take_length ..)
    rw [firstTag, dif_pos hlt, ← hfile] at htag
    obtain ⟨item, hitem, hcurTag⟩ := Option.map_eq_some_iff.mp htag
    have hresults : item ∈ (log.results [s.file.length]).reduceOption := by
      rw [Log.results, Polling.run, Polling.run, hitem]
      exact .head _
    obtain ⟨event, -, -, htag'⟩ := hinterpretable.curTag log _ rfl item hresults
    rw [hcurTag] at htag'
    cases htag'

end LinuxProgram.Binlog
