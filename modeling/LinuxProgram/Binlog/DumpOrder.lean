import LinuxProgram.Binlog.DumpRecords
import LinuxProgram.Binlog.Described

/-!
# The order of records in the file

The descriptions leave the queue of the initialising thread one at a time, one in
each pass, and so do the entries leave theirs.  Whether an entry overtakes the
description of its event is decided when it is pushed: by its `rank`, the number of
descriptions up to that of its event which are still queued, and by the number of
visits of queue 0 before the entry is written.

* `InTime` — the entry is pushed late enough.  An entry of the initialising thread
  always is, since the descriptions are in front of it in the same queue.
* `Ordered` — what is queued will be in time, and the file has the descriptions of all
  events that are not queued any more.  It is an invariant of the drain of records
  for which the writing side stands (`DumpRecords`): `Ordered.register`,
  `Ordered.log`, `Ordered.consume`.
-/

namespace LinuxProgram.Binlog

open Lib

/-! ### The descriptions that are queued -/

/-- **The rank of an event** in a list: how many come up to it, or 0 if it is not
there. -/
def rank (eventID : ℕ) (ids : List ℕ) : ℕ :=
  if eventID ∈ ids then ids.idxOf eventID + 1 else 0

theorem rank_eq_zero {eventID : ℕ} {ids : List ℕ} : rank eventID ids = 0 ↔ eventID ∉ ids := by
  rw [rank]
  split <;> simp_all

/-- When the first description leaves, the others move up. -/
theorem rank_cons {eventID id : ℕ} {ids : List ℕ} (hid : id ∉ ids) {k : ℕ}
    (h : rank eventID (id :: ids) ≤ k + 1) : rank eventID ids ≤ k := by
  rw [rank] at h ⊢
  split
  · rename_i hmem
    have hne : id ≠ eventID := fun heq => hid (heq ▸ hmem)
    rw [if_pos (List.mem_cons_of_mem _ hmem), List.idxOf_cons_ne ids hne] at h
    omega
  · exact Nat.zero_le _

theorem rank_cons_le {eventID id : ℕ} {ids : List ℕ} :
    rank eventID (id :: ids) ≤ rank eventID ids + 1 := by
  rcases eq_or_ne id eventID with rfl | hne
  · rw [rank, if_pos (.head _), List.idxOf_cons_self]
    exact Nat.le_add_left _ _
  · rw [rank, rank, List.idxOf_cons_ne ids hne]
    simp only [List.mem_cons, hne.symm, false_or]
    split <;> omega

/-- The events whose descriptions are at the front of a queue, in order. -/
def descsIn : List Cell → List ℕ
  | first :: _ :: cells => if first.isEventDesc then first.file.index 0 :: descsIn cells else []
  | _ => []

/-- The events whose descriptions the dumper has not begun to write. -/
def Writer.queuedDescs (s : Writer) : List ℕ :=
  (s.mLogInfoAllThreads[0]?).elim [] fun t => descsIn (t.mLogBuffer.drop (s.dumper.popped 0))

/-- The number of visits of queue 0 that begin before the next visit of the queue at
`index`. -/
def DumperAt.ahead (dumper : DumperAt) (index : ℕ) : ℕ :=
  match dumper with
  | .idle => 1
  | .visiting index' currentSize =>
      (if index' = 0 then 1 else 0) + if index' ≤ index ∧ index < currentSize then 0 else 1
  | .second index' currentSize => if index' ≤ index ∧ index < currentSize then 0 else 1

/-- The number of cells in a queue. -/
def Writer.queueLength (s : Writer) (index : ℕ) : ℕ :=
  (s.mLogInfoAllThreads[index]?).elim 0 fun t => t.mLogBuffer.length

/-- **An entry is pushed in time**: not more descriptions up to that of its event are
queued than visits of queue 0 come before the visit that writes the entry. -/
def InTime (s : Writer) : WriterAction → Prop
  | .log index e _ => index = 0 ∨
      rank e.mEventID s.queuedDescs ≤ s.queueLength index + s.dumper.ahead index
  | _ => True

instance (s : Writer) : DecidablePred (InTime s)
  | .log index e _ => inferInstanceAs (Decidable (index = 0 ∨
      rank e.mEventID s.queuedDescs ≤ s.queueLength index + s.dumper.ahead index))
  | .register | .dumpFirst _ _ _ | .dumpSecond _ _ | .dumper => isTrue trivial

/-! ### The invariant

Each queue but the first one has entries only, and the first one has the descriptions that are
left with the entries of its own thread behind.  What has to be known of an entry that is queued
is that the description of its event will be written first, for which it is enough to compare two
numbers. -/

/-- The entries in a queue will be in time. -/
structure Queued (S : Setup) (remaining : List EventDesc) (ahead : ℕ) (entries : List LogEntry) :
    Prop where
  known : ∀ e ∈ entries, S.Known e
  inTime : ∀ k e, entries[k]? = some e →
    rank e.mEventID (remaining.map EventDesc.mEventID) ≤ k + ahead

/-- The descriptions of events, and entries behind them. -/
def ownQueue (remaining : List EventDesc) (entries : List LogEntry) : List Record :=
  (remaining.map fun event => .desc event.dump) ++ entries.map .entry

/-- The records in the file, when those behind the end mark are `taken`. -/
def Setup.records (S : Setup) (taken : List (ℕ × Record)) : List Record :=
  .desc S.endMark.toEventDescDump :: taken.map Prod.snd

theorem Setup.records_concat (S : Setup) (taken : List (ℕ × Record)) (item : ℕ × Record) :
    S.records (taken ++ [item]) = S.records taken ++ [item.2] := by
  rw [records, records, List.map_append]
  rfl

/-- **The invariant of the order**, when the descriptions of `written` are in the file
and those of `remaining` are queued. -/
structure Ordered (S : Setup) (written remaining : List EventDesc) (a : Drain Record) : Prop where
  events : S.events = written ++ remaining
  own : ∃ entries, a.queues[0]? = some (ownQueue remaining entries) ∧ ∀ e ∈ entries, S.Known e
  others : ∀ index queue, 0 < index → a.queues[index]? = some queue →
    ∃ entries, queue = entries.map .entry ∧ Queued S remaining (Drain.ahead a.pass index) entries
  pass : ∀ index size, a.pass = some (index, size) → 0 < size ∧ size ≤ a.queues.length
  descs : ∀ event ∈ written, .desc event.dump ∈ S.records a.taken
  only : OnlyEvents S (S.records a.taken)
  described : Described S (S.records a.taken)

variable {S : Setup} {written remaining : List EventDesc} {a : Drain Record}

/-- The drain for which `initWrite` stands. -/
def initDrain (S : Setup) : Drain Record where
  queues := [S.events.map fun event => .desc event.dump]
  taken := []
  pass := none

theorem ordered_initDrain (S : Setup) : Ordered S [] S.events (initDrain S) where
  events := rfl
  own := ⟨[], by rw [ownQueue, List.map_nil, List.append_nil]; rfl, fun e he => by cases he⟩
  others index queue hpos h := by
    rw [initDrain, List.getElem?_eq_none (show 1 ≤ index from hpos)] at h
    cases h
  pass index size h := by cases h
  descs event h := by cases h
  only d h := .inl (Record.desc.inj (List.mem_singleton.mp h))
  described := described_desc _

theorem Ordered.length_pos (h : Ordered S written remaining a) : 0 < a.queues.length := by
  obtain ⟨entries, hown, -⟩ := h.own
  exact Agents.lt_length hown

/-! ### The threads

An entry that is pushed in time goes behind the others of its queue.  It is written one pass after
the entry in front of it, and so the number of visits of queue 0 that come before grows by one
with each place in the queue. -/

theorem Queued.mono {ahead ahead' : ℕ} {entries : List LogEntry}
    (h : Queued S remaining ahead entries) (hle : ahead ≤ ahead') :
    Queued S remaining ahead' entries :=
  ⟨h.known, fun k e he => (h.inTime k e he).trans (Nat.add_le_add_left hle k)⟩

theorem queued_nil {ahead : ℕ} : Queued S remaining ahead [] where
  known e he := by cases he
  inTime k e he := by cases he

/-- When no description is queued, everything is in time. -/
theorem Queued.of_nil {ahead : ℕ} {entries : List LogEntry} (h : Queued S [] ahead entries)
    (ahead' : ℕ) : Queued S [] ahead' entries :=
  ⟨h.known, fun _ _ _ => (rank_eq_zero.mpr List.not_mem_nil).le.trans (Nat.zero_le _)⟩

/-- An entry is pushed behind the others. -/
theorem Queued.concat {ahead : ℕ} {entries : List LogEntry} (h : Queued S remaining ahead entries)
    {e : LogEntry} (hknown : S.Known e)
    (htime : rank e.mEventID (remaining.map EventDesc.mEventID) ≤ entries.length + ahead) :
    Queued S remaining ahead (entries ++ [e]) where
  known e' he' := by
    rcases List.mem_append.mp he' with he' | he'
    · exact h.known e' he'
    · rwa [List.mem_singleton.mp he']
  inTime k e' he' := by
    rw [Agents.getElem?_concat] at he'
    split at he'
    · rename_i hk
      cases he'
      rwa [hk]
    · exact h.inTime k e' he'

/-- The first entry leaves, and the others move up. -/
theorem Queued.tail {e : LogEntry} {entries : List LogEntry}
    (h : Queued S remaining 0 (e :: entries)) : Queued S remaining 1 entries where
  known e' he' := h.known e' (.tail _ he')
  inTime k e' he' := h.inTime (k + 1) e' he'

/-- A thread registers. -/
theorem Ordered.register (h : Ordered S written remaining a) :
    Ordered S written remaining { a with queues := a.queues ++ [[]] } where
  events := h.events
  own := by
    rw [Agents.getElem?_concat, if_neg h.length_pos.ne]
    exact h.own
  others index queue hpos hq := by
    rw [Agents.getElem?_concat] at hq
    split at hq
    · cases hq
      exact ⟨[], rfl, queued_nil⟩
    · exact h.others index queue hpos hq
  pass index size hpass := by
    obtain ⟨hpos, hle⟩ := h.pass index size hpass
    rw [List.length_append]
    exact ⟨hpos, hle.trans (Nat.le_add_right _ _)⟩
  descs := h.descs
  only := h.only
  described := h.described

/-- An entry of a thread is in time for the drain. -/
def DrainInTime (remaining : List EventDesc) (a : Drain Record) (index : ℕ) (e : LogEntry) :
    Prop :=
  index = 0 ∨ ∀ entries : List LogEntry, a.queues[index]? = some (entries.map .entry) →
    rank e.mEventID (remaining.map EventDesc.mEventID)
      ≤ entries.length + Drain.ahead a.pass index

/-- **A thread logs an entry in time.** -/
theorem Ordered.log (h : Ordered S written remaining a) {index : ℕ} {queue : List Record}
    (hqueue : a.queues[index]? = some queue) {e : LogEntry} (hknown : S.Known e)
    (htime : DrainInTime remaining a index e) :
    Ordered S written remaining
      { a with queues := a.queues.set index (queue ++ [.entry e]) } where
  events := h.events
  own := by
    obtain ⟨entries, hown, hentries⟩ := h.own
    rw [Agents.getElem?_set hqueue]
    split
    · rename_i h0
      subst h0
      rw [hown] at hqueue
      cases hqueue
      refine ⟨entries ++ [e], ?_, fun e' he' => ?_⟩
      · rw [ownQueue, ownQueue, List.map_append, List.append_assoc]
        rfl
      · rcases List.mem_append.mp he' with he' | he'
        · exact hentries e' he'
        · rwa [List.mem_singleton.mp he']
    · exact ⟨entries, hown, hentries⟩
  others j queue' hpos hq := by
    rw [Agents.getElem?_set hqueue] at hq
    split at hq
    · rename_i hj
      subst hj
      cases hq
      obtain ⟨entries, rfl, hqueued⟩ := h.others j queue hpos hqueue
      refine ⟨entries ++ [e], by rw [List.map_append]; rfl, hqueued.concat hknown ?_⟩
      exact htime.resolve_left hpos.ne' entries hqueue
    · exact h.others j queue' hpos hq
  pass index size hpass := by
    rw [List.length_set]
    exact h.pass index size hpass
  descs := h.descs
  only := h.only
  described := h.described

/-! ### The dumper

With each pass one description leaves queue 0, and one record each of the other queues.  All ranks
go down by one with the description, and the numbers they are compared with go down by one as
well; an entry whose rank is 0 stays in time whatever happens. -/

/-- An entry whose event has no description queued. -/
theorem Ordered.described_of_rank (h : Ordered S written remaining a) {e : LogEntry}
    (hknown : S.Known e) (hrank : rank e.mEventID (remaining.map EventDesc.mEventID) = 0) :
    ∃ event ∈ S.events, event.mEventID = e.mEventID ∧ .desc event.dump ∈ S.records a.taken := by
  obtain ⟨event, hevent, hid⟩ := hknown
  refine ⟨event, hevent, hid, h.descs event ?_⟩
  rw [h.events] at hevent
  refine (List.mem_append.mp hevent).resolve_right fun hrem => ?_
  exact rank_eq_zero.mp hrank (hid ▸ List.mem_map_of_mem hrem)

/-- The dumper moves on without a record. -/
theorem Ordered.move (h : Ordered S written remaining a) {pass : Option (ℕ × ℕ)}
    (hpass : ∀ index size, pass = some (index, size) → 0 < size ∧ size ≤ a.queues.length)
    (hahead : ∀ j < a.queues.length, 0 < j → ∀ entries,
      Queued S remaining (Drain.ahead a.pass j) entries →
      Queued S remaining (Drain.ahead pass j) entries) :
    Ordered S written remaining { a with pass := pass } where
  events := h.events
  own := h.own
  others index queue hpos hq := by
    obtain ⟨entries, hqueue, hqueued⟩ := h.others index queue hpos hq
    exact ⟨entries, hqueue, hahead index (Agents.lt_length hq) hpos entries hqueued⟩
  pass := hpass
  descs := h.descs
  only := h.only
  described := h.described

variable {size : ℕ}

/-- **The dumper takes a description.** -/
theorem Ordered.take_desc {event : EventDesc} {rest : List EventDesc} {entries : List LogEntry}
    (h : Ordered S written (event :: rest) a) (hat : a.pass = some (0, size))
    (hentries : ∀ e ∈ entries, S.Known e) :
    Ordered S (written ++ [event]) rest
      { a.take 0 (ownQueue (event :: rest) entries) with pass := some (1, size) } where
  events := by rw [h.events, List.append_assoc]; rfl
  own := by
    obtain ⟨_, hown, -⟩ := h.own
    refine ⟨entries, ?_, hentries⟩
    exact (Agents.getElem?_set hown _ 0).trans (if_pos rfl)
  others index queue hpos hq := by
    have hq' : a.queues[index]? = some queue := by
      obtain ⟨_, hown, -⟩ := h.own
      rw [← hq]
      exact ((Agents.getElem?_set hown _ index).trans (if_neg hpos.ne')).symm
    obtain ⟨entries, hqueue, hqueued⟩ := h.others index queue hpos hq'
    refine ⟨entries, hqueue, hqueued.known, fun k e he => ?_⟩
    -- the others move up by one, and one visit of queue 0 is over
    have hnodup := S.nodup
    rw [h.events, List.map_append, List.map_cons] at hnodup
    have hid := (List.nodup_cons.mp (List.Nodup.of_append_right hnodup)).1
    have htime := hqueued.inTime k e he
    rw [hat, Drain.ahead_first hpos, List.map_cons] at htime
    exact rank_cons hid htime
  pass index size' hpass := by
    cases hpass
    obtain ⟨hpos, hle⟩ := h.pass 0 size hat
    exact ⟨hpos, hle.trans (List.length_set ..).ge⟩
  descs ev hev := by
    rw [ownQueue, List.map_cons, List.cons_append, Drain.take, S.records_concat]
    rcases List.mem_append.mp hev with hev | hev
    · exact List.mem_append_left _ (h.descs ev hev)
    · rw [List.mem_singleton.mp hev]
      exact List.mem_append_right _ (List.mem_singleton_self _)
  only d hd := by
    rw [ownQueue, List.map_cons, List.cons_append, Drain.take, S.records_concat] at hd
    rcases List.mem_append.mp hd with hd | hd
    · exact h.only d hd
    · rw [List.mem_singleton, Record.desc.injEq] at hd
      refine .inr ⟨event, ?_, hd⟩
      rw [h.events]
      exact List.mem_append_right _ (.head _)
  described := by
    rw [ownQueue, List.map_cons, List.cons_append, Drain.take, S.records_concat]
    exact h.described.append fun e he => by cases he

/-- **The dumper takes an entry** whose event has no description queued. -/
theorem Ordered.take_entry (h : Ordered S written remaining a) {index : ℕ} {queue : List Record}
    {e : LogEntry} (hat : a.pass = some (index, size))
    (hqueue : a.queues[index]? = some (.entry e :: queue))
    (hknown : S.Known e) (hrank : rank e.mEventID (remaining.map EventDesc.mEventID) = 0)
    (hown : index = 0 → ∃ entries, queue = ownQueue remaining entries ∧ ∀ e ∈ entries, S.Known e)
    (hother : 0 < index → ∃ entries, queue = entries.map .entry ∧ Queued S remaining 1 entries)
    (hahead : ∀ j, j ≠ index → 0 < j → ∀ entries,
      Queued S remaining (Drain.ahead a.pass j) entries →
      Queued S remaining (Drain.ahead (some (index + 1, size)) j) entries) :
    Ordered S written remaining
      { a.take index (.entry e :: queue) with pass := some (index + 1, size) } where
  events := h.events
  own := by
    rw [Drain.take, Agents.getElem?_set hqueue]
    split
    · rename_i h0
      obtain ⟨entries, rfl, hentries⟩ := hown h0.symm
      exact ⟨entries, rfl, hentries⟩
    · exact h.own
  others j q hpos hq := by
    rw [Drain.take, Agents.getElem?_set hqueue] at hq
    split at hq
    · rename_i hj
      subst hj
      cases hq
      dsimp only
      rw [Drain.ahead_visited]
      exact hother hpos
    · rename_i hj
      obtain ⟨entries, hentries, hqueued⟩ := h.others j q hpos hq
      exact ⟨entries, hentries, hahead j hj hpos entries hqueued⟩
  pass index' size' hpass := by
    cases hpass
    obtain ⟨hpos, hle⟩ := h.pass index size hat
    exact ⟨hpos, hle.trans (List.length_set ..).ge⟩
  descs event hevent := by
    rw [Drain.take, S.records_concat]
    exact List.mem_append_left _ (h.descs event hevent)
  only d hd := by
    rw [Drain.take, S.records_concat] at hd
    rcases List.mem_append.mp hd with hd | hd
    · exact h.only d hd
    · cases List.mem_singleton.mp hd
  described := by
    rw [Drain.take, S.records_concat]
    exact h.described.append fun e' he' => by
      cases he'
      exact h.described_of_rank hknown hrank

/-- **The dumper visits the queue of the initialising thread.** -/
theorem Ordered.take_own (h : Ordered S written remaining a) (hat : a.pass = some (0, size))
    {queue : List Record} (hqueue : a.queues[0]? = some queue) :
    ∃ written' remaining',
      Ordered S written' remaining' { a.take 0 queue with pass := some (1, size) } := by
  obtain ⟨entries, hown, hentries⟩ := h.own
  rw [hqueue] at hown
  cases hown
  cases remaining with
  | cons event rest => exact ⟨_, _, h.take_desc hat hentries⟩
  | nil =>
      cases entries with
      | nil =>
          refine ⟨_, _, h.move (fun index size' hpass => ?_) fun _ _ _ _ hq => hq.of_nil _⟩
          cases hpass
          exact h.pass 0 size hat
      | cons e entries =>
          have hrank := rank_eq_zero.mpr (List.not_mem_nil (a := e.mEventID))
          exact ⟨_, _, h.take_entry hat hqueue (hentries e (.head _)) hrank
            (fun _ => ⟨entries, rfl, fun e he => hentries e (.tail _ he)⟩)
            (fun hpos => absurd hpos (lt_irrefl 0)) fun _ _ _ _ hq => hq.of_nil _⟩

/-- **The dumper visits another queue.** -/
theorem Ordered.take_other (h : Ordered S written remaining a) {index : ℕ} (hpos : 0 < index)
    (hat : a.pass = some (index, size)) (hlt : index < size)
    {queue : List Record} (hqueue : a.queues[index]? = some queue) :
    Ordered S written remaining { a.take index queue with pass := some (index + 1, size) } := by
  obtain ⟨entries, rfl, hqueued⟩ := h.others index queue hpos hqueue
  rw [hat, Drain.ahead_self hpos hlt] at hqueued
  have hahead : ∀ j, j ≠ index → 0 < j → ∀ entries,
      Queued S remaining (Drain.ahead a.pass j) entries →
      Queued S remaining (Drain.ahead (some (index + 1, size)) j) entries := by
    intro j hj _ entries hqueued
    rw [hat] at hqueued
    exact hqueued.mono (Drain.ahead_other hpos hj).ge
  cases entries with
  | nil =>
      refine h.move (fun index' size' hpass => ?_) fun j hj hj0 es hq => ?_
      · cases hpass
        exact h.pass index size hat
      · rcases eq_or_ne j index with rfl | hne
        · rw [hat, Drain.ahead_self hpos hlt] at hq
          exact hq.mono (Nat.zero_le _)
        · exact hahead j hne hj0 es hq
  | cons e entries =>
      refine h.take_entry hat hqueue (hqueued.known e (.head _)) ?_
        (fun h0 => absurd h0 hpos.ne') (fun _ => ⟨entries, rfl, hqueued.tail⟩) hahead
      exact Nat.le_zero.mp (hqueued.inTime 0 e rfl)

/-- **The dumper keeps the invariant.** -/
theorem Ordered.consume {a' : Drain Record} (h : Ordered S written remaining a)
    (hconsume : a.consume = some a') : ∃ written' remaining', Ordered S written' remaining' a' := by
  rw [Drain.consume] at hconsume
  split at hconsume
  · rename_i hat
    cases hconsume
    refine ⟨_, _, h.move (fun index size hpass => ?_) fun j hj _ entries hq => ?_⟩
    · cases hpass
      exact ⟨h.length_pos, le_rfl⟩
    · rw [hat] at hq
      exact hq.mono (Drain.ahead_start hj).ge
  · rename_i index size hat
    split at hconsume
    · rename_i hlt
      obtain ⟨queue, hqueue, rfl⟩ := Option.map_eq_some_iff.mp hconsume
      rcases Nat.eq_zero_or_pos index with rfl | hpos
      · exact h.take_own hat hqueue
      · exact ⟨_, _, h.take_other hpos hat hlt hqueue⟩
    · rename_i hge
      cases hconsume
      have hsize := (h.pass index size hat).1
      refine ⟨_, _, h.move (fun _ _ hpass => by cases hpass) fun j _ _ entries hq => ?_⟩
      rw [hat] at hq
      exact hq.mono (Drain.ahead_end (by omega) (by omega)).ge

end LinuxProgram.Binlog
