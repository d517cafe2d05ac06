import LinuxProgram.Binlog.Dump

/-!
# Files whose entries can be interpreted

What the order of records in a file has to be for `LogRead` to know the class tag of
every entry.

* `Described` — every entry stands behind the description of its event.
* `Interpretable` — that, and what `LogRead` makes of it.
* `interpretable_of_described` — the second follows from the first, when the only
  descriptions in the file are those of events and the end mark.
-/

namespace LinuxProgram.Binlog

/-- **Every entry stands behind the description of its event.** -/
def Described (S : Setup) (records : List Record) : Prop :=
  ∀ before e after, records = before ++ .entry e :: after →
    ∃ event ∈ S.events, event.mEventID = e.mEventID ∧ .desc event.dump ∈ before

/-- The descriptions are those of events, and the end mark. -/
def OnlyEvents (S : Setup) (records : List Record) : Prop :=
  ∀ d, .desc d ∈ records → d = S.endMark.toEventDescDump ∨ ∃ event ∈ S.events, d = event.dump

/-- **Every entry can be interpreted**: it stands behind the description of its event,
and every entry `LogRead` returns, in whatever pieces it sees the file, comes with
the class tag of its event. -/
structure Interpretable (S : Setup) (records : List Record) : Prop where
  described : Described S records
  curTag : ∀ (log : Log) (lengths : List ℕ), log.records = records →
    ∀ item ∈ (log.results lengths).reduceOption,
      ∃ event ∈ S.events, event.mEventID = item.mEventID ∧
        item.curTag = some event.mClassTag.toList

variable {S : Setup} {records : List Record}

/-! ### Descriptions -/

theorem dump_index (event : EventDesc) : event.dump.index = event.mEventID := by
  have hlt : event.mEventID < 2 ^ 63 := event.lt.trans (by decide)
  have hor : (2 ^ 63 ||| event.mEventID) = 2 ^ 63 * 1 + event.mEventID :=
    (Nat.two_pow_add_eq_or_of_lt hlt 1).symm
  have hand : (2 ^ 63 ||| event.mEventID) &&& (2 ^ 63 - 1) = event.mEventID := by
    rw [Nat.and_two_pow_sub_one_eq_mod, hor, Nat.mul_add_mod]
    exact Nat.mod_eq_of_lt hlt
  exact hand

/-- No event has the index of the end mark. -/
theorem endMark_index_ne (endMark : EndMark) (event : EventDesc) :
    endMark.index ≠ event.mEventID := by
  have hindex : endMark.index = 2 ^ 63 - 1 := by
    rw [EventDescDump.index, endMark.id]
    decide
  have hlt := event.lt
  rw [hindex]
  exact Nat.ne_of_gt hlt

theorem mem_descs {d : EventDescDump} : d ∈ descs records ↔ .desc d ∈ records := by
  rw [descs, List.mem_filterMap]
  constructor
  · rintro ⟨r, hr, hd⟩
    cases r with
    | desc d' =>
        cases hd
        exact List.mem_reverse.mp hr
    | entry e => cases hd
  · exact fun h => ⟨.desc d, List.mem_reverse.mpr h, rfl⟩

/-- Two events with one id are one event. -/
theorem Setup.event_eq {event event' : EventDesc} (h : event ∈ S.events) (h' : event' ∈ S.events)
    (hid : event.mEventID = event'.mEventID) : event = event' :=
  List.inj_on_of_nodup_map S.nodup h h' hid

/-- **The description a reader finds** for an event whose description is there. -/
theorem latest_eq (honly : OnlyEvents S records) {event : EventDesc} (hevent : event ∈ S.events)
    (hmem : .desc event.dump ∈ records) :
    latest (descs records) event.mEventID = some event.dump := by
  cases hlatest : latest (descs records) event.mEventID with
  | none =>
      have hne := List.find?_eq_none.mp hlatest event.dump (mem_descs.mpr hmem)
      exact absurd (decide_eq_true (dump_index event)) hne
  | some d =>
      have hindex : d.index = event.mEventID := by
        rw [latest] at hlatest
        simpa using List.find?_some hlatest
      rcases honly d (mem_descs.mp (List.mem_of_find?_eq_some hlatest)) with rfl | hd
      · exact absurd hindex (endMark_index_ne _ _)
      · obtain ⟨event', hevent', rfl⟩ := hd
        rw [dump_index] at hindex
        rw [S.event_eq hevent' hevent hindex]

/-! ### Entries -/

/-- An entry of a log, with the records in front of it. -/
theorem exists_of_mem_entriesFrom {offset : ℕ} (pre : List Record) {post : List Record}
    {item : ℕ × LogItem} (h : item ∈ entriesFrom offset (descs pre) post) :
    ∃ rs e rs', post = rs ++ .entry e :: rs' ∧ item.2 = e.item (descs (pre ++ rs)) := by
  induction post generalizing offset pre with
  | nil => cases h
  | cons r post ih =>
      cases r with
      | desc d =>
          rw [entriesFrom, ← descs_concat_desc] at h
          obtain ⟨rs, e, rs', rfl, hitem⟩ := ih _ h
          exact ⟨.desc d :: rs, e, rs', rfl, by rw [hitem, List.append_assoc]; rfl⟩
      | entry e =>
          rw [entriesFrom, ← descs_concat_entry pre e] at h
          rcases List.mem_cons.mp h with rfl | h
          · refine ⟨[], e, post, rfl, ?_⟩
            rw [descs_concat_entry, List.append_nil]
          · obtain ⟨rs, e', rs', rfl, hitem⟩ := ih _ h
            exact ⟨.entry e :: rs, e', rs', rfl, by rw [hitem, List.append_assoc]; rfl⟩

/-- **LogRead knows the class tags** of a file in which everything is described. -/
theorem interpretable_of_described (honly : OnlyEvents S records) (h : Described S records) :
    Interpretable S records where
  described := h
  curTag := by
    rintro log lengths rfl item hitem
    rw [results_eq] at hitem
    obtain ⟨entry, hentry, rfl⟩ :=
      List.mem_map.mp ((Lib.Polling.run_poll_prefix lengths log.entries).subset hitem)
    obtain ⟨rs, e, rs', hrecords, heq⟩ := exists_of_mem_entriesFrom [] hentry
    obtain ⟨event, hevent, hid, hmem⟩ := h rs e rs' hrecords
    refine ⟨event, hevent, by rw [heq]; exact hid, ?_⟩
    have honly' : OnlyEvents S rs := fun d hd => honly d (by rw [hrecords]; simp [hd])
    have hlatest := latest_eq honly' hevent hmem
    rw [heq, LogEntry.item, List.nil_append, ← hid, hlatest]
    rfl

/-- A record is appended. -/
theorem Described.append (h : Described S records) {r : Record}
    (hr : ∀ e, r = .entry e →
      ∃ event ∈ S.events, event.mEventID = e.mEventID ∧ .desc event.dump ∈ records) :
    Described S (records ++ [r]) := by
  intro before e after heq
  rcases List.eq_nil_or_concat after with rfl | ⟨after, r', rfl⟩
  · obtain ⟨rfl, hlast⟩ := List.append_inj' heq rfl
    exact hr e (List.cons.inj hlast).1
  · rw [List.concat_eq_append, ← List.cons_append, ← List.append_assoc] at heq
    exact h before e after (List.append_inj' heq rfl).1

theorem described_desc (d : EventDescDump) : Described S [.desc d] := by
  intro before e after h
  cases before with
  | nil => cases h
  | cons r before =>
      obtain ⟨-, h⟩ := List.cons.inj h
      cases before <;> cases h

end LinuxProgram.Binlog
