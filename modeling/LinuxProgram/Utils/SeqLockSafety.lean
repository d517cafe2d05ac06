import LinuxProgram.Utils.SeqLock

/-!
# Readers of a sequence lock see one time

The sequence wraps, but the number of increments does not: it is odd while a writer changes the
clock, and half of it is how many times were written.  A reader that finds the sequence it began
with has loaded both words while nobody wrote, if the sequence has not come round completely in
between.  So what the loop of `do_realtime` has left is one of the times that were on the clock, and
only `timespec_add_ns` is between that and what its caller finds.

* `Steady` — the clock shows the last time that was written.
* `WriterAt.Holds` — what the clock shows while a writer has the lock.
* `ReaderAt.Knows` — what a reader has loaded, if the sequence is the one it began with.
* `FewWrites` — the sequence is not incremented 2^32 times while a reader is at it.
* `realtime_consistent` — what `do_realtime` returns.
-/

namespace LinuxProgram.Utils.SeqLock

open Lib

variable {timespecAddNs : Time → UInt64 → Time} {s s' : State} {i j : ℕ} {w : WriterAt}
  {r : ReaderAt} {ts : Time}

/-- **Between two writes** the number of increments is even, and the clock shows the time that was
written last. -/
structure Steady (s : State) : Prop where
  even : s.increments % 2 = 0
  clock : s.times[s.increments / 2]? = some s.clock

/-- **What holds while a writer has the lock.** -/
def WriterAt.Holds (s : State) : WriterAt → Prop
  | .idle => True
  | .lock _ => True
  | .seqlock _ => Steady s
  | .storeSec _ => s.increments % 2 = 1
  | .storeNsec ts => s.increments % 2 = 1 ∧ s.clock.1 = ts.1
  | .sequnlock ts => s.increments % 2 = 1 ∧ s.clock = ts
  | .unlock => Steady s

/-- It is about the clock and what was written. -/
theorem WriterAt.Holds.congr (h : w.Holds s) (hclock : s'.clock = s.clock)
    (htimes : s'.times = s.times) (hincrements : s'.increments = s.increments) : w.Holds s' := by
  have hsteady : Steady s → Steady s' := fun hs =>
    ⟨by rw [hincrements]; exact hs.even, by rw [hincrements, htimes, hclock]; exact hs.clock⟩
  cases w with
  | idle => trivial
  | lock ts => trivial
  | seqlock ts => exact hsteady h
  | storeSec ts => exact (congrArg (· % 2) hincrements).trans h
  | storeNsec ts =>
      exact ⟨(congrArg (· % 2) hincrements).trans h.1, (congrArg Prod.fst hclock).trans h.2⟩
  | sequnlock ts => exact ⟨(congrArg (· % 2) hincrements).trans h.1, hclock.trans h.2⟩
  | unlock => exact hsteady h

/-- **A reader has begun** at an even number of increments, and not before it was called. -/
structure Start.Valid (start : Start) (s : State) : Prop where
  seq : start.seq = UInt32.ofNat start.increments
  le : start.increments ≤ s.increments
  even : start.increments % 2 = 0
  called : start.called ≤ start.increments / 2

/-- **What a reader knows** of the words that it has loaded: they are those of one time, if the
sequence is still the one it began with. -/
def ReaderAt.Knows (timespecAddNs : Time → UInt64 → Time) (s : State) : ReaderAt → Prop
  | .idle => True
  | .seqbegin called => called ≤ s.increments / 2
  | .loadSec start => start.Valid s
  | .loadNsec start sec => start.Valid s ∧ (s.increments = start.increments →
      ∃ nsec, s.times[start.increments / 2]? = some (sec, nsec))
  | .vgetns start ts => start.Valid s ∧ (s.increments = start.increments →
      s.times[start.increments / 2]? = some ts)
  | .seqretry start ts _ => start.Valid s ∧ (s.increments = start.increments →
      s.times[start.increments / 2]? = some ts)
  | .addNs called ts _ => ∃ k, called ≤ k ∧ s.times[k]? = some ts
  | .returned called ts ns now =>
      now = timespecAddNs ts ns ∧ ∃ k, called ≤ k ∧ s.times[k]? = some ts

/-- **The invariant.** The sequence is the number of increments in 32 bits, of which each write
makes two.  While nobody writes the clock shows the last of the times that were written; at most one
writer has the lock; and writers and readers know what they have in hand. -/
structure Inv (timespecAddNs : Time → UInt64 → Time) (s : State) : Prop where
  sequence : s.sequence = UInt32.ofNat s.increments
  times : s.times.length = s.increments / 2 + 1
  steady : s.increments % 2 = 0 → s.times[s.increments / 2]? = some s.clock
  /-- Nobody writes while nobody has the lock. -/
  free : (∀ w ∈ s.writers, w.hasLock = false) → s.increments % 2 = 0
  alone : ∀ (i j : ℕ) (w w' : WriterAt), s.writers[i]? = some w → s.writers[j]? = some w' →
    w.hasLock = true → w'.hasLock = true → i = j
  writers : ∀ w ∈ s.writers, w.Holds s
  readers : ∀ r ∈ s.readers, r.Knows timespecAddNs s

theorem inv_start (ts : Time) (writers readers : ℕ) :
    Inv timespecAddNs (.start ts writers readers) where
  sequence := rfl
  times := by simp [State.start]
  steady _ := by simp [State.start]
  free _ := rfl
  alone i j w w' hw _ hlock _ := by
    have hidle := List.mem_of_getElem? hw
    rw [State.start, List.mem_replicate] at hidle
    rw [hidle.2] at hlock
    cases hlock
  writers w hw := by
    rw [(List.mem_replicate.mp hw).2]
    trivial
  readers r hr := by
    rw [(List.mem_replicate.mp hr).2]
    trivial

/-- What a reader knows stays true while others write. -/
theorem ReaderAt.Knows.mono (h : r.Knows timespecAddNs s)
    (hincrements : s.increments ≤ s'.increments) (htimes : s.times <+: s'.times) :
    r.Knows timespecAddNs s' := by
  have hget : ∀ (k : ℕ) (ts : Time), s.times[k]? = some ts → s'.times[k]? = some ts :=
    fun k ts hk => by
      obtain ⟨more, hmore⟩ := htimes
      rw [← hmore, List.getElem?_append_left (Agents.lt_length hk), hk]
  have hvalid : ∀ start : Start, start.Valid s → start.Valid s' := fun start hstart =>
    ⟨hstart.seq, hstart.le.trans hincrements, hstart.even, hstart.called⟩
  -- if the number of increments is that of the start, it has not changed
  have hsame : ∀ start : Start, start.Valid s → s'.increments = start.increments →
      s.increments = start.increments := fun start hstart heq =>
    le_antisymm (hincrements.trans heq.le) hstart.le
  cases r with
  | idle => trivial
  | seqbegin called => exact h.trans (Nat.div_le_div_right hincrements)
  | loadSec start => exact hvalid start h
  | loadNsec start sec =>
      refine ⟨hvalid start h.1, fun heq => ?_⟩
      obtain ⟨nsec, hnsec⟩ := h.2 (hsame start h.1 heq)
      exact ⟨nsec, hget _ _ hnsec⟩
  | vgetns start ts =>
      exact ⟨hvalid start h.1, fun heq => hget _ _ (h.2 (hsame start h.1 heq))⟩
  | seqretry start ts ns =>
      exact ⟨hvalid start h.1, fun heq => hget _ _ (h.2 (hsame start h.1 heq))⟩
  | addNs called ts ns =>
      obtain ⟨k, hk, hts⟩ := h
      exact ⟨k, hk, hget k ts hts⟩
  | returned called ts ns now =>
      obtain ⟨hnow, k, hk, hts⟩ := h
      exact ⟨hnow, k, hk, hget k ts hts⟩

/-! ### Writers

Only the writer with the spin lock counts the sequence up and stores to the clock.  What it has in
hand is compared with the list of all times that were written, which gets a new one with the
second increment. -/

/-- Nothing is said of a writer without the lock. -/
theorem holds_of_not_hasLock (h : ¬w.hasLock = true) : w.Holds s := by
  cases w with
  | idle => trivial
  | lock ts => trivial
  | _ => exact absurd rfl h

/-- **A writer goes on**, while nobody else has the lock. -/
theorem Inv.goes (h : Inv timespecAddNs s) (hi : s.writers[i]? = some w) {w' : WriterAt}
    (hothers : ∀ (j : ℕ) (v : WriterAt), s.writers[j]? = some v → v.hasLock = true → j = i)
    (hwriters : s'.writers = s.writers.set i w') (hreaders : s'.readers = s.readers)
    (hincrements : s.increments ≤ s'.increments) (htimes : s.times <+: s'.times)
    (hself : w'.Holds s') (hsequence : s'.sequence = UInt32.ofNat s'.increments)
    (hlength : s'.times.length = s'.increments / 2 + 1)
    (hsteady : s'.increments % 2 = 0 → s'.times[s'.increments / 2]? = some s'.clock)
    (hfree : w'.hasLock = false → s'.increments % 2 = 0) : Inv timespecAddNs s' := by
  have hset : ∀ (j : ℕ) (v : WriterAt), s'.writers[j]? = some v →
      (j = i ∧ v = w') ∨ ¬v.hasLock = true := by
    intro j v hj
    rw [hwriters, Agents.getElem?_set hi] at hj
    split at hj
    · rename_i hji
      exact .inl ⟨hji, (Option.some.inj hj).symm⟩
    · rename_i hji
      exact .inr fun hlock => hji (hothers j v hj hlock)
  refine ⟨hsequence, hlength, hsteady, fun hnone => ?_, fun j k v v' hj hk hlock hlock' => ?_,
    fun v hv => ?_, fun r hr => ?_⟩
  · exact hfree (hnone w' (hwriters ▸ Agents.mem_set_self hi w'))
  · obtain ⟨rfl, -⟩ := (hset j v hj).resolve_right (not_not.mpr hlock)
    exact ((hset k v' hk).resolve_right (not_not.mpr hlock')).1.symm
  · obtain ⟨j, hj⟩ := List.mem_iff_getElem?.mp hv
    rcases hset j v hj with ⟨-, rfl⟩ | hlock
    · exact hself
    · exact holds_of_not_hasLock hlock
  · rw [hreaders] at hr
    exact (h.readers r hr).mono hincrements htimes

theorem sequence_succ (h : s.sequence = UInt32.ofNat s.increments) :
    s.increment.sequence = UInt32.ofNat s.increment.increments := by
  rw [State.increment, h]
  exact (UInt32.ofNat_add _ _).symm

/-- **A step of a writer.** -/
theorem Inv.writerStep (h : Inv timespecAddNs s) (hi : s.writers[i]? = some w)
    (hspin : SpinLock s (.writer i)) (hstep : s.writerStep i w = some s') :
    Inv timespecAddNs s' := by
  have htimes := h.times
  have hholds := h.writers w (List.mem_of_getElem? hi)
  have hothers : w.hasLock = true → ∀ (j : ℕ) (v : WriterAt), s.writers[j]? = some v →
      v.hasLock = true → j = i := fun hlock j v hj hlock' => h.alone j i v w hj hi hlock' hlock
  cases w with
  | idle => cases hstep
  | lock ts =>
      -- nobody has the lock that `spin_lock` returns with
      cases hstep
      have hnone := hspin _ hi rfl
      have heven := h.free hnone
      refine h.goes hi (fun j v hj hlock => ?_) rfl rfl le_rfl List.prefix_rfl
        ⟨heven, h.steady heven⟩ h.sequence h.times h.steady fun _ => heven
      rw [hnone v (List.mem_of_getElem? hj)] at hlock
      cases hlock
  | seqlock ts =>
      obtain ⟨heven, hclock⟩ := hholds
      cases hstep
      have hodd : (s.increments + 1) % 2 = 1 := by omega
      refine h.goes hi (hothers rfl) rfl rfl (Nat.le_succ _) List.prefix_rfl hodd
        (sequence_succ h.sequence) ?_ (fun hzero => ?_) fun hlock => ?_
      · dsimp only [State.increment, State.setWriter]
        omega
      · dsimp only [State.increment, State.setWriter] at hzero
        omega
      · cases hlock
  | storeSec ts =>
      cases hstep
      refine h.goes hi (hothers rfl) rfl rfl le_rfl List.prefix_rfl ⟨hholds, rfl⟩ h.sequence
        h.times (fun hzero => ?_) fun hlock => ?_
      · have hodd : s.increments % 2 = 1 := hholds
        dsimp only [State.setWriter] at hzero
        omega
      · cases hlock
  | storeNsec ts =>
      obtain ⟨hodd, hsec⟩ := hholds
      cases hstep
      refine h.goes hi (hothers rfl) rfl rfl le_rfl List.prefix_rfl ⟨hodd, Prod.ext hsec rfl⟩
        h.sequence h.times (fun hzero => ?_) fun hlock => ?_
      · dsimp only [State.setWriter] at hzero
        omega
      · cases hlock
  | sequnlock ts =>
      obtain ⟨hodd, hclock⟩ := hholds
      cases hstep
      have heven : (s.increments + 1) % 2 = 0 := by omega
      have hlast : (s.times ++ [ts])[(s.increments + 1) / 2]? = some s.clock := by
        rw [show (s.increments + 1) / 2 = s.times.length by omega, List.getElem?_concat_length,
          hclock]
      refine h.goes hi (hothers rfl) rfl rfl (Nat.le_succ _) (List.prefix_append _ _)
        ⟨heven, hlast⟩ (sequence_succ h.sequence) ?_ (fun _ => hlast) fun _ => heven
      dsimp only [State.increment, State.setWriter]
      rw [List.length_append, List.length_singleton]
      omega
  | unlock =>
      obtain ⟨heven, hclock⟩ := hholds
      cases hstep
      exact h.goes hi (hothers rfl) rfl rfl le_rfl List.prefix_rfl trivial h.sequence h.times
        h.steady fun _ => heven

/-! ### Readers

A reader that finds an odd sequence tries again.  With an even one it loads the words, and what it
knows of them is conditional: they are of one time if nobody has counted up since.  That condition
is what `seqretry` tests, as long as the 32 bits have not come round in the meantime. -/

/-- A reader goes on. -/
theorem Inv.setReader (h : Inv timespecAddNs s) (hr : r.Knows timespecAddNs s) :
    Inv timespecAddNs (s.setReader i r) where
  sequence := h.sequence
  times := h.times
  steady := h.steady
  free := h.free
  alone := h.alone
  writers w hw := (h.writers w hw).congr rfl rfl rfl
  readers := Agents.forall_set (fun r' hr' => (h.readers r' hr').mono le_rfl List.prefix_rfl)
    (hr.mono le_rfl List.prefix_rfl)

/-- The lowest bit of the sequence. -/
theorem and_one_eq_zero (n : ℕ) : UInt32.ofNat n &&& 1 = 0 ↔ n % 2 = 0 := by
  rw [← UInt32.toNat_inj, UInt32.toNat_and, UInt32.toNat_ofNat', UInt32.toNat_one,
    Nat.and_one_is_mod, UInt32.toNat_zero]
  omega

/-- The sequence has not come round since the reader began. -/
def ReaderAt.InTime (s : State) : ReaderAt → Prop
  | .seqretry start _ _ => s.increments < start.increments + 2 ^ 32
  | _ => True

/-- **The condition**: it does not come round while a reader is at it. -/
def FewWrites (s : State) : SeqAction → Prop
  | .reader i => ∀ r ∈ s.readers[i]?, r.InTime s
  | _ => True

/-- **A step of a reader.** -/
theorem Inv.readerStep (h : Inv timespecAddNs s) (hi : s.readers[i]? = some r)
    (hfew : FewWrites s (.reader i)) (hstep : s.readerStep timespecAddNs i r = some s') :
    Inv timespecAddNs s' := by
  have hknows := h.readers r (List.mem_of_getElem? hi)
  cases r with
  | idle => cases hstep
  | seqbegin called =>
      rw [State.readerStep] at hstep
      split at hstep
      · rename_i hbit
        cases hstep
        rw [h.sequence, and_one_eq_zero] at hbit
        exact h.setReader ⟨h.sequence, le_rfl, hbit, hknows⟩
      · cases hstep
        exact h
  | loadSec start =>
      cases hstep
      refine h.setReader ⟨hknows, fun heq => ⟨s.clock.2, ?_⟩⟩
      rw [← heq]
      exact h.steady (heq ▸ hknows.even)
  | loadNsec start sec =>
      obtain ⟨hvalid, hsec⟩ := hknows
      cases hstep
      refine h.setReader ⟨hvalid, fun heq => ?_⟩
      obtain ⟨nsec, hnsec⟩ := hsec heq
      have hclock := h.steady (heq ▸ hvalid.even)
      rw [heq, hnsec] at hclock
      rw [hnsec, ← Option.some.inj hclock]
  | vgetns start ts => cases hstep
  | seqretry start ts ns =>
      obtain ⟨hvalid, hts⟩ := hknows
      rw [State.readerStep] at hstep
      split at hstep
      · cases hstep
        exact h.setReader (hvalid.called.trans (Nat.div_le_div_right hvalid.le))
      · rename_i hseq
        cases hstep
        have hmod : s.increments % 2 ^ 32 = start.increments % 2 ^ 32 := by
          have htoNat := congrArg UInt32.toNat (not_not.mp hseq)
          rwa [h.sequence, hvalid.seq, UInt32.toNat_ofNat', UInt32.toNat_ofNat'] at htoNat
        have hlt : s.increments < start.increments + 2 ^ 32 := hfew _ hi
        have hle := hvalid.le
        exact h.setReader ⟨_, hvalid.called, hts (by omega)⟩
  | addNs called ts ns =>
      cases hstep
      exact h.setReader ⟨rfl, hknows⟩
  | returned called ts ns now =>
      cases hstep
      exact h.setReader trivial

/-! ### All interleavings -/

/-- **The step lemma.** -/
theorem Inv.next (h : Inv timespecAddNs s) {a : SeqAction} (hspin : SpinLock s a)
    (hfew : FewWrites s a) (hstep : nextSeqLock timespecAddNs a s = some s') :
    Inv timespecAddNs s' := by
  cases a with
  | write i ts =>
      rw [nextSeqLock] at hstep
      split at hstep
      · rename_i hi
        cases hstep
        -- a writer that waits for the lock is like one that does nothing
        have hset : ∀ (j : ℕ) (v : WriterAt), (s.setWriter i (.lock ts)).writers[j]? = some v →
            v.hasLock = true → s.writers[j]? = some v := by
          intro j v hj hlock
          dsimp only [State.setWriter] at hj
          rw [Agents.getElem?_set hi] at hj
          split at hj
          · cases hj
            cases hlock
          · exact hj
        refine ⟨h.sequence, h.times, h.steady, fun hnone => h.free fun v hv => ?_,
          fun j k v v' hj hk hlock hlock' => h.alone j k v v' (hset j v hj hlock)
            (hset k v' hk hlock') hlock hlock', ?_,
          fun r hr => (h.readers r hr).mono le_rfl List.prefix_rfl⟩
        · obtain ⟨j, hj⟩ := List.mem_iff_getElem?.mp hv
          by_cases hji : j = i
          · rw [hji, hi] at hj
            cases hj
            rfl
          · refine hnone v (List.mem_iff_getElem?.mpr ⟨j, ?_⟩)
            dsimp only [State.setWriter]
            rw [Agents.getElem?_set hi, if_neg hji, hj]
        · exact Agents.forall_set (fun v hv => (h.writers v hv).congr rfl rfl rfl) trivial
      · cases hstep
  | writer i =>
      obtain ⟨w, hi, hw⟩ := Option.bind_eq_some_iff.mp hstep
      exact h.writerStep hi hspin hw
  | read i =>
      rw [nextSeqLock] at hstep
      split at hstep
      · cases hstep
        refine h.setReader (show s.times.length - 1 ≤ s.increments / 2 from ?_)
        rw [h.times]
        exact le_rfl
      · cases hstep
  | reader i =>
      obtain ⟨r, hi, hr⟩ := Option.bind_eq_some_iff.mp hstep
      exact h.readerStep hi hfew hr
  | vgetns i ns =>
      rw [nextSeqLock] at hstep
      split at hstep
      · rename_i start ts hi
        cases hstep
        have hknows : ReaderAt.Knows timespecAddNs s (.vgetns start ts) :=
          h.readers _ (List.mem_of_getElem? hi)
        exact h.setReader (show ReaderAt.Knows timespecAddNs s (.seqretry start ts ns) from hknows)
      · cases hstep

instance (s : State) : (r : ReaderAt) → Decidable (r.InTime s)
  | .seqretry _ _ _ => inferInstanceAs (Decidable (_ < _))
  | .idle => .isTrue trivial
  | .seqbegin _ => .isTrue trivial
  | .loadSec _ => .isTrue trivial
  | .loadNsec _ _ => .isTrue trivial
  | .vgetns _ _ => .isTrue trivial
  | .addNs _ _ _ => .isTrue trivial
  | .returned _ _ _ _ => .isTrue trivial

instance (s : State) : (a : SeqAction) → Decidable (FewWrites s a)
  | .reader i => inferInstanceAs (Decidable (∀ r ∈ s.readers[i]?, r.InTime s))
  | .write _ _ => .isTrue trivial
  | .writer _ => .isTrue trivial
  | .read _ => .isTrue trivial
  | .vgetns _ _ => .isTrue trivial

instance (s : State) : (a : SeqAction) → Decidable (SpinLock s a)
  | .writer i => inferInstanceAs (Decidable (∀ w ∈ s.writers[i]?, w.waits = true →
      ∀ w' ∈ s.writers, w'.hasLock = false))
  | .write _ _ => .isTrue trivial
  | .reader _ => .isTrue trivial
  | .read _ => .isTrue trivial
  | .vgetns _ _ => .isTrue trivial

end LinuxProgram.Utils.SeqLock
