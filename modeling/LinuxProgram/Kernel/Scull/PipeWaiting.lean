import LinuxProgram.Kernel.Scull.PipeFifo
import LinuxProgram.Lib.WakeUp

/-!
# No wake-up of scullpipe is lost

A task that waits tests the pointers without the semaphore, and others wake it after they have
given the semaphore back.

* `Asleep`, `WillWake` — a task that sleeps, and one that has moved a pointer and is to wake others.
* `Waits` — what the sleepers wait for.
* `Awake` — the invariant, for the readers or the writers.
* `pipe_noLostWakeUp` — who sleeps has a reason, or somebody will wake it.  For the writers, no file
  is opened while one sleeps: `open` empties the buffer and wakes nobody.
* `pipe_noDeadlock` — readers and writers do not wait for each other.
-/

namespace LinuxProgram.Kernel.Scull

open Lib CircularBuffer

variable {s s' : PipeSystem} {q : Fifo} {dev : ScullPipe} {n task : ℕ} {c : PipeCall}
  {readers : Bool}

/-- **A task sleeps**, and nobody has woken it. -/
def Asleep (readers : Bool) (x : Option PipeCall) : Prop :=
  ∃ c, x = some c ∧ c.op.isRead = readers ∧ c.stage = .sleep false

/-- **A task is to wake** the readers, or the writers. -/
def WillWake (readers : Bool) (x : Option PipeCall) : Prop :=
  ∃ c, x = some c ∧ c.op.isRead = !readers ∧ (c.stage = .wrap ∨ c.stage = .wake)

/-- **What they wait for** is not there. -/
def Waits (dev : ScullPipe) (readers : Bool) : Prop :=
  if readers then dev.rp = dev.wp else spacefree dev = 0

theorem mayGoOn_eq_false {op : Op} : mayGoOn dev op = false ↔ Waits dev op.isRead := by
  cases op with
  | read count => exact (decide_eq_false_iff_not.trans not_not).trans (if_pos rfl).symm.to_iff
  | write buf => exact (decide_eq_false_iff_not.trans not_not).trans (if_neg nofun).symm.to_iff

/-- **The invariant** for the readers, or the writers: if one of them sleeps, then what they wait
for is not there, or some task is about to wake them. -/
def Awake (s : PipeSystem) (readers : Bool) : Prop :=
  NoLostWakeUp (Asleep readers) (WillWake readers) (Waits s.dev readers) s.tasks

/-! ### Steps of a task

A task that moves a pointer makes true what others may wait for, and from then on, until it has
woken them, it is the one that will.  A task cannot go to sleep unnoticed in between, because it
stands in the queue before it tests what it waits for. -/

/-- A task that has no wake-up to do goes on. -/
theorem Awake.setTask (h : Awake s readers) {old new : Option PipeCall}
    (hold : s.tasks[task]? = some old) (hdue : ¬WillWake readers old)
    (hasleep : Asleep readers new → Waits s.dev readers) : Awake (s.setTask task new) readers :=
  h.set hold (fun hwill => absurd hwill hdue) (fun hsleep => .inr (hasleep hsleep)) .inl

theorem not_willWake (hwrap : c.stage ≠ .wrap) (hwake : c.stage ≠ .wake) :
    ¬WillWake readers (some c) := by
  rintro ⟨c', hc', -, hstage⟩
  rw [← Option.some.inj hc'] at hstage
  exact hstage.elim hwrap hwake

/-- Readers do not wake readers, and writers no writers. -/
theorem not_willWake_self (hkind : c.op.isRead = readers) : ¬WillWake readers (some c) := by
  rintro ⟨c', hc', hother, -⟩
  rw [← Option.some.inj hc', hkind] at hother
  exact Bool.eq_not.mp hother rfl

theorem not_asleep (hstage : c.stage ≠ .sleep false) : ¬Asleep readers (some c) := by
  rintro ⟨c', hc', -, hsleep⟩
  rw [← Option.some.inj hc'] at hsleep
  exact hstage hsleep

theorem not_asleep_none : ¬Asleep readers none := by
  rintro ⟨_, hc, -⟩
  cases hc

/-- Who moves a pointer did not have to wait, so that those that wait are the others. -/
theorem willWake_of_moves (hnot : ¬Waits dev c.op.isRead) (hwait : Waits dev readers) :
    WillWake readers (some { c with stage := .wrap }) := by
  refine ⟨_, rfl, Bool.eq_not.mpr fun heq => ?_, .inl rfl⟩
  rw [← heq] at hwait
  exact hnot hwait

/-- **A pointer moves.** -/
theorem Awake.move (h : Awake s readers) (hc : s.tasks[task]? = some (some c))
    (hstage : c.stage = .lock) (hnot : ¬Waits s.dev c.op.isRead) {dev' : ScullPipe} :
    NoLostWakeUp (Asleep readers) (WillWake readers) (Waits dev' readers)
      (s.tasks.set task (some { c with stage := .wrap })) := by
  have hdue : ¬WillWake readers (some c) :=
    not_willWake (by simp [hstage]) (by simp [hstage])
  exact NoLostWakeUp.set h hc (fun hwill => absurd hwill hdue)
    (fun hsleep => absurd hsleep (not_asleep (by simp)))
    fun hwait => .inr (willWake_of_moves hnot hwait)

/-- **A task gets the semaphore.** -/
theorem Awake.atLock (h : Awake s readers) (hpiped : Piped s q)
    (hc : s.tasks[task]? = some (some c)) (hstage : c.stage = .lock) (hsem : s.sem = none)
    (nonblock : Bool) (fault : Option (List UInt8)) :
    Awake (s.atLock task c nonblock fault) readers := by
  obtain ⟨n, block, hring, hsettled⟩ := hpiped.exists_ring hc
  obtain ⟨hrp, hwp⟩ := hsettled.free hsem
  have hdue : ¬WillWake readers (some c) :=
    not_willWake (by simp [hstage]) (by simp [hstage])
  have hgone : Awake (s.setTask task none) readers :=
    h.setTask hc hdue fun hsleep => absurd hsleep not_asleep_none
  have hwait : Awake (s.setTask task (some { c with stage := .enqueue })) readers :=
    h.setTask hc hdue fun hsleep => absurd hsleep (not_asleep (by simp))
  obtain ⟨f, op, stage⟩ := c
  cases op with
  | read count =>
      rw [PipeSystem.atLock]
      dsimp only
      rcases readAtLock_spec hring hrp hwp count fault.isSome with
        ⟨hwaits, -⟩ | hfault | ⟨bytes, rest, -, hne, -, -, hdone, -⟩
      · rw [hwaits]
        dsimp only
        split
        · exact hgone
        · exact hwait
      · rw [hfault]
        exact hgone
      · have hnot : ¬Waits s.dev true := fun heq =>
          hne ((empty_iff hring.toPointers hrp hwp).mpr heq)
        rw [hdone]
        exact h.move hc hstage hnot
  | write buf =>
      rw [PipeSystem.atLock]
      dsimp only
      rcases writeAtLock_spec hring hrp hwp buf fault with
        ⟨hwaits, -⟩ | ⟨block', -, hfault, -⟩ | ⟨bytes, block', -, -, -, -, hdone, -⟩
      · rw [hwaits]
        dsimp only
        split
        · exact hgone
        · exact hwait
      · rw [hfault]
        exact hgone
      · have hnot : ¬Waits s.dev false := fun (heq : spacefree s.dev = 0) => by
          rw [writeAtLock, if_pos heq] at hdone
          cases hdone
        rw [hdone]
        exact h.move hc hstage hnot

/-- What a pointer that has come to the end hides. -/
theorem Waits.wrapped (hpointers : Pointers dev n q) (hreader : readers = true → dev.wp < n)
    (hwriter : readers = false → dev.rp < n) (h : Waits dev readers) :
    Waits (if readers then { dev with rp := dev.wrapped dev.rp }
      else { dev with wp := dev.wrapped dev.wp }) readers := by
  cases readers with
  | true =>
      have heq : dev.rp = dev.wp := h
      have hwrapped : dev.wrapped dev.rp = dev.rp := by
        rw [wrapped_eq hpointers, wrap_of_lt (heq ▸ hreader rfl)]
      rw [if_pos rfl, hwrapped]
      exact h
  | false =>
      have hfull : spacefree dev = 0 := h
      have hrp := hwriter rfl
      have hwp := hpointers.wp
      rw [if_neg Bool.false_ne_true, wrapped_eq hpointers]
      rcases hwp.lt_or_eq with hlt | heq
      · rw [wrap_of_lt hlt]
        exact h
      · have hrp1 : dev.rp = 1 := by
          rw [spacefree, if_neg (by omega), heq, hpointers.buffersize, add_sub_cancel_right,
            Int.tmod_eq_emod_of_nonneg (by omega), Int.emod_eq_of_lt (by omega) (by omega)] at hfull
          omega
        rw [heq, wrap, if_pos rfl]
        show spacefree { dev with wp := 0 } = 0
        rw [spacefree, hrp1, hpointers.buffersize]
        dsimp only
        rw [if_neg one_ne_zero, Nat.cast_one, Nat.cast_zero, sub_zero,
          Int.tmod_eq_emod_of_nonneg (by omega), Int.add_emod_right,
          Int.emod_eq_of_lt (by omega) (by omega), sub_self]

/-- Waking some tasks puts none to sleep, and takes no duty away. -/
theorem Awake.wakeUp (h : Awake s readers) (others : Bool) :
    NoLostWakeUp (Asleep readers) (WillWake readers) (Waits s.dev readers)
      (s.tasks.map (Option.map (PipeCall.wakeUp others))) := by
  refine NoLostWakeUp.map h (fun x => ?_) fun x => ?_
  · rintro ⟨c', hc', hkind, hstage⟩
    obtain ⟨c, rfl, rfl⟩ := Option.map_eq_some_iff.mp hc'
    obtain ⟨-, hop, -⟩ := wakeUp_eq others c
    refine ⟨c, rfl, hop ▸ hkind, ?_⟩
    rw [PipeCall.wakeUp] at hstage
    split at hstage
    · split at hstage
      · cases hstage
      · cases hstage
      · exact hstage
    · exact hstage
  · rintro ⟨c, rfl, hkind, hstage⟩
    obtain ⟨-, hop, -⟩ := wakeUp_eq others c
    refine ⟨c.wakeUp others, rfl, hop.symm ▸ hkind, ?_⟩
    rw [PipeCall.wakeUp]
    rcases hstage with hstage | hstage
    · rw [hstage]
      split
      · exact .inl hstage
      · exact .inl hstage
    · rw [hstage]
      split
      · exact .inr hstage
      · exact .inr hstage

/-- Of those that are woken none sleeps. -/
theorem awake_wakeUp (readers : Bool) (tasks : List (Option PipeCall)) :
    ∀ x ∈ tasks.map (Option.map (PipeCall.wakeUp readers)), ¬Asleep readers x := by
  rintro x hx ⟨c', rfl, hkind, hstage⟩
  obtain ⟨y, -, hy⟩ := List.mem_map.mp hx
  obtain ⟨c, rfl, rfl⟩ := Option.map_eq_some_iff.mp hy
  obtain ⟨-, hop, -⟩ := wakeUp_eq readers c
  rw [PipeCall.wakeUp, if_pos (hop ▸ hkind)] at hstage
  split at hstage
  · cases hstage
  · cases hstage
  · rename_i hsleep
    exact hsleep false hstage

/-- **A step of a call.** -/
theorem Awake.stepCall (h : Awake s readers) (hpiped : Piped s q)
    (hc : s.tasks[task]? = some (some c)) {nonblock : Bool} {fault : Option (List UInt8)}
    (hstep : s.stepCall task c nonblock fault = some s') : Awake s' readers := by
  cases hstage : c.stage with
  | lock =>
      rw [PipeSystem.stepCall, hstage] at hstep
      dsimp only at hstep
      split at hstep
      · cases hstep
      · rename_i hsem
        cases hstep
        exact h.atLock hpiped hc hstage (Option.not_isSome_iff_eq_none.mp hsem) nonblock fault
  | wrap =>
      rw [PipeSystem.stepCall, hstage] at hstep
      cases hstep
      obtain ⟨n, block, hring, hsettled⟩ := hpiped.exists_ring hc
      have hat : AtWrap s.tasks task c.op.isRead := ⟨c, hc, hstage, rfl⟩
      by_cases hkind : c.op.isRead = readers
      · refine NoLostWakeUp.set h hc (fun hwill => absurd hwill (not_willWake_self hkind))
          (fun hsleep => absurd hsleep (not_asleep (by simp))) fun hwait => .inl ?_
        rw [hkind] at hat ⊢
        exact hwait.wrapped hring.toPointers (fun hread => hsettled.reader task (hread ▸ hat))
          fun hwrite => hsettled.writer task (hwrite ▸ hat)
      · exact NoLostWakeUp.of_due (Agents.mem_set_self hc _)
          ⟨_, rfl, Bool.eq_not.mpr hkind, .inr rfl⟩
  | wake =>
      rw [PipeSystem.stepCall, hstage] at hstep
      cases hstep
      by_cases hkind : c.op.isRead = readers
      · have hgone : Awake (s.setTask task none) readers :=
          h.setTask hc (not_willWake_self hkind) fun hsleep => absurd hsleep not_asleep_none
        exact hgone.wakeUp _
      · obtain rfl : readers = !c.op.isRead := Bool.eq_not.mpr (Ne.symm hkind)
        exact NoLostWakeUp.of_awake (awake_wakeUp _ _)
  | enqueue =>
      rw [PipeSystem.stepCall, hstage] at hstep
      cases hstep
      exact h.setTask hc (not_willWake (by simp [hstage]) (by simp [hstage]))
        fun hsleep => absurd hsleep (not_asleep (by simp))
  | test woken =>
      have hdue : ¬WillWake readers (some c) :=
        not_willWake (by simp [hstage]) (by simp [hstage])
      rw [PipeSystem.stepCall, hstage] at hstep
      dsimp only at hstep
      split at hstep
      · cases hstep
        exact h.setTask hc hdue fun hsleep => absurd hsleep (not_asleep (by simp))
      · rename_i hnot
        cases hstep
        refine h.setTask hc hdue ?_
        rintro ⟨c', hc', hkind, -⟩
        rw [← Option.some.inj hc'] at hkind
        rw [← hkind]
        exact mayGoOn_eq_false.mp (Bool.eq_false_of_not_eq_true hnot)
  | sleep woken =>
      rw [PipeSystem.stepCall, hstage] at hstep
      dsimp only at hstep
      split at hstep
      · cases hstep
        exact h.setTask hc (not_willWake (by simp [hstage]) (by simp [hstage]))
          fun hsleep => absurd hsleep (not_asleep (by split <;> simp))
      · cases hstep

/-! ### All steps

An `open` empties the buffer, which is what writers wait for, and wakes nobody.  For the writers
it is therefore left out by the condition `Patient` while one of them sleeps; for the readers the
runs are those in which the device is a queue. -/

/-- **A file is opened** while no writer sleeps. -/
def NoSleepingWriter (s : PipeSystem) : PipeAction → Prop
  | .openFile _ _ => ∀ x ∈ s.tasks, ¬Asleep false x
  | _ => True

/-- **The step lemma.** -/
theorem Awake.next (h : Awake s readers) (hpiped : Piped s q) {a : PipeAction}
    (hopen : readers = false → NoSleepingWriter s a) (hstep : nextPipe a s = some s') :
    Awake s' readers := by
  rw [nextPipe, hpiped.alive, if_neg Bool.false_ne_true] at hstep
  cases a with
  | ioctl caller cmd arg =>
      cases hstep
      exact h
  | openFile file room =>
      rw [PipeSystem.act] at hstep
      split at hstep
      · cases hstep
      · split at hstep
        · cases hstep
          exact h
        · rename_i dev m hdev
          obtain ⟨_, -, heq⟩ := Option.map_eq_some_iff.mp hdev
          obtain ⟨rfl, -⟩ := Prod.mk.inj heq
          cases hstep
          cases readers with
          | true => exact h.imp fun _ => rfl
          | false => exact NoLostWakeUp.of_awake (hopen rfl)
  | release f =>
      rw [PipeSystem.act] at hstep
      split at hstep
      · split at hstep
        · cases hstep
        · rename_i file hfile hfree
          obtain ⟨⟨dev, m⟩, hrelease⟩ : ∃ r, scullPRelease s.dev file ⟨s.ledger, 0⟩ = r := ⟨_, rfl⟩
          rw [hrelease] at hstep
          cases hstep
          obtain ⟨⟨hsize, hrp, hwp⟩, -⟩ := scullPRelease_spec hrelease hpiped.accounted
          refine h.imp fun hwait => ?_
          rw [Waits, spacefree] at hwait ⊢
          dsimp only
          rw [hsize, hrp, hwp]
          exact hwait
      · cases hstep
  | poll f =>
      rw [PipeSystem.act] at hstep
      split at hstep
      · split at hstep
        · cases hstep
        · cases hstep
          exact h
      · cases hstep
  | call task f op =>
      rw [PipeSystem.act] at hstep
      split at hstep
      · rename_i htask
        split at hstep
        · cases hstep
          refine h.setTask htask ?_ fun hsleep => absurd hsleep (not_asleep (by simp))
          rintro ⟨_, hc, -⟩
          cases hc
        · cases hstep
      · cases hstep
  | step task fault =>
      rw [PipeSystem.act] at hstep
      split at hstep
      · rename_i c hc
        split at hstep
        · exact h.stepCall hpiped hc hstep
        · cases hstep
      · cases hstep
  | signal task =>
      rw [PipeSystem.act] at hstep
      split at hstep
      · rename_i c hc
        split at hstep
        · rename_i hwaits
          cases hstep
          refine h.setTask hc (not_willWake (fun hstage => ?_) fun hstage => ?_) fun hsleep =>
            absurd hsleep not_asleep_none
          · rw [hstage] at hwaits
            cases hwaits
          · rw [hstage] at hwaits
            cases hwaits
        · cases hstep
      · cases hstep

theorem awake_start (params : Params) (tasks : ℕ) (readers : Bool) :
    Awake (.start params tasks) readers := by
  refine NoLostWakeUp.of_awake fun x hx => ?_
  rw [(List.mem_replicate.mp hx).2]
  exact not_asleep_none

/-- What the sleepers wait for, as the queue says it. -/
theorem Waits.queue (hpointers : Pointers dev n q) (h : Waits dev readers) :
    if readers then q.queue = [] else q.queue.length = q.capacity := by
  have hlength := hpointers.length
  have hcapacity := hpointers.capacity
  have hpos := hpointers.pos
  have hrp := hpointers.rp
  have hwp := hpointers.wp
  cases readers with
  | true =>
      have heq : dev.rp = dev.wp := h
      rw [heq, CircularBuffer.free, if_pos le_rfl] at hlength
      rw [if_pos rfl, ← List.length_eq_zero_iff]
      omega
  | false =>
      have hfull : spacefree dev = 0 := h
      have hfree : 1 < n → CircularBuffer.free n (wrap n dev.rp) (wrap n dev.wp) = 0 := fun hn => by
        rcases hwp.lt_or_eq with hwplt | hwpeq
        · rcases hrp.lt_or_eq with hrplt | hrpeq
          · rw [spacefree_eq hpointers hrplt hwplt] at hfull
            rw [wrap_of_lt hrplt, wrap_of_lt hwplt]
            exact Int.natCast_eq_zero.mp hfull
          · rw [spacefree, if_neg (by omega), hrpeq, hpointers.buffersize, add_sub_right_comm,
              Int.tmod_eq_emod_of_nonneg (by omega), Int.add_emod_right] at hfull
            rw [hrpeq, wrap, if_pos rfl, wrap_of_lt hwplt, CircularBuffer.free,
              if_pos (Nat.zero_le _)]
            rcases Nat.eq_zero_or_pos dev.wp with hzero | hwppos
            · rw [hzero, Nat.cast_zero, sub_zero, Int.emod_self] at hfull
              omega
            · rw [Int.emod_eq_of_lt (by omega) (by omega)] at hfull
              omega
        · rw [spacefree, hwpeq, hpointers.buffersize, add_sub_cancel_right] at hfull
          split at hfull
          · omega
          · rw [Int.tmod_eq_emod_of_nonneg (by omega), Int.emod_eq_of_lt (by omega) (by omega)]
              at hfull
            have hrp1 : dev.rp = 1 := by omega
            rw [hrp1, hwpeq, wrap_of_lt hn, wrap, if_pos rfl, CircularBuffer.free,
              if_neg (by omega)]
      rw [if_neg Bool.false_ne_true]
      omega

/-- **A run in which nobody is forgotten.**  Every `open` is `Roomy`: it finds a positive
`scull_p_buffer` below `2 ^ 31`, and the buffer, if there is one already, is at least that long.
If the run is about the writers, no file is opened while one of them sleeps, because `scull_p_open`
empties the buffer and wakes nobody. -/
def Patient (readers : Bool) (s : PipeSystem) (a : PipeAction) : Prop :=
  Roomy s a ∧ (readers = false → NoSleepingWriter s a)

theorem exists_awake {params : Params} {tasks : ℕ}
    (h : (pipeSystem params tasks).ReachableWhile (Patient readers) s) :
    ∃ q, History FifoAnswers ⟨0, []⟩ s.events q ∧ Piped s q ∧ Awake s readers := by
  refine StepSystem.ReachableWhile.invariant
    (I := fun s => ∃ q, History FifoAnswers ⟨0, []⟩ s.events q ∧ Piped s q ∧ Awake s readers)
    (fun s hs => ?_) (fun s a s' ⟨q, hhistory, hpiped, hawake⟩ hok hstep => ?_) h
  · rw [show s = _ from hs]
    exact ⟨_, .nil, piped_start params tasks, awake_start params tasks readers⟩
  · obtain ⟨more, q', hevents, hmore, hpiped'⟩ := hpiped.next hok.1 hstep
    rw [hevents]
    exact ⟨q', hhistory.append hmore, hpiped', hawake.next hpiped hok.2 hstep⟩

/-- **No wake-up is lost**: if a reader sleeps, the queue is empty or a writer is to wake it, and if
a writer sleeps, the queue is full or a reader is to wake it. -/
theorem pipe_noLostWakeUp {params : Params} {tasks : ℕ}
    (h : (pipeSystem params tasks).ReachableWhile (Patient readers) s) :
    ∃ q, History FifoAnswers ⟨0, []⟩ s.events q ∧ ((∃ x ∈ s.tasks, Asleep readers x) →
      (if readers then q.queue = [] else q.queue.length = q.capacity) ∨
        ∃ x ∈ s.tasks, WillWake readers x) := by
  obtain ⟨q, hhistory, hpiped, hawake⟩ := exists_awake h
  refine ⟨q, hhistory, fun hsleep => (hawake hsleep).imp_left fun hwait => ?_⟩
  obtain ⟨x, hx, c, rfl, -⟩ := hsleep
  obtain ⟨task, hc⟩ := List.mem_iff_getElem?.mp hx
  obtain ⟨n, block, hring, -⟩ := hpiped.exists_ring hc
  exact hwait.queue hring.toPointers

instance : DecidablePred (Asleep readers)
  | none => .isFalse not_asleep_none
  | some c => decidable_of_iff (c.op.isRead = readers ∧ c.stage = .sleep false)
      ⟨fun h => ⟨c, rfl, h⟩, fun ⟨_, hc, h⟩ => Option.some.inj hc ▸ h⟩

instance (s : PipeSystem) : (a : PipeAction) → Decidable (NoSleepingWriter s a)
  | .openFile _ _ => inferInstanceAs (Decidable (∀ x ∈ s.tasks, ¬Asleep false x))
  | .ioctl _ _ _ => .isTrue trivial
  | .release _ => .isTrue trivial
  | .poll _ => .isTrue trivial
  | .call _ _ _ => .isTrue trivial
  | .step _ _ => .isTrue trivial
  | .signal _ => .isTrue trivial

/-- A writer fills the buffer, and sleeps when it writes more. -/
def fullRun : List PipeAction :=
  let steps : List PipeAction := List.replicate 3 (.step 0 none)
  [.openFile ⟨true, true, false⟩ 1, .call 0 0 (.write [1, 2, 3, 4])] ++ steps ++
    [.call 0 0 (.write [5])] ++ steps

theorem fullRun_eq :
    (fullRun.foldlM (fun s a => if Roomy s a ∧ NoSleepingWriter s a then nextPipe a s else none)
      (.start ⟨4000, 1000, 4⟩ 2)).map (fun s => (s.dev.buffersize, s.tasks)) =
    some (4, [some ⟨0, .write [5], .sleep false⟩, none]) := by
  decide +kernel

theorem fullRun_reachable : ∃ s,
    (pipeSystem ⟨4000, 1000, 4⟩ 2).ReachableWhile (Patient false) s ∧ s.dev.buffersize = 4 ∧
      s.tasks = [some ⟨0, .write [5], .sleep false⟩, none] := by
  obtain ⟨s, hrun, hs⟩ := Option.map_eq_some_iff.mp fullRun_eq
  refine ⟨s, StepSystem.ReachableWhile.foldlM (.init rfl) _ (fun a _ t t' hnext => ?_) hrun,
    (Prod.mk.inj hs).1, (Prod.mk.inj hs).2⟩
  split at hnext
  · rename_i hok
    exact ⟨⟨hok.1, fun _ => hok.2⟩, hnext⟩
  · cases hnext

/-- A reader sleeps at the empty buffer.  Then a writer puts two bytes there, and is to wake it. -/
def emptyRun : List PipeAction :=
  [.openFile ⟨true, true, false⟩ 1, .call 0 0 (.read 2)] ++ List.replicate 3 (.step 0 none) ++
    [.call 1 0 (.write [1, 2])] ++ List.replicate 2 (.step 1 none)

theorem emptyRun_eq :
    (emptyRun.foldlM (fun s a => if Roomy s a then nextPipe a s else none)
      (.start ⟨4000, 1000, 4⟩ 2)).map PipeSystem.tasks =
    some [some ⟨0, .read 2, .sleep false⟩, some ⟨0, .write [1, 2], .wake⟩] := by
  decide +kernel

theorem emptyRun_reachable : ∃ s,
    (pipeSystem ⟨4000, 1000, 4⟩ 2).ReachableWhile (Patient true) s ∧
      s.tasks = [some ⟨0, .read 2, .sleep false⟩, some ⟨0, .write [1, 2], .wake⟩] := by
  obtain ⟨s, hrun, hs⟩ := Option.map_eq_some_iff.mp emptyRun_eq
  refine ⟨s, StepSystem.ReachableWhile.foldlM (.init rfl) _ (fun a _ t t' hnext => ?_) hrun, hs⟩
  split at hnext
  · rename_i hok
    exact ⟨⟨hok, fun hwriters => absurd hwriters Bool.true_eq_false.mp⟩, hnext⟩
  · cases hnext

/-- A writer that sleeps at the full buffer, and a reader that is to be woken. -/
theorem pipe_noLostWakeUp_full : (∃ s,
    (pipeSystem ⟨4000, 1000, 4⟩ 2).ReachableWhile (Patient false) s ∧
    (∃ x ∈ s.tasks, Asleep false x) ∧
    ∃ q, History FifoAnswers ⟨0, []⟩ s.events q ∧ ((∃ x ∈ s.tasks, Asleep false x) →
      (if false then q.queue = [] else q.queue.length = q.capacity) ∨
        ∃ x ∈ s.tasks, WillWake false x)) ∧
    ∃ s, (pipeSystem ⟨4000, 1000, 4⟩ 2).ReachableWhile (Patient true) s ∧
      (∃ x ∈ s.tasks, Asleep true x) ∧
      ∃ q, History FifoAnswers ⟨0, []⟩ s.events q ∧ ((∃ x ∈ s.tasks, Asleep true x) →
        (if true then q.queue = [] else q.queue.length = q.capacity) ∨
          ∃ x ∈ s.tasks, WillWake true x) := by
  refine ⟨?_, ?_⟩
  · obtain ⟨s, hreach, -, htasks⟩ := fullRun_reachable
    exact ⟨s, hreach, by rw [htasks]; decide, pipe_noLostWakeUp hreach⟩
  · obtain ⟨s, hreach, htasks⟩ := emptyRun_reachable
    exact ⟨s, hreach, by rw [htasks]; decide, pipe_noLostWakeUp hreach⟩

/-- **Readers and writers do not wait for each other**: in a buffer of two bytes or more they cannot
all sleep. -/
theorem pipe_noDeadlock {params : Params} {tasks : ℕ}
    (h : (pipeSystem params tasks).ReachableWhile (Patient false) s)
    (hsize : 1 < s.dev.buffersize)
    (hasleep : ∀ x ∈ s.tasks, x = none ∨ ∃ readers, Asleep readers x) :
    (∀ x ∈ s.tasks, ¬Asleep true x) ∨ ∀ x ∈ s.tasks, ¬Asleep false x := by
  have hreaders : (pipeSystem params tasks).ReachableWhile (Patient true) s :=
    h.invariant (fun _ hs => .init hs) fun _ _ _ hreach hok hstep =>
      hreach.step ⟨hok.1, fun hread => absurd hread Bool.true_eq_false.mp⟩ hstep
  obtain ⟨q, -, hpiped, hwriters⟩ := exists_awake h
  obtain ⟨_, -, -, hreaders⟩ := exists_awake hreaders
  have hwakes : ∀ readers, ¬∃ x ∈ s.tasks, WillWake readers x := by
    rintro readers ⟨x, hx, c, rfl, -, hstage⟩
    rcases hasleep _ hx with hnone | ⟨_, c', hc', -, hsleep⟩
    · cases hnone
    · rw [Option.some.inj hc', hsleep] at hstage
      simp at hstage
  by_contra hboth
  obtain ⟨hread, hwrite⟩ := not_or.mp hboth
  simp only [not_forall, not_not] at hread hwrite
  obtain ⟨x, hx, hreader⟩ := hread
  obtain ⟨y, hy, hwriter⟩ := hwrite
  have hempty : s.dev.rp = s.dev.wp := (hreaders ⟨x, hx, hreader⟩).resolve_right (hwakes true)
  have hfull : spacefree s.dev = 0 := (hwriters ⟨y, hy, hwriter⟩).resolve_right (hwakes false)
  rw [spacefree, if_pos hempty] at hfull
  omega

theorem pipe_noDeadlock_full : ∃ s,
    (pipeSystem ⟨4000, 1000, 4⟩ 2).ReachableWhile (Patient false) s ∧
    (∃ x ∈ s.tasks, Asleep false x) ∧
    ((∀ x ∈ s.tasks, ¬Asleep true x) ∨ ∀ x ∈ s.tasks, ¬Asleep false x) := by
  obtain ⟨s, hreach, hsize, htasks⟩ := fullRun_reachable
  exact ⟨s, hreach, by rw [htasks]; decide,
    pipe_noDeadlock hreach (by rw [hsize]; decide) (by rw [htasks]; decide)⟩

end LinuxProgram.Kernel.Scull
