import LinuxProgram.Kernel.Scull.Access
import LinuxProgram.Lib.WakeUp

/-!
# Nobody opens a device of another user

The rules of `access.c`, in every order of the calls.

* `single_open` — `scullsingle` is open at most once, and free again when nobody has it.
* `Held` — the files that are open are counted, and each was opened for the owner.
* `uid_oneUser` — `sculluid` has one user at a time.
* `wuid_noLostWakeUp` — so has `scullwuid`, and who sleeps in `scull_w_open` may not have the
  device, or will be woken.
-/

namespace LinuxProgram.Kernel.Scull

open Lib

variable {i n : ℕ} {cred : Cred} {g : Grab}

/-! ### scullsingle

An `open` takes one from the counter and looks afterwards whether it was the first; if not, it
gives it back in a step of its own.  In between the counter is lower than the number of open files
explains, so the invariant counts the tasks that are about to give one back as well. -/

/-- **How many tasks** are at a stage. -/
def SingleOpen.number (s : SingleOpen) (stage : SingleStage) : ℕ := s.tasks.count (some stage)

/-- **The invariant**: who has taken one away is in the file, or will give it back. -/
structure SingleInv (s : SingleOpen) : Prop where
  available : s.scullSAvailable + s.number .opened + s.number .undo = 1
  opened : s.number .opened ≤ 1

/-- A task goes on. -/
theorem number_set {s : SingleOpen} {old : Option SingleStage} (hold : s.tasks[i]? = some old)
    (x : ℤ) (new : Option SingleStage) (stage : SingleStage) :
    (s.set i x new).number stage + (if old = some stage then 1 else 0) =
      s.number stage + if new = some stage then 1 else 0 := by
  have hset := Agents.countP_set hold new (· == some stage)
  simpa only [SingleOpen.number, SingleOpen.set, List.count, beq_iff_eq] using hset

theorem SingleInv.next {s s' : SingleOpen} (h : SingleInv s) {a : SingleAction}
    (hstep : nextSingle a s = some s') : SingleInv s' := by
  obtain ⟨havailable, hopened⟩ := h
  cases a with
  | call task =>
      rw [nextSingle] at hstep
      split at hstep
      · rename_i htask
        cases hstep
        have hopen := number_set htask s.scullSAvailable (some .dec) .opened
        have hundo := number_set htask s.scullSAvailable (some .dec) .undo
        simp at hopen hundo
        exact ⟨by rw [hopen, hundo]; exact havailable, by rw [hopen]; exact hopened⟩
      · cases hstep
  | step task =>
      rw [nextSingle] at hstep
      split at hstep
      · rename_i htask
        cases hstep
        have hopen := fun x stage => number_set htask x (some stage) .opened
        have hundo := fun x stage => number_set htask x (some stage) .undo
        split
        · rename_i hzero
          have hopen := hopen (s.scullSAvailable - 1) .opened
          have hundo := hundo (s.scullSAvailable - 1) .opened
          simp at hopen hundo
          refine ⟨?_, ?_⟩
          · rw [hopen, hundo, SingleOpen.set]
            push_cast
            omega
          · rw [hopen]
            omega
        · have hopen := hopen (s.scullSAvailable - 1) .undo
          have hundo := hundo (s.scullSAvailable - 1) .undo
          simp at hopen hundo
          refine ⟨?_, by rw [hopen]; exact hopened⟩
          rw [hopen, hundo, SingleOpen.set]
          push_cast
          omega
      · rename_i htask
        cases hstep
        have hopen := number_set htask (s.scullSAvailable + 1) none .opened
        have hundo := number_set htask (s.scullSAvailable + 1) none .undo
        simp at hopen hundo
        refine ⟨?_, by rw [hopen]; exact hopened⟩
        rw [hopen]
        dsimp only [SingleOpen.set] at hundo ⊢
        omega
      · rename_i htask
        cases hstep
        have hopen := number_set htask (s.scullSAvailable + 1) none .opened
        have hundo := number_set htask (s.scullSAvailable + 1) none .undo
        simp at hopen hundo
        refine ⟨?_, by omega⟩
        rw [hundo]
        dsimp only [SingleOpen.set] at hopen ⊢
        omega
      · cases hstep

/-- **`scullsingle` is open at most once.**  Who calls `atomic_dec_and_test` gets the device if and
only if nobody has it, and nobody is about to give back what a failed call has taken; in
particular it is free again as soon as all calls are over and the file is closed. -/
theorem single_open {s : SingleOpen} (h : (singleSystem n).Reachable s) :
    s.number .opened ≤ 1 ∧ s.scullSAvailable = 1 - s.number .opened - s.number .undo ∧
      ∀ i, s.tasks[i]? = some (some .dec) →
        ((nextSingle (.step i) s).any (fun s' => s'.tasks[i]? = some (some .opened)) ↔
          s.number .opened = 0 ∧ s.number .undo = 0) := by
  have hinv : SingleInv s := by
    refine StepSystem.ReachableWhile.invariant (I := SingleInv) (fun s hs => ?_)
      (fun _ _ _ h _ hstep => h.next hstep) h
    have hnone : ∀ stage, s.number stage = 0 := fun stage => by
      rw [show s = _ from hs]
      exact List.count_eq_zero.mpr fun hmem => by cases (List.mem_replicate.mp hmem).2
    exact ⟨by rw [hnone, hnone, show s = _ from hs]; rfl, by rw [hnone]; exact zero_le_one⟩
  obtain ⟨havailable, hopened⟩ := hinv
  refine ⟨hopened, by omega, fun i hi => ?_⟩
  rw [nextSingle, hi]
  dsimp only
  rw [Option.any_some, SingleOpen.set, decide_eq_true_iff, Agents.getElem?_set hi, if_pos rfl]
  split
  · exact iff_of_true rfl (by omega)
  · exact iff_of_false (by simp) (by omega)

/-- One task has the file, one is about to give back what it has taken, and one comes then. -/
def singleRun : List SingleAction := [.call 0, .step 0, .call 1, .step 1, .call 2]

theorem singleRun_eq : singleRun.foldlM (fun s a => nextSingle a s) ⟨1, [none, none, none]⟩ =
    some ⟨-1, [some .opened, some .undo, some .dec]⟩ := by
  decide

theorem single_open_run : ∃ s : SingleOpen, (singleSystem 3).Reachable s ∧ s.number .opened = 1 ∧
    s.number .opened ≤ 1 ∧ s.scullSAvailable = 1 - s.number .opened - s.number .undo ∧
      ∀ i, s.tasks[i]? = some (some .dec) →
        ((nextSingle (.step i) s).any (fun s' => s'.tasks[i]? = some (some .opened)) ↔
          s.number .opened = 0 ∧ s.number .undo = 0) := by
  have hreach : (singleSystem 3).Reachable _ :=
    StepSystem.reachable_foldlM (.init rfl) singleRun singleRun_eq
  exact ⟨_, hreach, rfl, single_open hreach⟩

/-! ### The owner

`sculluid` and `scullwuid` let in the user who has the device, who did `su` to that user, and who
may override permissions.  The owner is set by the first `open` and stays until the last file is
closed, so it is enough to know of every open file that it was available for this owner. -/

/-- A caller that may have what the owner has. -/
def Cred.mayShare (cred : Cred) (owner : ℕ) : Prop :=
  owner = cred.uid ∨ owner = cred.euid ∨ cred.capDacOverride = true

/-- A caller that is only itself. -/
def Cred.Plain (cred : Cred) : Prop := cred.euid = cred.uid ∧ cred.capDacOverride = false

/-- **The files that are open** are counted, and each of them was opened for the owner. -/
structure Held (g : Grab) (files : List (Option Cred)) : Prop where
  count : g.count = files.countP Option.isSome
  owner : ∀ cred, some cred ∈ files → cred.mayShare g.owner

theorem available_iff : scullWAvailable g cred = true ↔ g.count = 0 ∨ cred.mayShare g.owner := by
  simp only [scullWAvailable, Cred.mayShare, Bool.or_eq_true, decide_eq_true_eq, or_assoc]

theorem scullUOpen_eq : scullUOpen g cred = if scullWAvailable g cred then some (g.enter cred)
    else none := by
  rw [scullUOpen]
  by_cases h : scullWAvailable g cred
  · rw [if_pos h, if_neg]
    rw [available_iff, Cred.mayShare] at h
    rintro ⟨hcount, huid, heuid, hcap⟩
    rw [hcap] at h
    simp [hcount, huid, heuid] at h
  · rw [if_neg h, if_pos]
    rw [available_iff, Cred.mayShare] at h
    simpa only [not_or, Bool.not_eq_true] using h

namespace Held

variable {files : List (Option Cred)}

theorem init (n : ℕ) : Held ⟨0, 0⟩ (List.replicate n none) where
  count := by
    rw [List.countP_replicate]
    rfl
  owner cred h := by cases (List.mem_replicate.mp h).2

/-- **A file is opened** for a caller to which the device is available. -/
theorem enter (h : Held g files) (hi : files[i]? = some none)
    (havailable : scullWAvailable g cred) : Held (g.enter cred) (files.set i (some cred)) where
  count := by
    have hset := Agents.countP_set hi (some cred) Option.isSome
    rw [Option.isSome_none, if_neg Bool.false_ne_true, Nat.add_zero, Option.isSome_some,
      if_pos rfl] at hset
    rw [Grab.enter, hset, h.count]
    rfl
  owner cred' hmem := by
    rw [Grab.enter]
    dsimp only
    by_cases hcount : g.count = 0
    · have hnone : ∀ x ∈ files, ¬x.isSome := by
        have hzero := h.count
        rw [hcount] at hzero
        exact List.countP_eq_zero.mp (Int.natCast_eq_zero.mp hzero.symm)
      rw [if_pos hcount]
      rcases List.mem_or_eq_of_mem_set hmem with hmem | heq
      · exact absurd rfl (hnone _ hmem)
      · exact .inl (by rw [Option.some.inj heq])
    · rw [if_neg hcount]
      rcases List.mem_or_eq_of_mem_set hmem with hmem | heq
      · exact h.owner cred' hmem
      · rw [Option.some.inj heq]
        exact (available_iff.mp havailable).resolve_left hcount

/-- **A file is closed.** -/
theorem leave (h : Held g files) (hi : files[i]? = some (some cred)) :
    Held g.leave (files.set i none) where
  count := by
    have hset := Agents.countP_set hi none Option.isSome
    rw [Option.isSome_none, if_neg Bool.false_ne_true, Nat.add_zero, Option.isSome_some,
      if_pos rfl] at hset
    rw [Grab.leave, h.count, ← hset]
    push_cast
    ring
  owner cred' hmem := by
    rcases List.mem_or_eq_of_mem_set hmem with hmem | heq
    · exact h.owner cred' hmem
    · cases heq

/-- **Two plain users** do not have the device at the same time. -/
theorem same_user (h : Held g files) {cred' : Cred} (hmem : some cred ∈ files)
    (hmem' : some cred' ∈ files) (hplain : cred.Plain) (hplain' : cred'.Plain) :
    cred.uid = cred'.uid := by
  have hone : ∀ c : Cred, c.Plain → c.mayShare g.owner → g.owner = c.uid := fun c hc hshare => by
    rcases hshare with huid | heuid | hcap
    · exact huid
    · exact heuid.trans hc.1
    · rw [hc.2] at hcap
      cases hcap
  exact (hone cred hplain (h.owner cred hmem)).symm.trans
    (hone cred' hplain' (h.owner cred' hmem'))

end Held

theorem uid_held {s : UidDevice} (h : (uidSystem n).Reachable s) : Held s.grab s.files := by
  refine StepSystem.ReachableWhile.invariant (I := fun s => Held s.grab s.files) (fun s hs => ?_)
    (fun s a s' h _ hstep => ?_) h
  · rw [show s = _ from hs]
    exact .init n
  · cases a with
    | openFile file cred =>
        obtain hstep : nextUid (.openFile file cred) s = some s' := hstep
        rw [nextUid] at hstep
        split at hstep
        · rename_i hfile
          rw [scullUOpen_eq] at hstep
          split at hstep
          · cases hstep
            exact h
          · rename_i grab hgrab
            split at hgrab
            · rename_i havailable
              cases hgrab
              cases hstep
              exact h.enter hfile havailable
            · cases hgrab
        · cases hstep
    | release file =>
        obtain hstep : nextUid (.release file) s = some s' := hstep
        rw [nextUid] at hstep
        split at hstep
        · rename_i hfile
          cases hstep
          exact h.leave hfile
        · cases hstep

/-- **`sculluid` has one user at a time**: the files that are open are counted, each was opened for
the owner, and of users without privilege only one has any. -/
theorem uid_oneUser {s : UidDevice} (h : (uidSystem n).Reachable s) :
    Held s.grab s.files ∧ ∀ cred cred', some cred ∈ s.files → some cred' ∈ s.files →
      cred.Plain → cred'.Plain → cred.uid = cred'.uid :=
  ⟨uid_held h, fun _ _ hmem hmem' hplain hplain' =>
    (uid_held h).same_user hmem hmem' hplain hplain'⟩

/-- A user, one that did `su` to it and a third one. -/
def uidRun : List UidAction :=
  [.openFile 0 ⟨7, 7, false⟩, .openFile 1 ⟨8, 7, false⟩, .openFile 2 ⟨8, 8, false⟩]

theorem uidRun_eq : uidRun.foldlM (fun s a => nextUid a s) ⟨⟨0, 0⟩, [none, none, none]⟩ =
    some ⟨⟨2, 7⟩, [some ⟨7, 7, false⟩, some ⟨8, 7, false⟩, none]⟩ := by
  decide

theorem uid_oneUser_run : ∃ s : UidDevice, (uidSystem 3).Reachable s ∧ s.grab.count = 2 ∧
    Held s.grab s.files ∧ ∀ cred cred', some cred ∈ s.files → some cred' ∈ s.files →
      cred.Plain → cred'.Plain → cred.uid = cred'.uid := by
  have hreach : (uidSystem 3).Reachable _ :=
    StepSystem.reachable_foldlM (.init rfl) uidRun uidRun_eq
  exact ⟨_, hreach, rfl, uid_oneUser hreach⟩

/-! ### scullwuid

A caller that is not let in goes to sleep, and is to be woken when the device comes free.  The
last `close` and the wake-up are two steps, and another task may open the device between them; the
invariant allows for a sleeper that could go on only while some task still has to do the wake-up. -/

/-- The file that a task has open. -/
def WuidTask.file (t : WuidTask) : Option Cred := if t.stage = .opened then some t.cred else none

def WuidDevice.files (s : WuidDevice) : List (Option Cred) :=
  s.tasks.map fun x => x.bind WuidTask.file

/-- **A task sleeps** in a call with these credentials, and nobody has woken it. -/
def SleepsAs (cred : Cred) (x : Option WuidTask) : Prop :=
  ∃ t, x = some t ∧ t.cred = cred ∧ t.stage = .sleep false

/-- **A task is to wake** those that sleep. -/
def DueWake (x : Option WuidTask) : Prop := ∃ t, x = some t ∧ t.stage = .wake

/-- **The invariant.** The open files are those of the owner, and for the credentials of any caller:
if a task sleeps with them, then the device is not available with them, or some task is about to
wake all that sleep. -/
structure WuidInv (s : WuidDevice) : Prop where
  held : Held s.grab s.files
  awake : ∀ cred, NoLostWakeUp (SleepsAs cred) DueWake (scullWAvailable s.grab cred = false) s.tasks

variable {s s' : WuidDevice} {t : WuidTask} {old new : Option WuidTask}

theorem files_get (hi : s.tasks[i]? = some old) : s.files[i]? = some (old.bind WuidTask.file) := by
  rw [WuidDevice.files, List.getElem?_map, hi, Option.map_some]

/-- A task goes on, and nothing else happens. -/
theorem WuidInv.goes (h : WuidInv s) (hi : s.tasks[i]? = some old)
    (hfile : new.bind WuidTask.file = old.bind WuidTask.file) (hdue : ¬DueWake old)
    (hsleep : ∀ cred, SleepsAs cred new → scullWAvailable s.grab cred = false) :
    WuidInv (s.set i s.grab new) where
  held := by
    have hfiles : (s.set i s.grab new).files = s.files := Agents.map_set hi hfile
    rw [hfiles]
    exact h.held
  awake cred := (h.awake cred).set hi (fun hwill => absurd hwill hdue)
    (fun hsleeps => .inr (hsleep cred hsleeps)) .inl

/-- What is not available while a file is open is not when there is another one. -/
theorem Held.not_available_enter {files : List (Option Cred)} (h : Held g files) {cred' : Cred}
    (hnot : scullWAvailable g cred' = false) : scullWAvailable (g.enter cred) cred' = false := by
  have hcount : (0 : ℤ) ≤ g.count := by
    rw [h.count]
    exact Int.natCast_nonneg _
  rw [← Bool.not_eq_true, available_iff, not_or] at hnot ⊢
  refine ⟨by rw [Grab.enter]; dsimp only; omega, ?_⟩
  rw [Grab.enter, if_neg hnot.1]
  exact hnot.2

/-- **A task gets the device.** -/
theorem WuidInv.opens (h : WuidInv s) (hi : s.tasks[i]? = some (some t)) (hstage : t.stage = .lock)
    (havailable : scullWAvailable s.grab t.cred) :
    WuidInv (s.set i (s.grab.enter t.cred) (some { t with stage := .opened })) where
  held := by
    have hget := files_get hi
    rw [Option.bind_some, WuidTask.file, hstage, if_neg (by simp)] at hget
    have hfiles : (s.set i (s.grab.enter t.cred) (some { t with stage := .opened })).files =
        s.files.set i (some t.cred) := by
      rw [WuidDevice.files, WuidDevice.set, List.map_set, Option.bind_some, WuidTask.file,
        if_pos rfl]
      rfl
    rw [hfiles]
    exact h.held.enter hget havailable
  awake cred := by
    refine (h.awake cred).set hi ?_ ?_ fun hnot => .inl (h.held.not_available_enter hnot)
    · rintro ⟨t', ht', hwake⟩
      rw [← Option.some.inj ht', hstage] at hwake
      cases hwake
    · rintro ⟨t', ht', -, hsleep⟩
      rw [← Option.some.inj ht'] at hsleep
      cases hsleep

/-- **A file is closed**, and if it was the last one the others are to be woken. -/
theorem WuidInv.closes (h : WuidInv s) (hi : s.tasks[i]? = some (some t))
    (hstage : t.stage = .opened) :
    WuidInv (s.set i s.grab.leave
      (if s.grab.leave.count = 0 then some { t with stage := .wake } else none)) where
  held := by
    have hget := files_get hi
    rw [Option.bind_some, WuidTask.file, if_pos hstage] at hget
    have hfiles : (s.set i s.grab.leave
        (if s.grab.leave.count = 0 then some { t with stage := .wake } else none)).files =
          s.files.set i none := by
      rw [WuidDevice.files, WuidDevice.set, List.map_set]
      split
      · rw [Option.bind_some, WuidTask.file, if_neg (by simp)]
        rfl
      · rfl
    rw [hfiles]
    exact h.held.leave hget
  awake cred := by
    refine (h.awake cred).set hi ?_ ?_ fun hnot => ?_
    · rintro ⟨t', ht', hwake⟩
      rw [← Option.some.inj ht', hstage] at hwake
      cases hwake
    · rintro ⟨t', ht', -, hsleep⟩
      split at ht'
      · rw [← Option.some.inj ht'] at hsleep
        cases hsleep
      · cases ht'
    · by_cases hzero : s.grab.leave.count = 0
      · rw [if_pos hzero]
        exact .inr ⟨_, rfl, rfl⟩
      · refine .inl ?_
        rw [← Bool.not_eq_true, available_iff, not_or] at hnot ⊢
        exact ⟨hzero, hnot.2⟩

theorem wuid_wakeUp_eq (t : WuidTask) : t.wakeUp.file = t.file ∧ t.wakeUp.stage ≠ .sleep false := by
  obtain ⟨cred, nonblock, stage⟩ := t
  cases stage <;> simp [WuidTask.wakeUp, WuidTask.file]

/-- **All that sleep are woken.** -/
theorem WuidInv.wakes (h : WuidInv s) (hi : s.tasks[i]? = some (some t))
    (hstage : t.stage = .wake) :
    WuidInv ⟨s.grab, (s.tasks.set i none).map (Option.map WuidTask.wakeUp)⟩ where
  held := by
    have hset : (s.tasks.set i none).map (fun x => x.bind WuidTask.file) = s.files := by
      refine Agents.map_set hi ?_
      rw [Option.bind_some, WuidTask.file, hstage, if_neg (by simp), Option.bind_none]
    have hfiles : WuidDevice.files
        ⟨s.grab, (s.tasks.set i none).map (Option.map WuidTask.wakeUp)⟩ = s.files := by
      rw [← hset, WuidDevice.files, List.map_map]
      refine List.map_congr_left fun x _ => ?_
      cases x with
      | none => rfl
      | some t => exact (wuid_wakeUp_eq t).1
    rw [hfiles]
    exact h.held
  awake cred := by
    refine NoLostWakeUp.of_awake ?_
    rintro x hx ⟨t', rfl, -, hsleep⟩
    obtain ⟨y, -, hy⟩ := List.mem_map.mp hx
    obtain ⟨t, -, rfl⟩ := Option.map_eq_some_iff.mp hy
    exact (wuid_wakeUp_eq t).2 hsleep

/-- **A step of a task.** -/
theorem WuidInv.step (h : WuidInv s) (hi : s.tasks[i]? = some (some t))
    (hstep : s.step i t = some s') : WuidInv s' := by
  have hnotdue : t.stage ≠ .wake → ¬DueWake (some t) := fun hwake ⟨t', ht', hstage⟩ => by
    rw [← Option.some.inj ht'] at hstage
    exact hwake hstage
  -- between the stages of a task that waits no file is open
  have hgoes : ∀ stage, t.file = none → t.stage ≠ .wake → stage ≠ .opened →
      (stage = .sleep false → scullWAvailable s.grab t.cred = false) →
      WuidInv (s.set i s.grab (some { t with stage := stage })) :=
    fun stage hfile hwake hopened hsleep => by
      refine h.goes hi ?_ (hnotdue hwake) ?_
      · rw [Option.bind_some, Option.bind_some, hfile, WuidTask.file, if_neg hopened]
      · rintro cred ⟨t', ht', hcred, hstage⟩
        rw [← Option.some.inj ht'] at hcred hstage
        rw [← hcred]
        exact hsleep hstage
  rw [WuidDevice.step] at hstep
  cases hstage : t.stage with
  | lock =>
      have hfile : t.file = none := by simp [WuidTask.file, hstage]
      have hwake : t.stage ≠ .wake := by simp [hstage]
      rw [hstage] at hstep
      dsimp only at hstep
      split at hstep
      · rename_i havailable
        cases hstep
        exact h.opens hi hstage havailable
      · split at hstep
        · cases hstep
          refine h.goes hi (by rw [Option.bind_none, Option.bind_some, hfile]) (hnotdue hwake) ?_
          rintro _ ⟨_, hnone, -⟩
          cases hnone
        · cases hstep
          exact hgoes .enqueue hfile hwake (by simp) (by simp)
  | enqueue =>
      rw [hstage] at hstep
      cases hstep
      exact hgoes (.test false) (by simp [WuidTask.file, hstage]) (by simp [hstage]) (by simp)
        (by simp)
  | test woken =>
      have hfile : t.file = none := by simp [WuidTask.file, hstage]
      have hwake : t.stage ≠ .wake := by simp [hstage]
      rw [hstage] at hstep
      dsimp only at hstep
      split at hstep
      · cases hstep
        exact hgoes .lock hfile hwake (by simp) (by simp)
      · rename_i hnot
        cases hstep
        exact hgoes (.sleep woken) hfile hwake (by simp)
          fun _ => Bool.eq_false_of_not_eq_true hnot
  | sleep woken =>
      rw [hstage] at hstep
      dsimp only at hstep
      split at hstep
      · cases hstep
        exact hgoes .enqueue (by simp [WuidTask.file, hstage]) (by simp [hstage]) (by simp)
          (by simp)
      · cases hstep
  | opened =>
      rw [hstage] at hstep
      cases hstep
      exact h.closes hi hstage
  | wake =>
      rw [hstage] at hstep
      cases hstep
      exact h.wakes hi hstage

theorem WuidInv.next (h : WuidInv s) {a : WuidAction} (hstep : nextWuid a s = some s') :
    WuidInv s' := by
  cases a with
  | call task cred nonblock =>
      rw [nextWuid] at hstep
      split at hstep
      · rename_i hi
        cases hstep
        refine h.goes hi (by simp [WuidTask.file]) ?_ ?_
        · rintro ⟨_, hnone, -⟩
          cases hnone
        · rintro _ ⟨t', ht', -, hsleep⟩
          rw [← Option.some.inj ht'] at hsleep
          cases hsleep
      · cases hstep
  | step task =>
      rw [nextWuid] at hstep
      split at hstep
      · rename_i hi
        exact h.step hi hstep
      · cases hstep
  | signal task =>
      rw [nextWuid] at hstep
      split at hstep
      · rename_i t hi
        split at hstep
        · rename_i hwaits
          cases hstep
          refine h.goes hi ?_ ?_ ?_
          · rw [Option.bind_some, WuidTask.file, if_neg, Option.bind_none]
            intro hopened
            rw [hopened] at hwaits
            cases hwaits
          · rintro ⟨t', ht', hwake⟩
            rw [← Option.some.inj ht'] at hwake
            rw [hwake] at hwaits
            cases hwaits
          · rintro _ ⟨_, hnone, -⟩
            cases hnone
        · cases hstep
      · cases hstep

theorem wuid_inv (h : (wuidSystem n).Reachable s) : WuidInv s := by
  refine StepSystem.ReachableWhile.invariant (I := WuidInv) (fun s hs => ?_)
    (fun _ _ _ h _ hstep => h.next hstep) h
  rw [show s = _ from hs]
  refine ⟨?_, fun cred => NoLostWakeUp.of_awake fun x hx => ?_⟩
  · rw [WuidDevice.files, List.map_replicate, Option.bind_none]
    exact .init n
  · rw [(List.mem_replicate.mp hx).2]
    rintro ⟨_, hnone, -⟩
    cases hnone

/-- **`scullwuid` has one user at a time, and forgets nobody**: who sleeps may not share the device
with the owner of the files that are open, or somebody is to wake it. -/
theorem wuid_noLostWakeUp (h : (wuidSystem n).Reachable s) :
    Held s.grab s.files ∧ ∀ cred, (∃ x ∈ s.tasks, SleepsAs cred x) →
      ((∃ user, some user ∈ s.files) ∧ ¬cred.mayShare s.grab.owner) ∨ ∃ x ∈ s.tasks, DueWake x := by
  obtain ⟨hheld, hawake⟩ := wuid_inv h
  refine ⟨hheld, fun cred hsleep => (hawake cred hsleep).imp_left fun hnot => ?_⟩
  rw [← Bool.not_eq_true, available_iff, not_or, hheld.count] at hnot
  obtain ⟨hcount, hshare⟩ := hnot
  obtain ⟨x, hx, hsome⟩ := List.countP_pos_iff.mp (Nat.pos_of_ne_zero fun hzero => hcount (by
    rw [hzero]
    rfl))
  obtain ⟨user, rfl⟩ := Option.isSome_iff_exists.mp hsome
  exact ⟨⟨user, hx⟩, hshare⟩

/-- One user has the file, and another one waits. -/
def wuidRun : List WuidAction :=
  [.call 0 ⟨7, 7, false⟩ false, .step 0, .call 1 ⟨8, 8, false⟩ false, .step 1, .step 1, .step 1]

theorem wuidRun_eq : wuidRun.foldlM (fun s a => nextWuid a s) ⟨⟨0, 0⟩, [none, none]⟩ =
    some ⟨⟨1, 7⟩, [some ⟨⟨7, 7, false⟩, false, .opened⟩,
      some ⟨⟨8, 8, false⟩, false, .sleep false⟩]⟩ := by
  decide

theorem wuid_noLostWakeUp_run : ∃ s : WuidDevice, (wuidSystem 2).Reachable s ∧
    (∃ x ∈ s.tasks, SleepsAs ⟨8, 8, false⟩ x) ∧
    Held s.grab s.files ∧ ∀ cred, (∃ x ∈ s.tasks, SleepsAs cred x) →
      ((∃ user, some user ∈ s.files) ∧ ¬cred.mayShare s.grab.owner) ∨ ∃ x ∈ s.tasks, DueWake x := by
  have hreach : (wuidSystem 2).Reachable _ :=
    StepSystem.reachable_foldlM (.init rfl) wuidRun wuidRun_eq
  exact ⟨_, hreach, ⟨_, List.mem_cons_of_mem _ (List.mem_singleton_self _), _, rfl, rfl, rfl⟩,
    wuid_noLostWakeUp hreach⟩

end LinuxProgram.Kernel.Scull
