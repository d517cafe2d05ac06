import LinuxProgram.Binlog.LogInfoContainer
import LinuxProgram.Lib.Agents

/-!
# How many threads can be registered

`push` checks that there is a slot and reserves it in another step.  Calls that pass the
check while one slot is left all go on.

* `reservations`, `passed`, `commitings` — how many calls have reserved a slot, are
  about to, and have yet to commit.
* `Counts` — what is in `mSize`, in every run.
* `WithinCapacity` — no slot behind the array is reserved, and who is refused comes
  when all slots are.
* `Separated` — a call passes the check only if there is a slot left for it, besides
  those for the calls that have passed it.
* `push_withinCapacity` — in such runs the capacity is kept.
* `overrun` — 129 threads pass the check before any of them reserves a slot.
-/

namespace LinuxProgram.Binlog.Registry

open Lib

/-- The calls that have reserved a slot. -/
def reservations (pushes : List Push) : ℕ := pushes.countP fun p => p.pos.slot.isSome

/-- The calls between check and reservation. -/
def passed (pushes : List Push) : ℕ := pushes.countP fun p => p.pos = .reserving

/-- The calls between reservation and commit. -/
def commitings (pushes : List Push) : ℕ := pushes.countP fun p => p.pos.commiting

/-- **What is in `mSize`**: the calls that have reserved a slot below, and those that have not
committed it yet above. -/
def Counts (s : State) : Prop :=
  s.mSize = (reservations s.pushes + 2 ^ 32 * commitings s.pushes) % 2 ^ 64

variable {capacity : ℕ} {s s' : State} {i j : ℕ} {p : Push} {r : Read}

/-! ### The word -/

theorem slotBits_word (n c : ℕ) : slotBits ((n + 2 ^ 32 * c) % 2 ^ 64) = n % 2 ^ 16 := by
  rw [slotBits]
  omega

theorem sizeBits_word (n c : ℕ) : sizeBits ((n + 2 ^ 32 * c) % 2 ^ 64) = n % 2 ^ 32 := by
  rw [sizeBits]
  omega

theorem commitingBits_word {n c : ℕ} (hn : n < 2 ^ 32) (hc : c < 2 ^ 32) :
    commitingBits ((n + 2 ^ 32 * c) % 2 ^ 64) = c := by
  rw [commitingBits]
  omega

/-- A reservation adds one in both halves. -/
theorem fetchAdd_reserve (n c : ℕ) : fetchAdd ((n + 2 ^ 32 * c) % 2 ^ 64) commitingCount =
    (n + 1 + 2 ^ 32 * (c + 1)) % 2 ^ 64 := by
  rw [fetchAdd, commitingCount]
  omega

/-- A commit takes one away above, by a number that wraps. -/
theorem fetchAdd_commit (n c : ℕ) :
    fetchAdd ((n + 2 ^ 32 * (c + 1)) % 2 ^ 64) (2 ^ 64 - (commitingCount - 1)) =
      (n + 2 ^ 32 * c) % 2 ^ 64 := by
  rw [fetchAdd, commitingCount]
  omega

/-! ### Counts -/

/-- A step between two places that count alike. -/
theorem counts_same (hp : s.pushes[i]? = some p) (pos : PushAt)
    (hslot : pos.slot.isSome = p.pos.slot.isSome) (hcommiting : pos.commiting = p.pos.commiting) :
    reservations (s.pushes.set i { p with pos }) = reservations s.pushes ∧
      commitings (s.pushes.set i { p with pos }) = commitings s.pushes :=
  ⟨Agents.countP_set_same hp hslot, Agents.countP_set_same hp hcommiting⟩

/-- A slot is reserved. -/
theorem counts_reserve (hp : s.pushes[i]? = some p) (hpos : p.pos = .reserving) (slot : ℕ) :
    reservations (s.pushes.set i { p with pos := .storing slot }) = reservations s.pushes + 1 ∧
      passed (s.pushes.set i { p with pos := .storing slot }) + 1 = passed s.pushes ∧
      commitings (s.pushes.set i { p with pos := .storing slot }) = commitings s.pushes + 1 := by
  have hr := Agents.countP_set hp { p with pos := .storing slot } fun p => p.pos.slot.isSome
  have hq := Agents.countP_set hp { p with pos := .storing slot } fun p => p.pos = .reserving
  have hc := Agents.countP_set hp { p with pos := .storing slot } fun p => p.pos.commiting
  rw [hpos] at hr hq hc
  exact ⟨hr, hq, hc⟩

/-- A slot is committed. -/
theorem counts_commit (hp : s.pushes[i]? = some p) {slot : ℕ} (hpos : p.pos = .committing slot) :
    reservations (s.pushes.set i { p with pos := .returned slot }) = reservations s.pushes ∧
      commitings (s.pushes.set i { p with pos := .returned slot }) + 1 = commitings s.pushes := by
  have hr := Agents.countP_set hp { p with pos := .returned slot } fun p => p.pos.slot.isSome
  have hc := Agents.countP_set hp { p with pos := .returned slot } fun p => p.pos.commiting
  rw [hpos] at hr hc
  exact ⟨Nat.add_right_cancel hr, hc⟩

/-- The check is passed. -/
theorem passed_pass (hp : s.pushes[i]? = some p) (hpos : p.pos = .checking) :
    passed (s.pushes.set i { p with pos := .reserving }) = passed s.pushes + 1 := by
  have hq := Agents.countP_set hp { p with pos := .reserving } fun p => p.pos = .reserving
  rw [hpos] at hq
  exact hq

/-- A step to and from other places. -/
theorem passed_same (hp : s.pushes[i]? = some p) (pos : PushAt) (hpos : p.pos ≠ .reserving)
    (hpos' : pos ≠ .reserving) : passed (s.pushes.set i { p with pos }) = passed s.pushes :=
  Agents.countP_set_same hp ((decide_eq_false hpos').trans (decide_eq_false hpos).symm)

/-- **The word after a step of `push`.** -/
theorem Counts.push (hcounts : Counts s) (hp : s.pushes[i]? = some p)
    (h : PushStep capacity s i p s') : Counts s' := by
  rw [Counts] at hcounts ⊢
  cases h with
  | refuse hpos hfull =>
      obtain ⟨hr, hc⟩ := counts_same hp .refused (by rw [hpos]; rfl) (by rw [hpos]; rfl)
      dsimp only [State.setPush]
      rw [hr, hc, hcounts]
  | pass hpos hfree =>
      obtain ⟨hr, hc⟩ := counts_same hp .reserving (by rw [hpos]; rfl) (by rw [hpos]; rfl)
      dsimp only [State.setPush]
      rw [hr, hc, hcounts]
  | reserve hpos =>
      obtain ⟨hr, -, hc⟩ := counts_reserve hp hpos (slotBits s.mSize)
      dsimp only [State.setPush]
      rw [hr, hc, hcounts, fetchAdd_reserve]
  | store slot hpos hlt =>
      obtain ⟨hr, hc⟩ := counts_same hp (.committing slot) (by rw [hpos]; rfl)
        (by rw [hpos]; rfl)
      dsimp only [State.setPush]
      rw [hr, hc, hcounts]
  | commit slot hpos =>
      obtain ⟨hr, hc⟩ := counts_commit hp hpos
      dsimp only [State.setPush]
      rw [hr, hcounts, ← hc, fetchAdd_commit]

/-! ### Capacity -/

/-- **The capacity is kept**: no slot behind the array is handed out, and nobody is refused while
there is a slot. -/
structure WithinCapacity (capacity : ℕ) (s : State) : Prop where
  /-- nothing is stored behind the array -/
  inside : ∀ p ∈ s.pushes, ∀ slot, p.pos.slot = some slot → slot < capacity
  /-- only the first reservations return `true` -/
  first : reservations s.pushes ≤ capacity
  /-- and `false` is returned behind them -/
  refused : ∀ p ∈ s.pushes, p.pos = .refused → reservations s.pushes = capacity
  size : sizeBits s.mSize ≤ capacity

/-- **The steps of a run without crowds**: who passes the check finds a slot left for
itself, besides those for the calls between check and reservation. -/
def Separated (capacity : ℕ) (s : State) : Action → Prop
  | .push i => ∀ p ∈ s.pushes[i]?, p.pos = .checking → slotBits s.mSize ≠ capacity →
      reservations s.pushes + passed s.pushes < capacity
  | _ => True

/-- **The invariant** of such runs: the slots that are taken, and those for the calls that have
passed the check, are no more than there are. -/
structure CapacityInv (capacity : ℕ) (s : State) : Prop where
  counts : Counts s
  left : reservations s.pushes + passed s.pushes ≤ capacity
  inside : ∀ p ∈ s.pushes, ∀ slot, p.pos.slot = some slot → slot < capacity
  refused : ∀ p ∈ s.pushes, p.pos = .refused → reservations s.pushes = capacity

theorem capacityInv_init (capacity : ℕ) : CapacityInv capacity init where
  counts := rfl
  left := Nat.zero_le _
  inside p h := by cases h
  refused p h := by cases h

/-- A step between places that count alike leaves room for as many calls. -/
theorem CapacityInv.left_same (h : CapacityInv capacity s) (hp : s.pushes[i]? = some p)
    {pos : PushAt}
    (hr : reservations (s.pushes.set i { p with pos }) = reservations s.pushes)
    (hpos : p.pos ≠ .reserving) (hpos' : pos ≠ .reserving) :
    reservations (s.pushes.set i { p with pos }) + passed (s.pushes.set i { p with pos })
      ≤ capacity := by
  rw [hr, passed_same hp pos hpos hpos']
  exact h.left

/-- A step that reserves nothing refuses nobody, unless it is that step. -/
theorem CapacityInv.refused_same (h : CapacityInv capacity s) {pos : PushAt}
    (hr : reservations (s.pushes.set i { p with pos }) = reservations s.pushes)
    (hpos : pos ≠ .refused) : ∀ p' ∈ s.pushes.set i { p with pos }, p'.pos = .refused →
      reservations (s.pushes.set i { p with pos }) = capacity := by
  rw [hr]
  exact Agents.forall_set h.refused fun heq => absurd heq hpos

/-- **A step of `push` keeps the invariant.** Only the check is under a condition; the slot for the
reservation that follows is counted from then on. -/
theorem CapacityInv.push (h : CapacityInv capacity s) (hok : Separated capacity s (.push i))
    (hp : s.pushes[i]? = some p) (hstep : PushStep capacity s i p s') :
    CapacityInv capacity s' := by
  have hcounts := h.counts.push hp hstep
  have hmem : p ∈ s.pushes := List.mem_of_getElem? hp
  have hword : slotBits s.mSize = reservations s.pushes % 2 ^ 16 := by
    rw [h.counts, slotBits_word]
  have hleft := h.left
  cases hstep with
  | refuse hpos hfull =>
      obtain ⟨hr, -⟩ := counts_same hp .refused (by rw [hpos]; rfl) (by rw [hpos]; rfl)
      have hall : reservations s.pushes = capacity := by
        have := Nat.mod_le (reservations s.pushes) (2 ^ 16)
        omega
      refine ⟨hcounts, h.left_same hp hr (by rw [hpos]; nofun) nofun,
        Agents.forall_set h.inside nofun, ?_⟩
      intro _ _ _
      exact hr.trans hall
  | pass hpos hfree =>
      obtain ⟨hr, -⟩ := counts_same hp .reserving (by rw [hpos]; rfl) (by rw [hpos]; rfl)
      have hq := passed_pass hp hpos
      have hlt := hok p hp hpos hfree
      refine ⟨hcounts, ?_, Agents.forall_set h.inside nofun, h.refused_same hr nofun⟩
      dsimp only [State.setPush]
      rw [hr, hq]
      exact hlt
  | reserve hpos =>
      obtain ⟨hr, hq, -⟩ := counts_reserve hp hpos (slotBits s.mSize)
      have hlt : slotBits s.mSize < capacity := by
        have := Nat.mod_le (reservations s.pushes) (2 ^ 16)
        omega
      refine ⟨hcounts, ?_, Agents.forall_set h.inside ?_, ?_⟩
      · dsimp only [State.setPush]
        omega
      · intro slot hslot
        rw [← Option.some.inj hslot]
        exact hlt
      · -- nobody is refused while a call is about to reserve a slot
        refine Agents.forall_set (fun p' hp' hrefused => ?_) nofun
        have hall := h.refused p' hp' hrefused
        omega
  | store slot hpos hlt =>
      obtain ⟨hr, -⟩ := counts_same hp (.committing slot) (by rw [hpos]; rfl)
        (by rw [hpos]; rfl)
      refine ⟨hcounts, h.left_same hp hr (by rw [hpos]; nofun) nofun,
        Agents.forall_set h.inside ?_, h.refused_same hr nofun⟩
      intro slot' hslot
      rw [← Option.some.inj hslot]
      exact hlt
  | commit slot hpos =>
      obtain ⟨hr, -⟩ := counts_commit hp hpos
      refine ⟨hcounts, h.left_same hp hr (by rw [hpos]; nofun) nofun,
        Agents.forall_set h.inside ?_, h.refused_same hr nofun⟩
      intro slot' hslot
      rw [← Option.some.inj hslot]
      exact h.inside p hmem slot (by rw [hpos]; rfl)

/-- A call that reads changes nothing but itself. -/
theorem ReadStep.frame (h : ReadStep s j r s') :
    s'.mSize = s.mSize ∧ s'.mArray = s.mArray ∧ s'.pushes = s.pushes := by
  cases h with
  | wait => exact ⟨rfl, rfl, rfl⟩
  | load => exact ⟨rfl, rfl, rfl⟩
  | visit => exact ⟨rfl, rfl, rfl⟩
  | finish => exact ⟨rfl, rfl, rfl⟩

/-- A new call of `push`. -/
theorem counts_concat (pushes : List Push) (pTLS : ℕ) :
    reservations (pushes ++ [⟨pTLS, .checking⟩]) = reservations pushes ∧
      passed (pushes ++ [⟨pTLS, .checking⟩]) = passed pushes ∧
      commitings (pushes ++ [⟨pTLS, .checking⟩]) = commitings pushes :=
  ⟨Agents.countP_concat _ _ _, Agents.countP_concat _ _ _, Agents.countP_concat _ _ _⟩

/-- **Every step keeps the invariant.** -/
theorem CapacityInv.step (h : CapacityInv capacity s) {a : Action} (hok : Separated capacity s a)
    (hstep : next capacity a s = some s') : CapacityInv capacity s' := by
  cases a with
  | callPush pTLS =>
      rw [next, Option.some_inj] at hstep
      subst hstep
      obtain ⟨hr, hq, hc⟩ := counts_concat s.pushes pTLS
      refine ⟨?_, ?_, Agents.forall_concat h.inside nofun, ?_⟩
      · rw [Counts, hr, hc]
        exact h.counts
      · dsimp only
        rw [hr, hq]
        exact h.left
      · dsimp only
        rw [hr]
        exact Agents.forall_concat h.refused nofun
  | callRead =>
      rw [next, Option.some_inj] at hstep
      subst hstep
      exact ⟨h.counts, h.left, h.inside, h.refused⟩
  | push i =>
      obtain ⟨p, hp, hpush⟩ := pushStep_spec hstep
      exact h.push hok hp hpush
  | read j =>
      obtain ⟨r, -, hread⟩ := readStep_spec hstep
      obtain ⟨hmSize, -, hpushes⟩ := hread.frame
      refine ⟨?_, ?_, ?_, ?_⟩
      · rw [Counts, hmSize, hpushes]
        exact h.counts
      · rw [hpushes]
        exact h.left
      · rw [hpushes]
        exact h.inside
      · rw [hpushes]
        exact h.refused

theorem CapacityInv.withinCapacity (h : CapacityInv capacity s) : WithinCapacity capacity s where
  inside := h.inside
  first := (Nat.le_add_right _ _).trans h.left
  refused := h.refused
  size := by
    rw [h.counts, sizeBits_word]
    exact (Nat.mod_le _ _).trans ((Nat.le_add_right _ _).trans h.left)

/-- **In a run without crowds the capacity is kept**: every call that passes the check finds a slot
that is not meant for another one. -/
theorem push_withinCapacity (capacity : ℕ) (s : State)
    (h : (system capacity).ReachableWhile (Separated capacity) s) : WithinCapacity capacity s := by
  have hinv : CapacityInv capacity s := by
    refine h.invariant (fun t ht => ?_) fun t a t' hinv hok hstep => hinv.step hok hstep
    cases ht
    exact capacityInv_init capacity
  exact hinv.withinCapacity

instance (capacity : ℕ) (s : State) (a : Action) : Decidable (Separated capacity s a) := by
  unfold Separated
  split
  · infer_instance
  · exact .isTrue trivial

/-- A step of a run without crowds. -/
def nextSeparated (capacity : ℕ) (a : Action) (s : State) : Option State :=
  if Separated capacity s a then next capacity a s else none

/-- One slot, for two calls after each other. -/
def twoCalls : List Action :=
  [.callPush 7, .push 0, .push 0, .push 0, .push 0, .callPush 8, .push 1]

theorem twoCalls_run : (twoCalls.foldlM (fun s a => nextSeparated 1 a s) init).map (·.pushes)
    = some [⟨7, .returned 0⟩, ⟨8, .refused⟩] := by
  decide +kernel

/-- The first one gets it. -/
theorem push_withinCapacity_one : ∃ s, (system 1).ReachableWhile (Separated 1) s ∧
    s.pushes = [⟨7, .returned 0⟩, ⟨8, .refused⟩] ∧ WithinCapacity 1 s := by
  obtain ⟨s, hrun, hpushes⟩ := Option.map_eq_some_iff.mp twoCalls_run
  have hreach : (system 1).ReachableWhile (Separated 1) s := by
    refine StepSystem.ReachableWhile.foldlM (.init rfl) _ (fun a _ t t' hnext => ?_) hrun
    rw [nextSeparated] at hnext
    split at hnext
    · rename_i hok
      exact ⟨hok, hnext⟩
    · cases hnext
  exact ⟨s, hreach, hpushes, push_withinCapacity 1 s hreach⟩

/-- 129 calls that come to the check, and then to the reservation. -/
def crowd : List Action :=
  List.replicate 129 (.callPush 7) ++ (List.range 129).map .push ++ (List.range 129).map .push

set_option maxRecDepth 100000 in
theorem crowd_run : (crowd.foldlM (fun s a => next 128 a s) init).map (fun s => s.pushes[128]?)
    = some (some ⟨7, .storing 128⟩) := by
  decide +kernel

/-- **129 threads pass the check** before any of them reserves a slot, and one of them stores its
pointer behind the array. -/
theorem overrun : ∃ s, (system 128).Reachable s ∧ ¬ WithinCapacity 128 s := by
  obtain ⟨s, hrun, hlast⟩ := Option.map_eq_some_iff.mp crowd_run
  refine ⟨s, StepSystem.reachable_foldlM (.init rfl) crowd hrun, fun hwithin => ?_⟩
  have hlt := hwithin.inside _ (List.mem_of_getElem? hlast) 128 rfl
  exact lt_irrefl 128 hlt

end LinuxProgram.Binlog.Registry
