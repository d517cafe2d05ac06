import LinuxProgram.Lib.StepSystem
import LinuxProgram.Lib.Agents

/-!
# Queues that are drained round robin

Producers append to queues of their own.  One consumer goes over the queues pass by
pass and takes at most one item of each; a pass covers the queues that were there
when it began.

* `Drain` — the queues, the items that were taken, each with the index of its queue,
  and where the consumer stands.
* `pushed` — what was taken from a queue and what is in it.  It changes by pushes
  only, so nothing is lost, doubled or reordered.
* `ahead` — the visits of queue 0 that come before the next visit of another queue.
-/

namespace LinuxProgram.Lib

universe u

/-- **Queues and their consumer**, with everything that it has taken so far. -/
structure Drain (α : Type u) where
  queues : List (List α)
  taken : List (ℕ × α)
  /-- the next index of the pass, and where the pass ends -/
  pass : Option (ℕ × ℕ)

namespace Drain

variable {α : Type u}

/-- A producer gets a queue or pushes an item, or the consumer goes on. -/
inductive Action (α : Type u)
  | register
  | push (index : ℕ) (x : α)
  | consumer

/-- The consumer takes the first item of a queue. -/
def take (s : Drain α) (index : ℕ) : List α → Drain α
  | [] => s
  | x :: queue => { s with queues := s.queues.set index queue, taken := s.taken ++ [(index, x)] }

/-- **A step of the consumer**: it begins a pass, visits the next queue of the pass, or ends it.  A
queue that comes while a pass is under way is left to the next one. -/
def consume (s : Drain α) : Option (Drain α) :=
  match s.pass with
  | none => some { s with pass := some (0, s.queues.length) }
  | some (index, size) =>
      if index < size then
        (s.queues[index]?).map fun queue =>
          { s.take index queue with pass := some (index + 1, size) }
      else some { s with pass := none }

/-- The step function. -/
def next : Action α → Drain α → Option (Drain α)
  | .register, s => some { s with queues := s.queues ++ [[]] }
  | .push index x, s =>
      (s.queues[index]?).map fun queue => { s with queues := s.queues.set index (queue ++ [x]) }
  | .consumer, s => s.consume

/-- What was taken from a queue. -/
def ofQueue (index : ℕ) (taken : List (ℕ × α)) : List α :=
  (taken.filter fun item => item.1 = index).map Prod.snd

/-- **What was pushed to a queue**: what was taken from it, and then what is still in it. -/
def pushed (s : Drain α) (index : ℕ) : List α :=
  ofQueue index s.taken ++ s.queues.getD index []

/-! ### Nothing is lost -/

@[simp] theorem ofQueue_concat (index j : ℕ) (taken : List (ℕ × α)) (x : α) :
    ofQueue j (taken ++ [(index, x)]) = ofQueue j taken ++ if index = j then [x] else [] := by
  rw [ofQueue, List.filter_append, List.map_append]
  refine congrArg (ofQueue j taken ++ ·) ?_
  rw [List.filter_singleton]
  dsimp only
  split <;> simp_all

theorem ofQueue_eq_nil {index : ℕ} {taken : List (ℕ × α)}
    (h : ∀ item ∈ taken, item.1 ≠ index) : ofQueue index taken = [] := by
  rw [ofQueue, List.filter_eq_nil_iff.mpr, List.map_nil]
  intro item hitem
  simpa using h item hitem

theorem pushed_register (s : Drain α) (j : ℕ) :
    pushed { s with queues := s.queues ++ [[]] } j = s.pushed j := by
  refine congrArg (ofQueue j s.taken ++ ·) ?_
  rw [List.getD_eq_getElem?_getD, List.getD_eq_getElem?_getD, Agents.getElem?_concat]
  split
  · rename_i h
    rw [List.getElem?_eq_none h.ge]
    rfl
  · rfl

theorem pushed_push {s : Drain α} {index : ℕ} {queue : List α}
    (hqueue : s.queues[index]? = some queue) (x : α) (j : ℕ) :
    pushed { s with queues := s.queues.set index (queue ++ [x]) } j
      = s.pushed j ++ if j = index then [x] else [] := by
  rw [pushed, pushed, List.append_assoc]
  refine congrArg (ofQueue j s.taken ++ ·) ?_
  rw [List.getD_eq_getElem?_getD, List.getD_eq_getElem?_getD, Agents.getElem?_set hqueue]
  split
  · rename_i h
    subst h
    rw [hqueue]
    rfl
  · rw [List.append_nil]

theorem pushed_take {s : Drain α} {index : ℕ} {queue : List α}
    (hqueue : s.queues[index]? = some queue) (j : ℕ) :
    (s.take index queue).pushed j = s.pushed j := by
  cases queue with
  | nil => rfl
  | cons x queue =>
      rw [pushed, pushed, take, ofQueue_concat, List.append_assoc]
      refine congrArg (ofQueue j s.taken ++ ·) ?_
      rw [List.getD_eq_getElem?_getD, List.getD_eq_getElem?_getD, Agents.getElem?_set hqueue]
      rcases eq_or_ne index j with rfl | hne
      · rw [if_pos rfl, if_pos rfl, hqueue]
        rfl
      · rw [if_neg hne, if_neg hne.symm, List.nil_append]

/-! ### Visits of the first queue -/

/-- **The number of visits of queue 0** before the next visit of the queue at
`index`. -/
def ahead (pass : Option (ℕ × ℕ)) (index : ℕ) : ℕ :=
  match pass with
  | none => 1
  | some (index', size) =>
      (if index' = 0 then 1 else 0) + if index' ≤ index ∧ index < size then 0 else 1

variable {index index' size : ℕ}

/-- A pass begins. -/
theorem ahead_start (h : index < size) : ahead (some (0, size)) index = ahead none index := by
  rw [ahead, ahead, if_pos rfl, if_pos ⟨Nat.zero_le _, h⟩]

/-- Queue 0 is visited. -/
theorem ahead_first (hpos : 0 < index) :
    ahead (some (0, size)) index = ahead (some (1, size)) index + 1 := by
  rw [ahead, ahead, if_pos rfl, if_neg one_ne_zero]
  split <;> split <;> omega

/-- Another queue is visited. -/
theorem ahead_other (hpos : 0 < index') (hne : index ≠ index') :
    ahead (some (index' + 1, size)) index = ahead (some (index', size)) index := by
  rw [ahead, ahead, if_neg hpos.ne', if_neg (Nat.succ_ne_zero _)]
  split <;> split <;> omega

/-- The queue is about to be visited. -/
theorem ahead_self (hpos : 0 < index) (hlt : index < size) :
    ahead (some (index, size)) index = 0 := by
  rw [ahead, if_neg hpos.ne', if_pos ⟨le_rfl, hlt⟩]

/-- The queue has been visited. -/
theorem ahead_visited : ahead (some (index + 1, size)) index = 1 := by
  rw [ahead, if_neg (Nat.succ_ne_zero _), if_neg (by omega)]

/-- A pass ends. -/
theorem ahead_end (hpos : 0 < index') (hle : size ≤ index') :
    ahead none index = ahead (some (index', size)) index := by
  rw [ahead, ahead, if_neg hpos.ne', if_neg (by omega)]

end Drain

end LinuxProgram.Lib
