import LinuxProgram.Utils.TicketLock
import LinuxProgram.Lib.Agents

/-!
# The ticket lock is a fair lock

The counters wrap, but what they stand for does not: the number of calls of `unlock`
and of tickets.  The threads that hold a ticket are a queue, in which no thread is
twice, so their tickets are different as long as there are less than 2^32 threads.

* `queue` — the threads with a ticket that was not given back.
* `Inv` — the thread at place `i` of the queue waits for the `i`-th call of `unlock` from
  now on, and only the first one can be behind `lock`.
* `Inv.draw`, `Inv.enter`, `Inv.leave` — the three steps of a thread.
* `ticketLock_safe` — one thread at a time, in the order of the tickets.
-/

namespace LinuxProgram.Utils.TicketLock

open Lib

variable {n released : ℕ} {s : State n} {t t' : Fin n}

/-- **The threads with a ticket**, the one whose turn it is first. -/
def queue (s : State n) (released : ℕ) : List (Fin n) := s.tickets.drop released

/-- **The invariant**, after `released` calls of `unlock`. -/
structure Inv (s : State n) (released : ℕ) : Prop where
  owner : s.mOwner = BitVec.ofNat 32 released
  next : s.mNext = BitVec.ofNat 32 s.tickets.length
  le : released ≤ s.tickets.length
  nodup : (queue s released).Nodup
  outside : ∀ t, s.threads t = .outside ↔ t ∉ queue s released
  place : ∀ (i : ℕ) (t : Fin n), (queue s released)[i]? = some t →
    s.threads t = .waiting (BitVec.ofNat 32 (released + i)) ∨ i = 0 ∧ s.threads t = .inside
  acquired : (s.acquired = s.tickets.take released ∧ ∀ t, s.threads t ≠ .inside) ∨
    ∃ t, (queue s released)[0]? = some t ∧ s.threads t = .inside ∧
      s.acquired = s.tickets.take (released + 1)

theorem inv_init (n : ℕ) : Inv (init n) 0 where
  owner := rfl
  next := rfl
  le := le_rfl
  nodup := List.nodup_nil
  outside t := iff_of_true rfl (List.not_mem_nil)
  place i t h := by cases h
  acquired := .inl ⟨rfl, fun _ => nofun⟩

/-- The first one has the ticket behind those that were given back. -/
theorem ticket_of_head (hhead : (queue s released)[0]? = some t) :
    s.tickets[released]? = some t := by
  rwa [queue, List.getElem?_drop] at hhead

/-- A thread that is not outside has a place. -/
theorem Inv.exists_place (h : Inv s released) (ht : s.threads t ≠ .outside) :
    ∃ i : ℕ, (queue s released)[i]? = some t := by
  have hmem : t ∈ queue s released := by
    by_contra hnot
    exact ht ((h.outside t).mpr hnot)
  exact List.mem_iff_getElem?.mp hmem

/-- A thread has one place. -/
theorem Inv.place_unique (h : Inv s released) {i j : ℕ} (hi : (queue s released)[i]? = some t)
    (hj : (queue s released)[j]? = some t) : i = j :=
  (List.getElem?_inj (List.getElem?_eq_some_iff.mp hi).1 h.nodup).mp (hi.trans hj.symm)

/-- A thread behind `lock` is the first one. -/
theorem Inv.head_of_inside (h : Inv s released) (ht : s.threads t = .inside) :
    (queue s released)[0]? = some t := by
  obtain ⟨i, hi⟩ := h.exists_place (by rw [ht]; nofun)
  rcases h.place i t hi with hwaiting | ⟨rfl, -⟩
  · rw [ht] at hwaiting
    cases hwaiting
  · exact hi

/-- **Tickets do not collide**: a place in the queue is a number below 2^32. -/
theorem Inv.place_lt (h : Inv s released) (hn : n < 2 ^ 32) {i : ℕ}
    (hi : (queue s released)[i]? = some t) : i < 2 ^ 32 := by
  have hlt : i < (queue s released).length := (List.getElem?_eq_some_iff.mp hi).1
  have hcard : (queue s released).length ≤ n := by
    have := h.nodup.length_le_card
    rwa [Fintype.card_fin] at this
  omega

/-- **A thread whose turn it is** is the first one. -/
theorem Inv.head_of_turn (h : Inv s released) (hn : n < 2 ^ 32)
    (ht : s.threads t = .waiting s.mOwner) : (queue s released)[0]? = some t := by
  obtain ⟨i, hi⟩ := h.exists_place (by rw [ht]; nofun)
  rcases h.place i t hi with hwaiting | ⟨-, hinside⟩
  · rw [ht, h.owner] at hwaiting
    have hlt := h.place_lt hn hi
    have heq := congrArg BitVec.toNat (ThreadAt.waiting.inj hwaiting)
    rw [BitVec.toNat_ofNat, BitVec.toNat_ofNat] at heq
    obtain rfl : i = 0 := by omega
    exact hi
  · rw [ht] at hinside
    cases hinside

theorem Inv.safe (h : Inv s released) : Safe s where
  exclusive t t' ht ht' := by
    have hhead := h.head_of_inside ht
    rw [h.head_of_inside ht'] at hhead
    exact (Option.some.inj hhead).symm
  ordered := by
    rcases h.acquired with ⟨hacquired, -⟩ | ⟨-, -, -, hacquired⟩
    · rw [hacquired]
      exact List.take_prefix _ _
    · rw [hacquired]
      exact List.take_prefix _ _

/-! ### Steps

A ticket that is drawn puts its thread at the end of the queue, and `unlock` takes the first one
away, with which all places move up by one.  A thread that spins compares its ticket with
`mOwner`; since fewer than `2 ^ 32` threads are in the queue, only the first one finds them equal,
also after the counters have wrapped. -/

/-- A thread goes on, the others stay where they are. -/
theorem update_threads (s : State n) (t : Fin n) (pos : ThreadAt) (t' : Fin n) :
    Function.update s.threads t pos t' = if t' = t then pos else s.threads t' :=
  Function.update_apply _ _ _ _

/-- A thread of the queue is not one that is outside. -/
theorem Inv.ne_of_outside (h : Inv s released) (ht : s.threads t = .outside)
    (hmem : t' ∈ queue s released) : t' ≠ t := by
  rintro rfl
  exact (h.outside t').mp ht hmem

/-- The tickets that were given back, and one more, are among those that were drawn. -/
theorem released_lt (hhead : (queue s released)[0]? = some t) :
    released < s.tickets.length :=
  (List.getElem?_eq_some_iff.mp (ticket_of_head hhead)).1

/-- Where the threads of the queue stand when one more has drawn a ticket. -/
theorem Inv.place_draw (h : Inv s released) (ht : s.threads t = .outside) (i : ℕ)
    (hi : (queue s released ++ [t])[i]? = some t') :
    Function.update s.threads t (.waiting s.mNext) t' = .waiting (BitVec.ofNat 32 (released + i)) ∨
      i = 0 ∧ Function.update s.threads t (.waiting s.mNext) t' = .inside := by
  rw [Agents.getElem?_concat] at hi
  rw [update_threads]
  split at hi
  · rename_i hlast
    have hlength : released + i = s.tickets.length := by
      rw [hlast, queue, List.length_drop]
      exact Nat.add_sub_cancel' h.le
    rw [if_pos (Option.some.inj hi).symm, hlength, h.next]
    exact .inl rfl
  · rw [if_neg (h.ne_of_outside ht (List.mem_of_getElem? hi))]
    exact h.place i t' hi

/-- For whom `lock` has returned, then. -/
theorem Inv.acquired_draw (h : Inv s released) (ht : s.threads t = .outside) :
    (s.acquired = (s.tickets ++ [t]).take released ∧
      ∀ t', Function.update s.threads t (.waiting s.mNext) t' ≠ .inside) ∨
    ∃ t', (queue s released ++ [t])[0]? = some t' ∧
      Function.update s.threads t (.waiting s.mNext) t' = .inside ∧
      s.acquired = (s.tickets ++ [t]).take (released + 1) := by
  rcases h.acquired with ⟨htaken, hnone⟩ | ⟨t', hhead, hinside, htaken⟩
  · refine .inl ⟨?_, fun t' => ?_⟩
    · rw [List.take_append_of_le_length h.le]
      exact htaken
    · rw [update_threads]
      split
      · nofun
      · exact hnone t'
  · refine .inr ⟨t', ?_, ?_, ?_⟩
    · rw [List.getElem?_append_left (List.getElem?_eq_some_iff.mp hhead).1]
      exact hhead
    · rw [update_threads, if_neg (h.ne_of_outside ht (List.mem_of_getElem? hhead))]
      exact hinside
    · rw [List.take_append_of_le_length (released_lt hhead)]
      exact htaken

/-- **A ticket is drawn.** -/
theorem Inv.draw (h : Inv s released) (ht : s.threads t = .outside) :
    Inv (threadStep t s) released := by
  have hstep : threadStep t s = { s with
      mNext := s.mNext + 1
      threads := Function.update s.threads t (.waiting s.mNext)
      tickets := s.tickets ++ [t] } := by
    rw [threadStep, ht]
  have hqueue : queue (threadStep t s) released = queue s released ++ [t] := by
    rw [hstep]
    exact List.drop_append_of_le_length h.le
  refine ⟨?_, ?_, ?_, ?_, fun t' => ?_, ?_, ?_⟩
  · rw [hstep]
    exact h.owner
  · rw [hstep]
    dsimp only
    rw [h.next, List.length_append, List.length_singleton, BitVec.ofNat_add]
    rfl
  · rw [hstep]
    dsimp only
    rw [List.length_append]
    exact h.le.trans (Nat.le_add_right _ _)
  · rw [hqueue, ← List.concat_eq_append]
    exact h.nodup.concat ((h.outside t).mp ht)
  · rw [hqueue, hstep]
    dsimp only
    rw [update_threads]
    split
    · rename_i heq
      rw [heq]
      exact iff_of_false nofun fun hmem => hmem (List.mem_append_right _ (.head _))
    · rename_i hne
      rw [h.outside, List.mem_append, List.mem_singleton, or_iff_left hne]
  · rw [hqueue, hstep]
    exact fun i t' hi => h.place_draw ht i hi
  · rw [hqueue, hstep]
    exact h.acquired_draw ht

/-- Nobody is behind `lock` as long as the first one waits. -/
theorem Inv.free_of_waiting (h : Inv s released) (hhead : (queue s released)[0]? = some t)
    {nextOwner : BitVec 32} (ht : s.threads t = .waiting nextOwner) :
    s.acquired = s.tickets.take released := by
  rcases h.acquired with ⟨htaken, -⟩ | ⟨t', hhead', hinside, -⟩
  · exact htaken
  · rw [hhead] at hhead'
    rw [← Option.some.inj hhead', ht] at hinside
    cases hinside

/-- **The lock is acquired**, by the first one. -/
theorem Inv.enter (h : Inv s released) (hn : n < 2 ^ 32) (ht : s.threads t = .waiting s.mOwner) :
    Inv (threadStep t s) released := by
  have hhead := h.head_of_turn hn ht
  have hmem : t ∈ queue s released := List.mem_of_getElem? hhead
  have hstep : threadStep t s = { s with
      threads := Function.update s.threads t .inside
      acquired := s.acquired ++ [t] } := by
    rw [threadStep, ht]
    exact if_neg (not_not_intro rfl)
  rw [hstep]
  refine ⟨h.owner, h.next, h.le, h.nodup, fun t' => ?_, fun i t' hi => ?_,
    .inr ⟨t, hhead, ?_, ?_⟩⟩
  · dsimp only
    rw [update_threads]
    split
    · rename_i heq
      rw [heq]
      exact iff_of_false nofun fun hnot => hnot hmem
    · exact h.outside t'
  · dsimp only
    rw [update_threads]
    split
    · rename_i heq
      rw [heq] at hi
      exact .inr ⟨h.place_unique hi hhead, rfl⟩
    · exact h.place i t' hi
  · exact Function.update_self _ _ _
  · dsimp only
    rw [h.free_of_waiting hhead ht, List.take_add_one, ticket_of_head hhead]
    rfl

/-- The queue without the first one. -/
theorem queue_head (hhead : (queue s released)[0]? = some t) :
    queue s released = t :: s.tickets.drop (released + 1) := by
  obtain ⟨hlt, hticket⟩ := List.getElem?_eq_some_iff.mp (ticket_of_head hhead)
  rw [queue, List.drop_eq_getElem_cons hlt, hticket]

/-- Where the others stand when the first one has left. -/
theorem Inv.place_leave (h : Inv s released) (hhead : (queue s released)[0]? = some t) (i : ℕ)
    (hi : (s.tickets.drop (released + 1))[i]? = some t') :
    t' ≠ t ∧ s.threads t' = .waiting (BitVec.ofNat 32 (released + 1 + i)) := by
  have hnodup := h.nodup
  rw [queue_head hhead, List.nodup_cons] at hnodup
  have hi' : (queue s released)[i + 1]? = some t' := by
    rw [queue_head hhead, List.getElem?_cons_succ]
    exact hi
  refine ⟨fun heq => hnodup.1 (heq ▸ List.mem_of_getElem? hi), ?_⟩
  rcases h.place (i + 1) t' hi' with hwaiting | ⟨hzero, -⟩
  · rw [Nat.add_right_comm, Nat.add_assoc]
    exact hwaiting
  · exact absurd hzero (Nat.succ_ne_zero i)

/-- **The lock is released**, and it is the turn of the next one. -/
theorem Inv.leave (h : Inv s released) (ht : s.threads t = .inside) :
    Inv (threadStep t s) (released + 1) := by
  have hhead := h.head_of_inside ht
  have hstep : threadStep t s = { s with
      mOwner := s.mOwner + 1
      threads := Function.update s.threads t .outside } := by
    rw [threadStep, ht]
  have hnodup := h.nodup
  rw [queue_head hhead, List.nodup_cons] at hnodup
  rw [hstep]
  refine ⟨?_, h.next, released_lt hhead, hnodup.2, fun t' => ?_, fun i t' hi => ?_,
    .inl ⟨?_, fun t' => ?_⟩⟩
  · dsimp only
    rw [h.owner, BitVec.ofNat_add]
    rfl
  · dsimp only
    rw [update_threads]
    split
    · rename_i heq
      rw [heq]
      exact iff_of_true rfl hnodup.1
    · rename_i hne
      rw [h.outside, queue_head hhead, List.mem_cons, or_iff_right hne]
      rfl
  · obtain ⟨hne, hwaiting⟩ := h.place_leave hhead i hi
    dsimp only
    rw [update_threads, if_neg hne]
    exact .inl hwaiting
  · rcases h.acquired with ⟨-, hnone⟩ | ⟨-, -, -, htaken⟩
    · exact absurd ht (hnone t)
    · exact htaken
  · dsimp only
    rw [update_threads]
    split
    · nofun
    · rename_i hne
      intro hinside
      have hhead' := h.head_of_inside hinside
      rw [hhead] at hhead'
      exact hne (Option.some.inj hhead').symm

/-- **Every step keeps the invariant.** -/
theorem Inv.step (h : Inv s released) (hn : n < 2 ^ 32) (t : Fin n) :
    ∃ released', Inv (threadStep t s) released' := by
  cases ht : s.threads t with
  | outside => exact ⟨released, h.draw ht⟩
  | waiting nextOwner =>
      by_cases hturn : nextOwner = s.mOwner
      · rw [hturn] at ht
        exact ⟨released, h.enter hn ht⟩
      · have hspin : threadStep t s = s := by
          rw [threadStep, ht]
          exact if_pos hturn
        rw [hspin]
        exact ⟨released, h⟩
  | inside => exact ⟨released + 1, h.leave ht⟩

/-- **The ticket lock**: one thread at a time, in the order of the tickets, for fewer than `2 ^ 32`
threads that lock and unlock as often as they like. -/
theorem ticketLock_safe (hn : n < 2 ^ 32) (h : (system n).Reachable s) : Safe s := by
  have hinv : ∃ released, Inv s released := by
    refine h.invariant (I := fun s => ∃ released, Inv s released) ?_ fun t a t' hinv _ hstep => ?_
    · rintro _ rfl
      exact ⟨0, inv_init n⟩
    · obtain ⟨released, hinv⟩ := hinv
      rw [← Option.some.inj hstep]
      exact hinv.step hn a
  obtain ⟨released, hinv⟩ := hinv
  exact hinv.safe

/-- Three threads, the last two of which come while the first one is behind `lock`, and
the second of which gets the lock. -/
theorem ticketLock_safe_three : ∃ s : State 3, (system 3).Reachable s ∧
    s.tickets = [0, 2, 1] ∧ s.acquired = [0, 2] ∧ Safe s := by
  let run : List (Fin 3) := [0, 0, 2, 1, 2, 0, 1, 2]
  let s := run.foldl (fun s t => threadStep t s) (init 3)
  have hreach : (system 3).Reachable s := by
    refine StepSystem.reachable_foldlM (.init rfl) run ?_
    rfl
  exact ⟨s, hreach, by decide, by decide, ticketLock_safe (by decide) hreach⟩

end LinuxProgram.Utils.TicketLock
