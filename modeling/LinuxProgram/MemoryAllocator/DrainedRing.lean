import LinuxProgram.MemoryAllocator.ConcurrentRingSafety

/-!
# A drained ring makes room

When the consumer has caught up, `mReadIndex = mWriteIndex`, the free space is split at
that index, and one of the two parts is offered.  The larger one holds at least half of
the storage, wherever the index is.

* `reserveReturns` — what `Reserve` returns, under any interleaving with the consumer.
* `acquires` — the producer is inside `acquire(size)`.
* `Drained` — the indices are equal, and the consumer will not store another one.
* `turnsLeft` — how many steps the producer still takes until `acquire` returns.  They get
  fewer with each (`Acquiring.producer`), for what `maximizeWriteCapacity` offers is enough.
  Only an `acquire` that has loaded the read index before the ring was drained may have to
  call `Reserve` once more.
-/

namespace LinuxProgram.MemoryAllocator.Ring

open Lib

variable {capacity size : ℕ} {s s' : Ring}

/-- **What `Reserve` returns** while the threads take the steps `as`, if it does.  After a
test that failed the producer is about to load `mWriteIndex` again. -/
def reserveReturns (capacity : ℕ) : List Action → Ring → Option Bool
  | [], s => if s.reserved ≠ [] then some true else none
  | a :: as, s =>
      if s.reserved ≠ [] then some true
      else match a with
        | .acquire _ => none
        | .consumer => reserveReturns capacity as s.consumerStep
        | .producer => (s.producerStep capacity).bind fun s' =>
            match s'.producer with
            | .loadWrite _ => some false
            | _ => reserveReturns capacity as s'

/-- The producer is inside `acquire(size)`. -/
def acquires (s : Ring) (size : ℕ) : Prop :=
  match s.producer with
  | .idle => False
  | .loadWrite n | .loadRead n _ | .storeDataEnd n _ _ => n = size
  | .storeWrite result => result.size = size

/-- The state with another snapshot. -/
def withSnapshot (s : Ring) (pos e : ℕ) : Ring :=
  { s with mSnapWritePos := pos, mSnapWriteEnd := e }

/-- **The ring makes room** for a request of `size` bytes: the producer gets the bytes in a bounded
number of its own steps, whatever the consumer does between them and however old the producer's
snapshot of the read index is. -/
structure MakesRoom (capacity size : ℕ) (s : Ring) : Prop where
  /-- `Reserve(size)` returns true, whatever the snapshot is. -/
  reserve : s.producer = .idle → ∀ pos e as, (∀ n, .acquire n ∉ as) → 3 ≤ as.count .producer →
    reserveReturns capacity as ((s.withSnapshot pos e).tryReserve size) = some true
  /-- And so it does when `acquire(size)` calls it again. -/
  again : s.producer = .loadWrite size → ∀ as, (∀ n, .acquire n ∉ as) →
    3 ≤ as.count .producer → reserveReturns capacity as s = some true
  /-- `acquire(size)` returns after at most five steps of the producer. -/
  acquire : s.acquires size → ∀ (as : List Action) (t : Ring),
    as.foldlM (fun t a => next capacity a t) s = some t → 5 ≤ as.count .producer →
    ∃ start, s.acquired ++ [⟨start, size⟩] <+: t.acquired

/-! ### The consumer

In a drained ring it has nothing to read, and whatever write index it may still store is the one
at which the read index is already.  So the ring stays drained until the producer stores
`mWriteIndex`, and for the producer nothing moves. -/

/-- **The consumer has caught up**, and what it may have loaded before is the same index. -/
structure Drained (capacity : ℕ) (s : Ring) : Prop where
  drained : s.mReadIndex = s.mWriteIndex
  inside : s.mWriteIndex ≤ capacity
  seen : s.consumer = .loadWrite ∨ s.mSnapReadEnd = s.mWriteIndex

/-- That is so in every state with equal indices. -/
theorem Inv.toDrained (h : Inv capacity s) (heq : s.mReadIndex = s.mWriteIndex) :
    Drained capacity s := by
  have hseen : s.SeenWrite → s.mSnapReadEnd = s.mWriteIndex := by
    rintro (⟨hle, hlt, -⟩ | ⟨-, hlt⟩)
    · have := hlt heq.le
      omega
    · omega
  refine ⟨heq, h.writeIndex, ?_⟩
  have hc := h.consumer
  rw [ConsumerInv] at hc
  cases hat : s.consumer with
  | loadWrite => exact .inl rfl
  | loadRead w =>
      simp only [hat] at hc
      exact .inr (hseen hc.2.1)
  | loadDataEnd w r =>
      simp only [hat] at hc
      exact .inr (hseen hc.2.2.2.1)
  | loadDataEndAgain w r =>
      simp only [hat] at hc
      exact .inr (hseen hc.2.2.2.1)
  | storeRead =>
      simp only [hat] at hc
      exact .inr (hseen hc.1)

/-- The consumer leaves the producer alone. -/
theorem consumerStep_frame (s : Ring) : s.consumerStep.producer = s.producer ∧
    s.consumerStep.mWriteIndex = s.mWriteIndex ∧ s.consumerStep.acquired = s.acquired := by
  unfold consumerStep
  split
  · exact ⟨rfl, rfl, rfl⟩
  · dsimp only
    split <;> exact ⟨rfl, rfl, rfl⟩
  · split <;> exact ⟨rfl, rfl, rfl⟩
  · exact ⟨rfl, rfl, rfl⟩
  · exact ⟨rfl, rfl, rfl⟩

/-- And in a drained ring it has nothing to do. -/
theorem Drained.consumer (h : Drained capacity s) :
    Drained capacity s.consumerStep ∧ s.consumerStep.mReadIndex = s.mReadIndex := by
  obtain ⟨hdrained, hinside, hseen⟩ := h
  unfold consumerStep
  split
  · exact ⟨⟨hdrained, hinside, .inr rfl⟩, rfl⟩
  · rename_i w hat
    have hload := hseen.resolve_left (by rw [hat]; nofun)
    dsimp only
    split
    · exact ⟨⟨hdrained, hinside, .inr hload⟩, rfl⟩
    · exact ⟨⟨hdrained, hinside, .inr hload⟩, rfl⟩
  · rename_i w r hat
    have hload := hseen.resolve_left (by rw [hat]; nofun)
    split
    · exact ⟨⟨hdrained, hinside, .inr hload⟩, rfl⟩
    · exact ⟨⟨hdrained, hinside, .inr hload⟩, rfl⟩
  · rename_i w r hat
    have hload := hseen.resolve_left (by rw [hat]; nofun)
    exact ⟨⟨hdrained, hinside, .inr hload⟩, rfl⟩
  · rename_i hat
    have hload := hseen.resolve_left (by rw [hat]; nofun)
    exact ⟨⟨hload, hinside, .inl rfl⟩, hload.trans hdrained.symm⟩

/-! ### The producer

It may be anywhere inside `acquire` when the ring is drained, with a read index that it has loaded
before.  If that one is old, the test may fail once; after the producer has loaded the indices
again it sees a drained ring, and the larger part of it is enough.  `turnsLeft` counts the steps
on this way. -/

/-- **What the producer has loaded** inside of `acquire(size)`. -/
def Acquiring (capacity size : ℕ) (s : Ring) : Prop :=
  match s.producer with
  | .idle => False
  | .loadWrite n => n = size
  | .loadRead n w => n = size ∧ w = s.mWriteIndex
  -- the left side is the larger one
  | .storeDataEnd n w r => n = size ∧ w = s.mWriteIndex ∧ capacity + 1 < w + r
  | .storeWrite result => result.size = size

/-- **The steps of the producer** until `acquire` returns. -/
def turnsLeft (s : Ring) : ℕ :=
  match s.producer with
  | .idle => 0
  | .storeWrite _ => 1
  -- with another read index the test may fail
  | .storeDataEnd _ _ r => if r = s.mReadIndex then 2 else 5
  | .loadRead _ _ => 3
  | .loadWrite _ => 4

theorem turnsLeft_le (s : Ring) : s.turnsLeft ≤ 5 := by
  unfold turnsLeft
  repeat' split
  all_goals decide

/-- It is the last step that stores `mWriteIndex`. -/
theorem Acquiring.turns (h : s.Acquiring capacity size) :
    (∃ result, s.producer = .storeWrite result ∧ result.size = size) ∨
      2 ≤ s.turnsLeft ∧ s.reserved = [] := by
  unfold Acquiring at h
  unfold turnsLeft reserved
  cases hat : s.producer with
  | idle => simp [hat] at h
  | loadWrite n => exact .inr ⟨show 2 ≤ 4 by decide, rfl⟩
  | loadRead n w => exact .inr ⟨show 2 ≤ 3 by decide, rfl⟩
  | storeDataEnd n w r =>
      refine .inr ⟨?_, rfl⟩
      dsimp only
      split <;> decide
  | storeWrite result =>
      simp only [hat] at h
      exact .inl ⟨result, rfl, h⟩

/-- The steps of the consumer do not count. -/
theorem Drained.turns_consumer (h : Drained capacity s) :
    s.consumerStep.turnsLeft = s.turnsLeft := by
  unfold turnsLeft
  rw [(consumerStep_frame s).1, h.consumer.2]

theorem Acquiring.consumer (h : s.Acquiring capacity size) :
    s.consumerStep.Acquiring capacity size := by
  unfold Acquiring at h ⊢
  rw [(consumerStep_frame s).1, (consumerStep_frame s).2.1]
  exact h

/-- The test of `Reserve`, in a drained ring. -/
theorem Drained.tryReserve (h : Drained capacity s) (size : ℕ) :
    Drained capacity (s.tryReserve size) ∧ (s.tryReserve size).Acquiring capacity size := by
  unfold Ring.tryReserve
  split
  · exact ⟨⟨h.drained, h.inside, h.seen⟩, rfl⟩
  · exact ⟨⟨h.drained, h.inside, h.seen⟩, rfl⟩

theorem tryReserve_acquired (s : Ring) (n : ℕ) : (s.tryReserve n).acquired = s.acquired := by
  unfold Ring.tryReserve
  split <;> rfl

theorem tryReserve_producer (s : Ring) (m n w r : ℕ) :
    (s.tryReserve m).producer ≠ .storeDataEnd n w r := by
  unfold Ring.tryReserve
  split <;> nofun

/-- **What a step of the producer does.** -/
theorem producerStep_cases (h : s.producerStep capacity = some s') :
    (∃ n, s' = { s with producer := .loadRead n s.mWriteIndex }) ∨
    (∃ (n : ℕ) (t : Ring), t.acquired = s.acquired ∧ s' = t.tryReserve n) ∨
    (∃ n w, s.producer = .loadRead n w ∧ ((capacity - w : ℕ) : ℤ) < (s.mReadIndex : ℤ) - 1 ∧
      s' = { s with producer := .storeDataEnd n w s.mReadIndex }) ∨
    ∃ result, s' = { s with
      mWriteIndex := s.mSnapWritePos, producer := .idle, acquired := s.acquired ++ [result] } := by
  unfold producerStep at h
  cases hat : s.producer with
  | idle => simp [hat] at h
  | loadWrite n =>
      simp only [hat, Option.some.injEq] at h
      exact .inl ⟨n, h.symm⟩
  | loadRead n w =>
      simp only [hat] at h
      right
      split at h
      · refine .inl ⟨n, _, ?_, (Option.some.inj h).symm⟩
        rfl
      · split at h
        · refine .inl ⟨n, _, ?_, (Option.some.inj h).symm⟩
          rfl
        · rename_i hleft
          exact .inr (.inl ⟨n, w, rfl, Int.not_le.mp hleft, (Option.some.inj h).symm⟩)
  | storeDataEnd n w r =>
      simp only [hat, Option.some.injEq] at h
      refine .inr (.inl ⟨n, _, ?_, h.symm⟩)
      rfl
  | storeWrite result =>
      simp only [hat, Option.some.injEq] at h
      exact .inr (.inr (.inr ⟨result, h.symm⟩))

/-- What is left to do after the test. -/
theorem turnsLeft_tryReserve (s : Ring) (size : ℕ) :
    (s.tryReserve size).turnsLeft = if size ≤ s.writeCapacity then 1 else 4 := by
  unfold Ring.tryReserve
  split <;> rfl

/-- A step of the producer that does not return yet. -/
structure Advances (capacity size : ℕ) (s s' : Ring) : Prop where
  drained : Drained capacity s'
  acquiring : s'.Acquiring capacity size
  acquired : s'.acquired = s.acquired
  turns : s'.turnsLeft < s.turnsLeft

/-- The test, with what `maximizeWriteCapacity` offers. -/
theorem Drained.offer (h : Drained capacity s) {t : Ring} (hread : t.mReadIndex = s.mReadIndex)
    (hwrite : t.mWriteIndex = s.mWriteIndex) (hconsumer : t.consumer = s.consumer)
    (hseen : t.mSnapReadEnd = s.mSnapReadEnd) (hacquired : t.acquired = s.acquired)
    (hturns : (if size ≤ t.writeCapacity then 1 else 4) < s.turnsLeft) :
    Advances capacity size s (t.tryReserve size) := by
  have ht : Drained capacity t := by
    refine ⟨?_, ?_, ?_⟩
    · rw [hread, hwrite, h.drained]
    · rw [hwrite]
      exact h.inside
    · rw [hconsumer, hseen, hwrite]
      exact h.seen
  obtain ⟨hdrained, hacquiring⟩ := ht.tryReserve size
  exact ⟨hdrained, hacquiring, (tryReserve_acquired t size).trans hacquired,
    by rwa [turnsLeft_tryReserve]⟩

/-- **The producer gets on** with every step, if the request is at most half of the
storage. -/
theorem Acquiring.producer (hacq : s.Acquiring capacity size) (h : Drained capacity s)
    (hsize : size ≤ capacity / 2) : (∃ result, s.producer = .storeWrite result) ∨
      ∃ s', s.producerStep capacity = some s' ∧ Advances capacity size s s' := by
  have hdrained := h.drained
  have hinside := h.inside
  unfold Acquiring at hacq
  unfold producerStep
  cases hat : s.producer with
  | idle => simp [hat] at hacq
  | storeWrite result => exact .inl ⟨result, rfl⟩
  | loadWrite n =>
      simp only [hat] at hacq
      subst hacq
      refine .inr ⟨_, rfl, ⟨⟨h.drained, h.inside, h.seen⟩, ⟨rfl, rfl⟩, rfl, ?_⟩⟩
      simp [turnsLeft, hat]
  | loadRead n w =>
      simp only [hat] at hacq ⊢
      obtain ⟨rfl, rfl⟩ := hacq
      right
      have hturns : s.turnsLeft = 3 := by simp [turnsLeft, hat]
      rw [if_neg (by omega)]
      split
      · -- the right part is at least half of the storage
        rename_i hright
        refine ⟨_, rfl, h.offer rfl rfl rfl rfl rfl ?_⟩
        rw [if_pos (by unfold writeCapacity; dsimp only; omega), hturns]
        decide
      · rename_i hleft
        refine ⟨_, rfl, ⟨⟨h.drained, h.inside, h.seen⟩, ⟨rfl, rfl, ?_⟩, rfl, ?_⟩⟩
        · omega
        · simp [turnsLeft, hat]
  | storeDataEnd n w r =>
      simp only [hat] at hacq ⊢
      obtain ⟨rfl, rfl, hlarger⟩ := hacq
      right
      refine ⟨_, rfl, h.offer rfl rfl rfl rfl rfl ?_⟩
      rcases eq_or_ne r s.mReadIndex with heq | hne
      · -- the left part is
        have hturns : s.turnsLeft = 2 := by simp [turnsLeft, hat, heq]
        rw [if_pos (by unfold writeCapacity; dsimp only; omega), hturns]
        decide
      · have hturns : s.turnsLeft = 5 := by simp [turnsLeft, hat, hne]
        rw [hturns]
        split <;> decide

/-! ### Whole calls

The consumer may come in between any two steps of the producer, any number of times, so the bound
is on the steps of the producer alone.  The induction is on the actions, with the steps that are
left in the statement. -/

/-- **`Reserve` returns true** within the steps that are left to the producer. -/
theorem Drained.reserveReturns (hsize : size ≤ capacity / 2) (as : List Action) :
    ∀ {s : Ring}, Drained capacity s → s.Acquiring capacity size → s.turnsLeft ≤ 4 →
      (∀ n, .acquire n ∉ as) → s.turnsLeft ≤ as.count .producer + 1 →
      Ring.reserveReturns capacity as s = some true := by
  induction as with
  | nil =>
      intro s _ hacq _ _ hcount
      rcases hacq.turns with ⟨result, hat, -⟩ | ⟨hturns, -⟩
      · rw [Ring.reserveReturns, reserved, hat]
        rfl
      · exact absurd (hturns.trans hcount) (by decide)
  | cons a as ih =>
      intro s h hacq hfour hcalls hcount
      have hrest : ∀ n, .acquire n ∉ as := fun n hn => hcalls n (.tail a hn)
      unfold Ring.reserveReturns
      rcases hacq.turns with ⟨result, hat, -⟩ | ⟨-, hreserved⟩
      · rw [reserved, hat]
        rfl
      · rw [if_neg (not_not.mpr hreserved)]
        cases a with
        | acquire n => exact absurd (.head as) (hcalls n)
        | consumer =>
            rw [List.count_cons_of_ne (by decide)] at hcount
            rw [← h.turns_consumer] at hfour hcount
            exact ih h.consumer.1 hacq.consumer hfour hrest hcount
        | producer =>
            rw [List.count_cons_self] at hcount
            rcases hacq.producer h hsize with ⟨result, hat⟩ | ⟨s', hstep, hs'⟩
            · simp [reserved, hat] at hreserved
            · have hturns := hs'.turns
              -- a test that failed would have left four steps
              have hgo : ∀ n, s'.producer ≠ .loadWrite n := by
                intro n hat
                have : s'.turnsLeft = 4 := by simp [turnsLeft, hat]
                omega
              simp only [hstep, Option.bind_some]
              exact ih hs'.drained hs'.acquiring (by omega) hrest (by omega)

/-- What was returned stays so. -/
theorem acquired_grows {a : Action} (h : next capacity a s = some s') :
    s.acquired <+: s'.acquired := by
  cases a with
  | acquire n =>
      rw [next] at h
      split at h
      · rw [← Option.some.inj h, tryReserve_acquired]
      · cases h
  | consumer => rw [← Option.some.inj h, (consumerStep_frame s).2.2]
  | producer =>
      rcases producerStep_cases h with ⟨n, rfl⟩ | ⟨n, t, ht, rfl⟩ | ⟨n, w, -, -, rfl⟩ |
        ⟨result, rfl⟩
      · exact List.prefix_refl _
      · rw [tryReserve_acquired, ht]
      · exact List.prefix_refl _
      · exact List.prefix_append _ _

/-- In whole runs. -/
theorem acquired_grows_run (as : List Action) {t : Ring}
    (hrun : as.foldlM (fun t a => next capacity a t) s = some t) : s.acquired <+: t.acquired := by
  induction as generalizing s with
  | nil =>
      obtain rfl := Option.some.inj hrun
      exact List.prefix_refl _
  | cons a as ih =>
      obtain ⟨s', hstep, hrest⟩ := Option.bind_eq_some_iff.mp hrun
      exact (acquired_grows hstep).trans (ih hrest)

/-- **`acquire` returns** within the steps that are left to the producer. -/
theorem Drained.acquireReturns (hsize : size ≤ capacity / 2) (as : List Action) {t : Ring} :
    ∀ {s : Ring}, Drained capacity s → s.Acquiring capacity size →
      as.foldlM (fun t a => next capacity a t) s = some t → s.turnsLeft ≤ as.count .producer →
      ∃ start, s.acquired ++ [⟨start, size⟩] <+: t.acquired := by
  induction as with
  | nil =>
      intro s _ hacq _ hcount
      rcases hacq.turns with ⟨result, hat, -⟩ | ⟨hturns, -⟩
      · simp [turnsLeft, hat] at hcount
      · exact absurd (hturns.trans hcount) (by decide)
  | cons a as ih =>
      intro s h hacq hrun hcount
      obtain ⟨s', hnext, hrest⟩ := Option.bind_eq_some_iff.mp hrun
      have hstep : next capacity a s = some s' := hnext
      cases a with
      | acquire n =>
          rw [next] at hstep
          split at hstep
          · rename_i hidle
            simp [Acquiring, hidle] at hacq
          · cases hstep
      | consumer =>
          obtain rfl := Option.some.inj hstep
          rw [List.count_cons_of_ne (by decide), ← h.turns_consumer] at hcount
          rw [← (consumerStep_frame s).2.2]
          exact ih h.consumer.1 hacq.consumer hrest hcount
      | producer =>
          rw [List.count_cons_self] at hcount
          rcases hacq.producer h hsize with ⟨result, hat⟩ | ⟨s'', hstep', hs'⟩
          · -- the store of `mWriteIndex`
            have hresult : result.size = size := by simpa [Acquiring, hat] using hacq
            have hreturned : s'.acquired = s.acquired ++ [result] := by
              rw [next] at hstep
              unfold producerStep at hstep
              simp only [hat, Option.some.injEq] at hstep
              rw [← hstep]
            refine ⟨result.start, ?_⟩
            rw [← hresult, ← hreturned]
            exact acquired_grows_run as hrest
          · obtain rfl := Option.some.inj (hstep'.symm.trans hstep)
            have hturns := hs'.turns
            rw [← hs'.acquired]
            exact ih hs'.drained hs'.acquiring hrest (by omega)

/-! ### Reachable states -/

/-- The left side is offered only if it is the larger one. -/
theorem leftSize_larger (h : (system capacity).Reachable s) :
    ∀ n w r, s.producer = .storeDataEnd n w r → capacity + 1 < w + r := by
  refine (h.invariant (I := fun s => Inv capacity s ∧
    ∀ n w r, s.producer = .storeDataEnd n w r → capacity + 1 < w + r) ?_ ?_).2
  · rintro _ rfl
    exact ⟨inv_init, fun n w r hat => by cases hat⟩
  · rintro s a s' ⟨hI, hlarger⟩ - hnext
    have hstep : next capacity a s = some s' := hnext
    refine ⟨hI.next hstep, fun n w r hat' => ?_⟩
    cases a with
    | acquire m =>
        rw [next] at hstep
        split at hstep
        · rw [← Option.some.inj hstep] at hat'
          exact absurd hat' (tryReserve_producer _ _ _ _ _)
        · cases hstep
    | consumer =>
        rw [← Option.some.inj hstep, (consumerStep_frame s).1] at hat'
        exact hlarger n w r hat'
    | producer =>
        rcases producerStep_cases hstep with ⟨m, rfl⟩ | ⟨m, t, -, rfl⟩ | ⟨m, w', hat, hleft, rfl⟩ |
          ⟨result, rfl⟩
        · cases hat'
        · exact absurd hat' (tryReserve_producer _ _ _ _ _)
        · have hp := hI.producer
          have hwrite := hI.writeIndex
          unfold ProducerInv at hp
          simp only [hat] at hp
          cases hat'
          omega
        · cases hat'

/-- What the producer has loaded in a reachable state. -/
theorem acquiring_of_reachable (h : (system capacity).Reachable s) (hacq : s.acquires size) :
    s.Acquiring capacity size := by
  have hp := (inv_of_reachable h).producer
  have hlarger := leftSize_larger h
  unfold acquires at hacq
  unfold ProducerInv at hp
  unfold Acquiring
  cases hat : s.producer with
  | idle => simp [hat] at hacq
  | loadWrite n =>
      simp only [hat] at hacq ⊢
      exact hacq
  | loadRead n w =>
      simp only [hat] at hacq hp ⊢
      exact ⟨hacq, hp⟩
  | storeDataEnd n w r =>
      simp only [hat] at hacq hp ⊢
      exact ⟨hacq, hp.1, hlarger n w r hat⟩
  | storeWrite result =>
      simp only [hat] at hacq ⊢
      exact hacq

/-- **A drained ring makes room** for a request of at most half of the storage, wherever the indices
are: one of the two parts that the storage is cut into there is large enough, and the larger one is
offered. -/
theorem drained_makesRoom (h : (system capacity).Reachable s)
    (hdrained : s.mReadIndex = s.mWriteIndex) (hsize : size ≤ capacity / 2) :
    MakesRoom capacity size s := by
  have hd := (inv_of_reachable h).toDrained hdrained
  refine ⟨fun _ pos e as hcalls hcount => ?_, fun hat as hcalls hcount => ?_,
    fun hacq as t hrun hcount => ?_⟩
  · have hd' : Drained capacity (s.withSnapshot pos e) := ⟨hd.drained, hd.inside, hd.seen⟩
    obtain ⟨htry, hacq⟩ := hd'.tryReserve size
    have hfour : ((s.withSnapshot pos e).tryReserve size).turnsLeft ≤ 4 := by
      rw [turnsLeft_tryReserve]
      split <;> decide
    exact htry.reserveReturns hsize as hacq hfour hcalls (by omega)
  · have hturns : s.turnsLeft = 4 := by simp [turnsLeft, hat]
    have hacq : s.Acquiring capacity size := by simp [Acquiring, hat]
    exact hd.reserveReturns hsize as hacq hturns.le hcalls (by omega)
  · exact hd.acquireReturns hsize as (acquiring_of_reachable h hacq) hrun
      (s.turnsLeft_le.trans hcount)

/-- Of four bytes three were consumed: there is room for two, in front of the index. -/
theorem drained_makesRoom_three : MakesRoom 4 2 {
    mWriteIndex := 3, mReadIndex := 3, mDataEnd := 0
    mSnapWritePos := 3, mSnapWriteEnd := 4, mSnapReadEnd := 3
    producer := .idle, consumer := .loadWrite
    acquired := [⟨0, 3⟩], returned := [⟨0, 3, 0, 0⟩], released := 3 } :=
  drained_makesRoom (StepSystem.reachable_foldlM (.init rfl)
    [.acquire 3, .producer, .producer, .producer, .consumer, .consumer, .consumer] (by decide))
    rfl (by decide)

end LinuxProgram.MemoryAllocator.Ring
