import LinuxProgram.Binlog.RegistryCapacity

/-!
# Which threads are seen

A thread that is to log pushes the pointer to its queue once, and from then on the dumper has to
find it in every pass.  With no more calls of `push` than slots nobody is refused and no slot is
given out twice; a call that reads waits for a moment in which no `push` is under way, and in such
a moment all slots that were reserved have been stored and committed, and nobody stores there
again.  So what is gone over after that moment stays what it was, whatever other threads do.

* `Visible` — each `push` has a slot of its own, and a call that reads finds the pointers
  that were stored, from the first slot on, with those of the calls that had returned.
* `VisibleInv` — the slots are `0, …, n - 1`, once each, and what a call that reads goes
  over is behind its commit.
* `visible_of_le` — every capacity whose slots fit the 16 bits that `push` takes of the size.
* `logInfoContainer_visible` — the container of the log, which has 128 slots.
-/

namespace LinuxProgram.Binlog.Registry

open Lib

/-- **What calls see of each other.** A `push` gets a slot of its own and is not refused, and a call
that reads goes over the pointers that were stored, from the first slot on and each of them once, so
that those pushed before it are among them when it ends. -/
structure Visible (capacity : ℕ) (s : State) : Prop where
  accepted : ∀ p ∈ s.pushes, p.pos ≠ .refused
  inside : ∀ p ∈ s.pushes, ∀ slot, p.pos.slot = some slot → slot < capacity
  /-- no two calls have a slot in common -/
  own : ∀ (i j : ℕ) (p q : Push) (slot : ℕ), s.pushes[i]? = some p → s.pushes[j]? = some q →
    p.pos.slot = some slot → q.pos.slot = some slot → i = j
  /-- what is found was stored -/
  stored : ∀ r ∈ s.reads, ∀ slot pTLS, (slot, pTLS) ∈ r.visited →
    ∃ p ∈ s.pushes, p.pos = .returned slot ∧ pTLS = some p.pTLS
  /-- from the first slot on, each of them once -/
  once : ∀ r ∈ s.reads, r.visited.map Prod.fst = List.range r.visited.length
  /-- all calls of `push` that had returned -/
  complete : ∀ r ∈ s.reads, ∀ currentSize, r.pos = .done currentSize →
    ∀ slot ∈ r.before, slot ∈ r.visited.map Prod.fst
  /-- the halves of the word are numbers of their own -/
  halves : sizeBits s.mSize = reservations s.pushes ∧ commitingBits s.mSize = commitings s.pushes

/-- A slot that is committed. -/
def Committed (s : State) (slot : ℕ) : Prop :=
  ∃ p ∈ s.pushes, p.pos = .returned slot ∧ s.mArray slot = some p.pTLS

/-- **A loop over the first slots**, up to some index. -/
structure Scan (s : State) (r : Read) (currentSize index : ℕ) : Prop where
  le : index ≤ currentSize
  committed : ∀ slot < currentSize, Committed s slot
  before : ∀ slot ∈ r.before, slot < currentSize
  visited : r.visited = (List.range index).map fun slot => (slot, s.mArray slot)

/-- What a call that reads goes over. -/
def ReadInv (s : State) (r : Read) : Prop :=
  match r.pos with
  | .waiting => r.visited = [] ∧ ∀ slot ∈ r.before, Committed s slot
  | .scanning currentSize index => Scan s r currentSize index
  | .done currentSize => Scan s r currentSize currentSize

/-- The slots of all calls. -/
def slots (pushes : List Push) : List (Option ℕ) := pushes.map fun p => p.pos.slot

/-- **The invariant.** The slots that were given out are the first ones, each of them given out
once; a call that has stored its pointer finds it there as long as it is looked for; and the calls
that read are where `ReadInv` says. -/
structure VisibleInv (s : State) : Prop where
  counts : Counts s
  accepted : ∀ p ∈ s.pushes, p.pos ≠ .refused
  numbered : Agents.Numbered (slots s.pushes) (reservations s.pushes)
  stored : ∀ p ∈ s.pushes, ∀ slot, p.pos = .committing slot ∨ p.pos = .returned slot →
    s.mArray slot = some p.pTLS
  reads : ∀ r ∈ s.reads, ReadInv s r

variable {capacity : ℕ} {s s' : State} {i j : ℕ} {p : Push} {r : Read}

theorem visibleInv_init : VisibleInv init where
  counts := rfl
  accepted p h := by cases h
  numbered := .nil
  stored p h := by cases h
  reads r h := by cases h

theorem getElem?_slots (hp : s.pushes[i]? = some p) : (slots s.pushes)[i]? = some p.pos.slot := by
  rw [slots, List.getElem?_map, hp, Option.map_some]

/-- A step that leaves the slots as they are. -/
theorem slots_same (hp : s.pushes[i]? = some p) (pos : PushAt) (hslot : pos.slot = p.pos.slot) :
    slots (s.pushes.set i { p with pos }) = slots s.pushes ∧
      reservations (s.pushes.set i { p with pos }) = reservations s.pushes :=
  ⟨Agents.map_set hp hslot, Agents.countP_set_same hp (congrArg Option.isSome hslot)⟩

/-- Another call has another slot. -/
theorem VisibleInv.slot_ne (h : VisibleInv s) {q : Push} {slot slot' : ℕ}
    (hp : s.pushes[i]? = some p) (hq : s.pushes[j]? = some q) (hne : j ≠ i)
    (hslot : p.pos.slot = some slot) (hslot' : q.pos.slot = some slot') : slot' ≠ slot := by
  rintro rfl
  refine hne (h.numbered.own j i slot' ?_ ?_)
  · rw [getElem?_slots hq, hslot']
  · rw [getElem?_slots hp, hslot]

/-! ### What is committed stays

A slot is written by the call that has reserved it, and by no other one.  Behind the commit of
that call the slot does not change any more, so whatever a call that reads has found there before
is what is there now. -/

/-- **A step of `push`** leaves alone what is committed. -/
theorem VisibleInv.committed_push (h : VisibleInv s) (hp : s.pushes[i]? = some p)
    (hstep : PushStep capacity s i p s') {slot : ℕ} (hslot : Committed s slot) :
    Committed s' slot ∧ s'.mArray slot = s.mArray slot := by
  obtain ⟨q, hq, hpos, harray⟩ := hslot
  obtain ⟨j, hj⟩ := List.mem_iff_getElem?.mp hq
  have hnot : ∀ {pos : PushAt}, p.pos = pos → (∀ slot, pos ≠ .returned slot) → j ≠ i := by
    rintro pos hp' hne rfl
    rw [hp, Option.some_inj] at hj
    subst hj
    exact hne slot (hp'.symm.trans hpos)
  have hstays : ∀ {p' : Push}, j ≠ i → q ∈ s.pushes.set i p' := by
    intro p' hne
    refine List.mem_iff_getElem?.mpr ⟨j, ?_⟩
    rw [Agents.getElem?_set hp, if_neg hne]
    exact hj
  cases hstep with
  | refuse hat => exact ⟨⟨q, hstays (hnot hat nofun), hpos, harray⟩, rfl⟩
  | pass hat => exact ⟨⟨q, hstays (hnot hat nofun), hpos, harray⟩, rfl⟩
  | reserve hat => exact ⟨⟨q, hstays (hnot hat nofun), hpos, harray⟩, rfl⟩
  | store slot' hat hlt =>
      have hne : j ≠ i := hnot hat nofun
      have hother : slot ≠ slot' :=
        h.slot_ne hp hj hne (by rw [hat]; rfl) (by rw [hpos]; rfl)
      have hsame : Function.update s.mArray slot' (some p.pTLS) slot = s.mArray slot :=
        Function.update_of_ne hother _ _
      exact ⟨⟨q, hstays hne, hpos, hsame.trans harray⟩, hsame⟩
  | commit slot' hat => exact ⟨⟨q, hstays (hnot hat nofun), hpos, harray⟩, rfl⟩

/-- **What a call has come to** stays as it is. -/
theorem ReadInv.frame (h : ReadInv s r)
    (hframe : ∀ slot, Committed s slot → Committed s' slot ∧ s'.mArray slot = s.mArray slot) :
    ReadInv s' r := by
  have hscan : ∀ {currentSize index : ℕ}, Scan s r currentSize index →
      Scan s' r currentSize index := by
    intro currentSize index hscan
    refine ⟨hscan.le, fun slot hlt => (hframe slot (hscan.committed slot hlt)).1, hscan.before, ?_⟩
    rw [hscan.visited]
    apply List.map_congr_left
    intro slot hslot
    have hlt : slot < currentSize := (List.mem_range.mp hslot).trans_le hscan.le
    rw [(hframe slot (hscan.committed slot hlt)).2]
  rw [ReadInv] at h ⊢
  cases hpos : r.pos with
  | waiting =>
      rw [hpos] at h
      exact ⟨h.1, fun slot hslot => (hframe slot (h.2 slot hslot)).1⟩
  | scanning currentSize index =>
      rw [hpos] at h
      exact hscan h
  | done currentSize =>
      rw [hpos] at h
      exact hscan h

/-! ### Steps of push -/

/-- A call that has no slot leaves one for it. -/
theorem reservations_lt (hp : s.pushes[i]? = some p) (hslot : p.pos.slot = none) :
    reservations s.pushes < s.pushes.length := by
  have hmem : p ∈ s.pushes := List.mem_of_getElem? hp
  refine lt_of_le_of_ne List.countP_le_length fun hall => ?_
  have := List.countP_eq_length.mp hall p hmem
  rw [hslot] at this
  cases this

/-- **The pointer is written** to the slot of the call, and to no slot of another one. -/
theorem VisibleInv.stored_store (h : VisibleInv s) (hp : s.pushes[i]? = some p) {slot : ℕ}
    (hpos : p.pos = .storing slot) :
    ∀ q ∈ s.pushes.set i { p with pos := .committing slot }, ∀ slot',
      q.pos = .committing slot' ∨ q.pos = .returned slot' →
        Function.update s.mArray slot (some p.pTLS) slot' = some q.pTLS := by
  intro q hq slot' hslot'
  obtain ⟨j, hj⟩ := List.mem_iff_getElem?.mp hq
  rw [Agents.getElem?_set hp] at hj
  split at hj
  · rw [← Option.some.inj hj] at hslot' ⊢
    obtain rfl : slot = slot' := by rcases hslot' with hat | hat <;> cases hat; rfl
    exact Function.update_self _ _ _
  · rename_i hne
    have hother : slot' ≠ slot := by
      refine h.slot_ne hp hj hne (by rw [hpos]; rfl) ?_
      rcases hslot' with hat | hat <;> rw [hat] <;> rfl
    rw [Function.update_of_ne hother]
    exact h.stored q (List.mem_of_getElem? hj) slot' hslot'

/-- **A step of `push` keeps the invariant.** -/
theorem VisibleInv.push (h : VisibleInv s) (hcapacity : capacity ≤ 2 ^ 16)
    (hlength : s.pushes.length ≤ capacity) (hp : s.pushes[i]? = some p)
    (hstep : PushStep capacity s i p s') : VisibleInv s' := by
  have hcounts := h.counts.push hp hstep
  have hreads : ∀ r ∈ s.reads, ReadInv s' r := fun r hr =>
    (h.reads r hr).frame fun slot hslot => h.committed_push hp hstep hslot
  have hmem : p ∈ s.pushes := List.mem_of_getElem? hp
  have hword : slotBits s.mSize = reservations s.pushes % 2 ^ 16 := by
    rw [h.counts, slotBits_word]
  -- as long as a call has no slot, the number of the next one fits 16 bits
  have hnext : p.pos.slot = none → slotBits s.mSize = reservations s.pushes ∧
      reservations s.pushes < capacity := by
    intro hslot
    have hlt := reservations_lt hp hslot
    omega
  cases hstep with
  | refuse hpos hfull =>
      have := hnext (by rw [hpos]; rfl)
      omega
  | pass hpos hfree =>
      obtain ⟨hslots, hr⟩ := slots_same hp .reserving (by rw [hpos]; rfl)
      refine ⟨hcounts, Agents.forall_set h.accepted nofun, ?_,
        Agents.forall_set h.stored (by rintro slot (hslot | hslot) <;> cases hslot), hreads⟩
      dsimp only [State.setPush]
      rw [hslots, hr]
      exact h.numbered
  | reserve hpos =>
      obtain ⟨hslot, -⟩ := hnext (by rw [hpos]; rfl)
      obtain ⟨hr, -, -⟩ := counts_reserve hp hpos (slotBits s.mSize)
      refine ⟨hcounts, Agents.forall_set h.accepted nofun, ?_,
        Agents.forall_set h.stored (by rintro slot (hslot | hslot) <;> cases hslot), hreads⟩
      dsimp only [State.setPush]
      rw [hr, slots, List.map_set, hslot]
      refine h.numbered.give ?_
      rw [getElem?_slots hp, hpos]
      rfl
  | store slot hpos hlt =>
      obtain ⟨hslots, hr⟩ := slots_same hp (.committing slot) (by rw [hpos]; rfl)
      refine ⟨hcounts, Agents.forall_set h.accepted nofun, ?_, h.stored_store hp hpos, hreads⟩
      dsimp only [State.setPush]
      rw [hslots, hr]
      exact h.numbered
  | commit slot hpos =>
      obtain ⟨hslots, hr⟩ := slots_same hp (.returned slot) (by rw [hpos]; rfl)
      refine ⟨hcounts, Agents.forall_set h.accepted nofun, ?_, Agents.forall_set h.stored ?_,
        hreads⟩
      · dsimp only [State.setPush]
        rw [hslots, hr]
        exact h.numbered
      · rintro slot' (hslot | hslot)
        · cases hslot
        · cases hslot
          exact h.stored p hmem slot (.inl hpos)

/-! ### Steps of calls that read

A call that reads spins until the two halves of the word agree.  In that moment there are as many
commits as reservations, and each call commits once, so every slot that is reserved is committed.
This is where the halves have to be numbers of their own, without a carry from one to the other. -/

/-- **In a moment in which no `push` is under way**, all slots are committed. -/
theorem VisibleInv.committed_of_idle (h : VisibleInv s) (hlength : s.pushes.length < 2 ^ 32)
    (hidle : commitingBits s.mSize = 0) :
    sizeBits s.mSize = reservations s.pushes ∧
      ∀ slot < reservations s.pushes, Committed s slot := by
  have hr : reservations s.pushes < 2 ^ 32 := List.countP_le_length.trans_lt hlength
  have hc : commitings s.pushes < 2 ^ 32 := List.countP_le_length.trans_lt hlength
  rw [h.counts, commitingBits_word hr hc] at hidle
  refine ⟨by rw [h.counts, sizeBits_word, Nat.mod_eq_of_lt hr], fun slot hlt => ?_⟩
  obtain ⟨p, hp, hslot⟩ := List.mem_map.mp (h.numbered.onto slot hlt)
  have hnot : ¬ p.pos.commiting = true := List.countP_eq_zero.mp hidle p hp
  have hpos : p.pos = .returned slot := by
    cases hat : p.pos with
    | checking => rw [hat] at hslot; cases hslot
    | reserving => rw [hat] at hslot; cases hslot
    | storing slot' => exact absurd (by rw [hat]; rfl) hnot
    | committing slot' => exact absurd (by rw [hat]; rfl) hnot
    | returned slot' => rw [hat] at hslot; rw [Option.some.inj hslot]
    | refused => rw [hat] at hslot; cases hslot
  exact ⟨p, hp, hpos, h.stored p hp slot (.inr hpos)⟩

/-- A slot that is committed is one of those that are reserved. -/
theorem VisibleInv.lt_of_committed (h : VisibleInv s) {slot : ℕ} (hslot : Committed s slot) :
    slot < reservations s.pushes := by
  obtain ⟨p, hp, hpos, -⟩ := hslot
  refine h.numbered.lt slot (List.mem_map.mpr ⟨p, hp, ?_⟩)
  rw [hpos]
  rfl

/-- **A step of a call that reads** keeps what is known of it. -/
theorem VisibleInv.readInv_step (h : VisibleInv s) (hlength : s.pushes.length < 2 ^ 32)
    (hr : s.reads[j]? = some r) (hstep : ReadStep s j r s') :
    ∀ r' ∈ s'.reads, ReadInv s r' := by
  have hinv := h.reads r (List.mem_of_getElem? hr)
  rw [ReadInv] at hinv
  cases hstep with
  | wait => exact h.reads
  | load hpos hidle =>
      rw [hpos] at hinv
      obtain ⟨hsize, hcommitted⟩ := h.committed_of_idle hlength hidle
      refine Agents.forall_set h.reads ?_
      rw [hsize]
      exact ⟨Nat.zero_le _, hcommitted, fun slot hslot => h.lt_of_committed (hinv.2 slot hslot),
        hinv.1⟩
  | visit currentSize index hpos hlt =>
      rw [hpos] at hinv
      refine Agents.forall_set h.reads ⟨hlt, hinv.committed, hinv.before, ?_⟩
      rw [List.range_succ, List.map_append, List.map_singleton, ← hinv.visited]
  | finish currentSize index hpos hle =>
      rw [hpos] at hinv
      obtain rfl : index = currentSize := le_antisymm hinv.le hle
      exact Agents.forall_set h.reads ⟨le_rfl, hinv.committed, hinv.before, hinv.visited⟩

theorem mem_returned {slot : ℕ} : slot ∈ s.returned ↔ ∃ p ∈ s.pushes, p.pos = .returned slot := by
  rw [State.returned, List.mem_filterMap]
  constructor
  · rintro ⟨p, hp, hreturned⟩
    refine ⟨p, hp, ?_⟩
    split at hreturned
    · rename_i hpos
      rw [hpos, Option.some.inj hreturned]
    · cases hreturned
  · rintro ⟨p, hp, hpos⟩
    exact ⟨p, hp, by rw [hpos]⟩

/-- **Every step keeps the invariant.** -/
theorem VisibleInv.step (h : VisibleInv s) (hcapacity : capacity ≤ 2 ^ 16)
    (hlength : s.pushes.length ≤ capacity) {a : Action}
    (hstep : next capacity a s = some s') : VisibleInv s' := by
  cases a with
  | callPush pTLS =>
      rw [next, Option.some_inj] at hstep
      subst hstep
      obtain ⟨hr, -, hc⟩ := counts_concat s.pushes pTLS
      refine ⟨?_, Agents.forall_concat h.accepted (by simp), ?_,
        Agents.forall_concat h.stored ?_, fun r hr => ?_⟩
      · rw [Counts, hr, hc]
        exact h.counts
      · dsimp only
        rw [hr, slots, List.map_append]
        exact h.numbered.concat
      · rintro slot (hslot | hslot) <;> cases hslot
      · refine (h.reads r hr).frame fun slot hslot => ⟨?_, rfl⟩
        obtain ⟨p, hp, hcommitted⟩ := hslot
        exact ⟨p, List.mem_append_left _ hp, hcommitted⟩
  | callRead =>
      rw [next, Option.some_inj] at hstep
      subst hstep
      refine ⟨h.counts, h.accepted, h.numbered, h.stored, ?_⟩
      intro r hr
      rcases List.mem_append.mp hr with hr | hr
      · exact (h.reads r hr).frame fun slot hslot => ⟨hslot, rfl⟩
      · rw [List.mem_singleton.mp hr]
        refine ⟨rfl, fun slot hslot => ?_⟩
        obtain ⟨p, hp, hpos⟩ := mem_returned.mp hslot
        exact ⟨p, hp, hpos, h.stored p hp slot (.inr hpos)⟩
  | push i =>
      obtain ⟨p, hp, hpush⟩ := pushStep_spec hstep
      exact h.push hcapacity hlength hp hpush
  | read j =>
      obtain ⟨r, hr, hread⟩ := readStep_spec hstep
      obtain ⟨hmSize, hmArray, hpushes⟩ := hread.frame
      have hlength' : s.pushes.length < 2 ^ 32 := by omega
      have hreads := h.readInv_step hlength' hr hread
      refine ⟨?_, ?_, ?_, ?_, fun r' hr' => (hreads r' hr').frame fun slot hslot => ?_⟩
      · rw [Counts, hmSize, hpushes]
        exact h.counts
      · rw [hpushes]
        exact h.accepted
      · rw [hpushes]
        exact h.numbered
      · rw [hpushes, hmArray]
        exact h.stored
      · rw [Committed, hpushes, hmArray]
        exact ⟨hslot, rfl⟩

/-! ### Runs -/

/-- Calls do not go away. -/
theorem length_pushes_le {a : Action} (hstep : next capacity a s = some s') :
    s.pushes.length ≤ s'.pushes.length := by
  cases a with
  | callPush pTLS =>
      rw [next, Option.some_inj] at hstep
      subst hstep
      rw [List.length_append]
      exact Nat.le_add_right _ _
  | callRead =>
      rw [next, Option.some_inj] at hstep
      subst hstep
      exact le_rfl
  | push i =>
      obtain ⟨p, -, hpush⟩ := pushStep_spec hstep
      cases hpush <;> exact (List.length_set ..).ge
  | read j =>
      obtain ⟨r, -, hread⟩ := readStep_spec hstep
      rw [hread.frame.2.2]

/-- The slots of a scan, in order. -/
theorem Scan.slots {currentSize index : ℕ} (h : Scan s r currentSize index) :
    r.visited.map Prod.fst = List.range index := by
  rw [h.visited, List.map_map]
  exact List.map_id _

/-- **A scan visits what was pushed.** -/
theorem Scan.visits {currentSize index : ℕ} (h : Scan s r currentSize index) {slot : ℕ}
    {pTLS : Option ℕ} (hmem : (slot, pTLS) ∈ r.visited) :
    ∃ p ∈ s.pushes, p.pos = .returned slot ∧ pTLS = some p.pTLS := by
  rw [h.visited] at hmem
  obtain ⟨slot', hslot', heq⟩ := List.mem_map.mp hmem
  cases heq
  exact h.committed slot ((List.mem_range.mp hslot').trans_le h.le)

/-- What a call that reads has visited, wherever it stands. -/
theorem ReadInv.visits (h : ReadInv s r) :
    (∃ index, r.visited.map Prod.fst = List.range index) ∧
      ∀ slot pTLS, (slot, pTLS) ∈ r.visited →
        ∃ p ∈ s.pushes, p.pos = .returned slot ∧ pTLS = some p.pTLS := by
  rw [ReadInv] at h
  cases hpos : r.pos with
  | waiting =>
      rw [hpos] at h
      rw [h.1]
      exact ⟨⟨0, rfl⟩, nofun⟩
  | scanning currentSize index =>
      rw [hpos] at h
      exact ⟨⟨index, h.slots⟩, fun _ _ hmem => h.visits hmem⟩
  | done currentSize =>
      rw [hpos] at h
      exact ⟨⟨currentSize, h.slots⟩, fun _ _ hmem => h.visits hmem⟩

theorem VisibleInv.visible (h : VisibleInv s) (hcapacity : capacity ≤ 2 ^ 16)
    (hlength : s.pushes.length ≤ capacity) : Visible capacity s := by
  have hlength' : s.pushes.length < 2 ^ 32 := by omega
  have hr : reservations s.pushes ≤ capacity := List.countP_le_length.trans hlength
  refine ⟨h.accepted, fun p hp slot hslot => ?_, ?_, ?_, ?_, ?_, ?_⟩
  · exact (h.numbered.lt slot (List.mem_map.mpr ⟨p, hp, hslot⟩)).trans_le hr
  · intro i j p q slot hp hq hslot hslot'
    refine h.numbered.own i j slot ?_ ?_
    · rw [getElem?_slots hp, hslot]
    · rw [getElem?_slots hq, hslot']
  · intro r hr
    exact (h.reads r hr).visits.2
  · intro r hr
    obtain ⟨index, hindex⟩ := (h.reads r hr).visits.1
    have hlen : r.visited.length = index := by
      rw [← List.length_map Prod.fst, hindex, List.length_range]
    rw [hlen, hindex]
  · intro r hr currentSize hpos slot hslot
    have hinv := h.reads r hr
    rw [ReadInv, hpos] at hinv
    rw [hinv.slots]
    exact List.mem_range.mpr (hinv.before slot hslot)
  · have hr32 : reservations s.pushes < 2 ^ 32 := List.countP_le_length.trans_lt hlength'
    have hc32 : commitings s.pushes < 2 ^ 32 := List.countP_le_length.trans_lt hlength'
    rw [h.counts, sizeBits_word, commitingBits_word hr32 hc32, Nat.mod_eq_of_lt hr32]
    exact ⟨rfl, rfl⟩

/-- **In every run with no more calls than slots**, if a slot fits 16 bits. -/
theorem visible_of_le (hcapacity : capacity ≤ 2 ^ 16) (h : (system capacity).Reachable s)
    (hlength : s.pushes.length ≤ capacity) : Visible capacity s := by
  have hinv : s.pushes.length ≤ capacity → VisibleInv s := by
    refine h.invariant (I := fun t => t.pushes.length ≤ capacity → VisibleInv t)
      (fun t ht _ => ?_) fun t a t' hinv _ hstep hle => ?_
    · cases ht
      exact visibleInv_init
    · have hle' := (length_pushes_le hstep).trans hle
      exact (hinv hle').step hcapacity hle' hstep
  exact (hinv hlength).visible hcapacity hlength

/-! ### The container of the log -/

/-- `MAX_THREAD_SUPPORTED`, which is a template parameter of `LogInfoContainer`.  The template is
private, and `LogInfoContainer<>` is the only type that is made of it. -/
def maxThreadSupported : ℕ := 128

/-- **Calls see of each other what they should**: in every run of `LogInfoContainer<>` with no more
calls of `push` than it has slots, and with any number of calls of `consume_all` and `empty`
between their steps. -/
theorem logInfoContainer_visible (h : (system maxThreadSupported).Reachable s)
    (hlength : s.pushes.length ≤ maxThreadSupported) : Visible maxThreadSupported s :=
  visible_of_le (by decide) h hlength

/-- Two threads reserve their slots before either of them stores.  A call that reads begins in
between, waits until both have committed, and finds both pointers. -/
def overlap : List Action :=
  [.callPush 7, .callPush 8, .push 0, .push 1, .push 1, .push 0, .callRead, .read 0, .push 1,
    .push 1, .read 0, .push 0, .push 0, .read 0, .read 0, .read 0, .read 0]

theorem overlap_run :
    (overlap.foldlM (fun s a => next maxThreadSupported a s) init).map
      (fun s => (s.pushes, s.reads)) =
    some ([⟨7, .returned 1⟩, ⟨8, .returned 0⟩],
      [⟨[], .done 2, [(0, some 8), (1, some 7)]⟩]) := by
  decide +kernel

theorem logInfoContainer_visible_overlap : ∃ s, (system maxThreadSupported).Reachable s ∧
    s.pushes = [⟨7, .returned 1⟩, ⟨8, .returned 0⟩] ∧
    s.reads = [⟨[], .done 2, [(0, some 8), (1, some 7)]⟩] ∧ Visible maxThreadSupported s := by
  obtain ⟨s, hrun, hs⟩ := Option.map_eq_some_iff.mp overlap_run
  obtain ⟨hpushes, hreads⟩ := Prod.mk.inj hs
  have hreach : (system maxThreadSupported).Reachable s :=
    StepSystem.reachable_foldlM (.init rfl) overlap hrun
  have hlength : s.pushes.length ≤ maxThreadSupported := by
    rw [hpushes]
    decide
  exact ⟨s, hreach, hpushes, hreads, logInfoContainer_visible hreach hlength⟩

end LinuxProgram.Binlog.Registry
