import LinuxProgram.Lib.StepSystem
import LinuxProgram.Lib.SlotPool

/-!
# OrderPool.H

A pool of `Capacity` objects.  The pointers to those that are free are behind the first
`mSize` places of `FreeSlots`; `allocate` takes the first of them, and `deallocate` puts a
pointer in front.  What is in the first `mSize` places is left over from before, so that the
invariant is about a suffix of the array that moves with every call.

`deallocate` is declared with a result and ends without a `return`, on which the language says
nothing.  Whether its caller goes on is a matter of the build, and a parameter here.

* `OrderPool` — the pool.  A pointer to an object of `mData` is its index.
* `Build`, `deallocate` — what becomes of a call that runs off the end of its function.
* `SoundPool`, `Sound` — what a client relies on.
* `orderPool_sound` — it holds after all sequences of calls that deallocate only what is
  live, as long as control comes back from them.
* `sound_iff_returns` — it holds after no others.
-/

namespace LinuxProgram.PrestoLabs

open Lib Lib.SlotPool

/-- **The pool.**  The objects are known by their places in the storage.  The first `mSize` entries
of `FreeSlots` are used up, and the others are the free objects. -/
structure OrderPool (Capacity : ℕ) where
  FreeSlots : Vector (Fin Capacity) Capacity
  mSize : ℕ
  mSize_le : mSize ≤ Capacity

namespace OrderPool

variable {Capacity : ℕ}

/-- The constructor. -/
def new (Capacity : ℕ) : OrderPool Capacity where
  FreeSlots := Vector.ofFn id
  mSize := 0
  mSize_le := Nat.zero_le _

def full (s : OrderPool Capacity) : Bool := s.mSize == Capacity

theorem full_iff {s : OrderPool Capacity} : s.full = true ↔ s.mSize = Capacity := beq_iff_eq

/-- **`allocate`**. -/
def allocate (s : OrderPool Capacity) : Option (Fin Capacity) × OrderPool Capacity :=
  if h : s.full then (none, s)
  else
    have hlt : s.mSize < Capacity := Nat.lt_of_le_of_ne s.mSize_le (mt full_iff.mpr h)
    (some s.FreeSlots[s.mSize], { s with mSize := s.mSize + 1, mSize_le := hlt })

/-- **A build of the header.**  Where a function with a result type ends without a `return`, the
behaviour is undefined whether or not the caller looks at the result: in some builds control comes
back all the same, and in others the compiler has put a trap there, or nothing at all. -/
structure Build where
  returns : Bool
  deriving DecidableEq, Repr

/-- The assignment `FreeSlots[--mSize] = ptr` of `deallocate`.  For `mSize = 0` it would write in
front of `FreeSlots`. -/
def putBack (s : OrderPool Capacity) (ptr : Fin Capacity) : Option (OrderPool Capacity) :=
  if h : s.mSize = 0 then none
  else
    have hlt : s.mSize - 1 < Capacity := by
      have := s.mSize_le
      omega
    some
      { FreeSlots := s.FreeSlots.set (s.mSize - 1) ptr
        mSize := s.mSize - 1
        mSize_le := hlt.le }

/-- **`deallocate`**, the pool that it leaves to its caller.  There is none where the language says
nothing: if it writes in front of the array, or if control does not come back from its end. -/
def deallocate (build : Build) (s : OrderPool Capacity) (ptr : Fin Capacity) :
    Option (OrderPool Capacity) := if build.returns then s.putBack ptr else none

/-- **`FreeSlots[mSize..Capacity)`**. -/
def free (s : OrderPool Capacity) : List (Fin Capacity) := s.FreeSlots.toList.drop s.mSize

/-! ### Sequences of calls -/

/-- **The pool, as far as the language defines it**, with the objects that are live as a ghost.
Behind a call that has no defined end there is no pool any more. -/
structure State (Capacity : ℕ) where
  pool : Option (OrderPool Capacity)
  live : List (Fin Capacity)

inductive Call (Capacity : ℕ)
  | allocate
  | deallocate (ptr : Fin Capacity)

/-- The constructor has run. -/
def State.start (Capacity : ℕ) : State Capacity := ⟨some (new Capacity), []⟩

/-- A call of `allocate`. -/
def State.allocate (s : State Capacity) : State Capacity :=
  match s.pool.map OrderPool.allocate with
  | none => s
  | some (none, pool) => { s with pool := some pool }
  | some (some ptr, pool) => { pool := some pool, live := ptr :: s.live }

/-- **A call.**  What is deallocated is live. -/
def next (build : Build) : Call Capacity → State Capacity → Option (State Capacity)
  | .allocate, s => some s.allocate
  | .deallocate ptr, s =>
      if ptr ∈ s.live then
        some { pool := s.pool.bind (deallocate build · ptr), live := s.live.erase ptr }
      else none

/-- **All sequences of calls** in some build. -/
def system (build : Build) (Capacity : ℕ) : StepSystem (State Capacity) (Call Capacity) :=
  .ofFun (.start Capacity) (next build)

/-- The state behind a sequence of calls, if each deallocates only what is live. -/
def run (build : Build) (calls : List (Call Capacity)) : Option (State Capacity) :=
  calls.foldlM (fun s call => next build call s) (.start Capacity)

/-- **Control comes back** from the call: from `allocate` always, and from `deallocate` in the
builds in which it does without a `return`. -/
def Call.Returns (build : Build) : Call Capacity → Prop
  | .allocate => True
  | .deallocate _ => build.returns = true

/-- **A sound pool**, with the objects that are live. -/
structure SoundPool (pool : OrderPool Capacity) (live : List (Fin Capacity)) : Prop where
  distinct : pool.free.Nodup
  exact : ∀ ptr, ptr ∈ pool.free ↔ ptr ∉ live
  /-- No object is live twice. -/
  once : live.Nodup
  /-- `allocate` never returns a live object. -/
  fresh : ∀ ptr, pool.allocate.1 = some ptr → ptr ∉ live
  null : pool.allocate.1 = none ↔ live.length = Capacity
  /-- `deallocate` of a live object writes into `FreeSlots`. -/
  inside : ∀ ptr ∈ live, (pool.putBack ptr).isSome

/-- **What a client relies on**: there is a pool, and it is sound. -/
def Sound (s : State Capacity) : Prop := ∃ pool, s.pool = some pool ∧ SoundPool pool s.live

/-- All objects. -/
def objects (Capacity : ℕ) : List (Fin Capacity) := List.finRange Capacity

/-- **The invariant.** The pool is there, and its objects are split into those that are free and
those that are live. -/
def Inv (s : State Capacity) : Prop :=
  ∃ pool, s.pool = some pool ∧ Split (objects Capacity) pool.free s.live

variable {build : Build} {s s' : State Capacity} {pool : OrderPool Capacity}
  {live : List (Fin Capacity)} {ptr : Fin Capacity}

/-! ### One call -/

theorem free_new (Capacity : ℕ) : (new Capacity).free = objects Capacity := by
  unfold free new objects
  rw [List.drop_zero, Vector.toList_ofFn, List.ofFn_id]

/-- **`allocate`** takes the first free object, if there is one. -/
theorem allocate_cases (pool : OrderPool Capacity) :
    (pool.allocate = (none, pool) ∧ pool.free = []) ∨
      ∃ ptr pool', pool.allocate = (some ptr, pool') ∧ pool.free = ptr :: pool'.free := by
  by_cases h : pool.full
  · refine .inl ⟨by rw [allocate, dif_pos h], ?_⟩
    rw [free, List.drop_eq_nil_iff, Vector.length_toList]
    exact (full_iff.mp h).ge
  · have hlt : pool.mSize < Capacity := Nat.lt_of_le_of_ne pool.mSize_le (mt full_iff.mpr h)
    refine .inr ⟨_, _, by rw [allocate, dif_neg h], ?_⟩
    unfold free
    rw [List.drop_eq_getElem_cons (by rwa [Vector.length_toList]), Vector.getElem_toList]

/-- **`deallocate`** puts the object in front of the others that are free. -/
theorem putBack_eq (pool : OrderPool Capacity) (ptr : Fin Capacity) (h : pool.mSize ≠ 0) :
    ∃ pool', pool.putBack ptr = some pool' ∧ pool'.free = ptr :: pool.free := by
  have hle := pool.mSize_le
  have hlt : pool.mSize - 1 < Capacity := by omega
  refine ⟨_, by rw [putBack, dif_neg h], ?_⟩
  show (pool.FreeSlots.set (pool.mSize - 1) ptr).toList.drop (pool.mSize - 1) = ptr :: pool.free
  rw [Vector.toList_set, List.drop_eq_getElem_cons (by rwa [List.length_set, Vector.length_toList]),
    List.getElem_set_self, List.drop_set_of_lt (Nat.lt_succ_self _), free]
  congr 2
  exact Nat.sub_add_cancel (Nat.one_le_iff_ne_zero.mpr h)

theorem free_length (pool : OrderPool Capacity) : pool.free.length = Capacity - pool.mSize := by
  rw [free, List.length_drop, Vector.length_toList]

/-- While an object is live, `mSize` is not 0. -/
theorem mSize_ne_zero (h : Split (objects Capacity) pool.free live) (hptr : ptr ∈ live) :
    pool.mSize ≠ 0 := by
  have hlength := h.length_eq
  have hpos := List.length_pos_of_mem hptr
  rw [free_length, objects, List.length_finRange] at hlength
  omega

theorem Inv.allocate (h : Inv s) : Inv s.allocate := by
  obtain ⟨pool, hpool, hsplit⟩ := h
  rw [State.allocate, hpool, Option.map_some]
  rcases allocate_cases pool with ⟨heq, -⟩ | ⟨ptr, pool', heq, hfree⟩
  · rw [heq]
    exact ⟨pool, rfl, hsplit⟩
  · rw [heq]
    rw [hfree] at hsplit
    exact ⟨pool', rfl, hsplit.take⟩

/-- **The step lemma.** -/
theorem Inv.step {call : Call Capacity} (h : Inv s) (hreturns : call.Returns build)
    (hnext : next build call s = some s') : Inv s' := by
  cases call with
  | allocate =>
      obtain rfl := Option.some.inj hnext
      exact h.allocate
  | deallocate ptr =>
      obtain ⟨pool, hpool, hsplit⟩ := h
      have hreturns : build.returns = true := hreturns
      rw [next] at hnext
      by_cases hptr : ptr ∈ s.live
      · obtain ⟨pool', heq, hfree⟩ := putBack_eq pool ptr (mSize_ne_zero hsplit hptr)
        rw [if_pos hptr, hpool, Option.bind_some, deallocate, if_pos hreturns, heq] at hnext
        obtain rfl := Option.some.inj hnext
        refine ⟨pool', rfl, ?_⟩
        rw [hfree]
        exact hsplit.give hptr
      · rw [if_neg hptr] at hnext
        cases hnext

theorem inv_start (Capacity : ℕ) : Inv (.start Capacity) := by
  refine ⟨new Capacity, rfl, ?_⟩
  rw [free_new]
  exact split_initial _

/-! ### What a client relies on -/

theorem soundPool (h : Split (objects Capacity) pool.free live) : SoundPool pool live := by
  have hobjects : (objects Capacity).Nodup := List.nodup_finRange _
  have hexact : ∀ ptr, ptr ∈ pool.free ↔ ptr ∉ live :=
    fun ptr => h.mem_free_iff hobjects (List.mem_finRange ptr)
  have hnodup := List.nodup_append.mp (h.nodup hobjects)
  refine ⟨hnodup.1, hexact, hnodup.2.1, ?_, ?_, ?_⟩
  · intro ptr hptr
    rcases allocate_cases pool with ⟨heq, -⟩ | ⟨ptr', pool', heq, hfree⟩
    · rw [heq] at hptr
      cases hptr
    · rw [heq] at hptr
      obtain rfl := Option.some.inj hptr
      rw [← hexact, hfree]
      exact .head _
  · have hcount : pool.free = [] ↔ live.length = Capacity := by
      rw [h.free_eq_nil_iff, objects, List.length_finRange]
    rw [← hcount]
    rcases allocate_cases pool with ⟨heq, hnil⟩ | ⟨ptr', pool', heq, hfree⟩
    · rw [heq]
      exact iff_of_true rfl hnil
    · rw [heq, hfree]
      exact iff_of_false (Option.some_ne_none _) (List.cons_ne_nil _ _)
  · intro ptr hptr
    obtain ⟨pool', heq, -⟩ := putBack_eq pool ptr (mSize_ne_zero h hptr)
    rw [heq]
    rfl

/-- **The pool is sound** after every sequence of calls from which control comes back. -/
theorem orderPool_sound
    (h : (system build Capacity).ReachableWhile (fun _ call => call.Returns build) s) :
    Sound s := by
  have hinv : Inv s := by
    refine h.invariant (fun s hs => ?_) fun s call s' hs hreturns hstep => hs.step hreturns hstep
    rw [show s = .start Capacity from hs]
    exact inv_start Capacity
  obtain ⟨pool, hpool, hsplit⟩ := hinv
  exact ⟨pool, hpool, soundPool hsplit⟩

/-! ### Calls without a return

The function `deallocate` has no `return` statement, so a call of it is undefined whatever becomes
of its value.  What the program does then depends on the build: `returns` says whether control
comes back to the caller, and behind a call that does not come back the pool is lost. -/

/-- Behind undefined behaviour there is nothing to rely on any more. -/
theorem pool_none {call : Call Capacity} (h : s.pool = none)
    (hnext : next build call s = some s') : s'.pool = none := by
  cases call with
  | allocate =>
      obtain rfl := Option.some.inj hnext
      rw [State.allocate, h]
      exact h
  | deallocate ptr =>
      rw [next] at hnext
      split at hnext
      · obtain rfl := Option.some.inj hnext
        rw [h]
        rfl
      · cases hnext

/-- **A call from which control does not come back** leaves no pool. -/
theorem pool_none_of_not_returns {call : Call Capacity} (hreturns : ¬call.Returns build)
    (hnext : next build call s = some s') : s'.pool = none := by
  cases call with
  | allocate => exact absurd trivial hreturns
  | deallocate ptr =>
      rw [next] at hnext
      split at hnext
      · obtain rfl := Option.some.inj hnext
        cases s.pool with
        | none => rfl
        | some pool => exact if_neg hreturns
      · cases hnext

/-- Once such a call is among them, no pool is left in the end. -/
theorem foldlM_pool_none {calls : List (Call Capacity)}
    (hrun : calls.foldlM (fun s call => next build call s) s = some s')
    (h : s.pool = none ∨ ∃ call ∈ calls, ¬call.Returns build) : s'.pool = none := by
  induction calls generalizing s with
  | nil =>
      cases hrun
      exact h.resolve_right fun ⟨_, hcall, _⟩ => absurd hcall List.not_mem_nil
  | cons call calls ih =>
      obtain ⟨t, hnext, hrest⟩ := Option.bind_eq_some_iff.mp hrun
      refine ih hrest ?_
      rcases h with hnone | ⟨call', hcall', hreturns⟩
      · exact .inl (pool_none hnone hnext)
      · rcases List.mem_cons.mp hcall' with rfl | hcall'
        · exact .inl (pool_none_of_not_returns hreturns hnext)
        · exact .inr ⟨call', hcall', hreturns⟩

/-- **The pool is sound after a sequence of calls** that deallocate only what is live, exactly if
control comes back from each of them: if none of them deallocates, or the build returns from a
function that ends without a `return`. -/
theorem sound_iff_returns {calls : List (Call Capacity)} (hrun : run build calls = some s) :
    Sound s ↔ ∀ call ∈ calls, call.Returns build := by
  constructor
  · rintro ⟨pool, hpool, -⟩ call hcall
    by_contra hreturns
    have hnone := foldlM_pool_none hrun (.inr ⟨call, hcall, hreturns⟩)
    rw [hpool] at hnone
    cases hnone
  · intro hreturns
    exact orderPool_sound (StepSystem.ReachableWhile.foldlM (.init rfl) calls
      (fun call hcall _ _ hnext => ⟨hreturns call hcall, hnext⟩) hrun)

/-- Both objects are allocated, and given back in the same order. -/
theorem sound_iff_returns_two :
    Sound (⟨some ⟨#v[1, 0], 0, Nat.zero_le _⟩, []⟩ : State 2) ↔
      ∀ call ∈ ([.allocate, .allocate, .deallocate 0, .deallocate 1] : List (Call 2)),
        call.Returns ⟨true⟩ :=
  sound_iff_returns rfl

/-- **An object is deallocated** in a build that does not return from there. -/
theorem deallocate_undefined : ∃ s : State 1,
    run ⟨false⟩ [.allocate, .deallocate 0] = some s ∧ ¬Sound s := by
  refine ⟨⟨none, []⟩, rfl, ?_⟩
  rintro ⟨pool, hpool, -⟩
  cases hpool

end OrderPool

end LinuxProgram.PrestoLabs
