import LinuxProgram.Lib.StepSystem

/-!
# The threads that log

`LogInfoContainer` of `serialization.h`: threads `push` the pointer to their queue, and
the dumper and the recovery go over the pointers that are there.

* `PushAt`, `Push` — where a call of `push` stands between two atomic steps.
* `ReadAt`, `Read` — a call of `consume_all` or of `empty`.  Both wait until no `push`
  is under way and go over the slots; they differ in what they do with the pointers,
  which is not modelled.
* `State` — the shared word `mSize`, the array and the calls.
* `pushStep`, `readStep`, `system` — all interleavings of any number of calls.

`mSize` is the `long` modulo 2^64.  Its low half is the size, its high half the number of
calls of `push` that are between their reservation and their commit.  A store behind
the end of the array is undefined, and the run ends.
-/

namespace LinuxProgram.Binlog.Registry

open Lib

/-- `CommitingCount`: one more in either half, for a slot that is reserved and not yet stored. -/
def commitingCount : ℕ := 2 ^ 32 + 1

/-- `fetch_add` on `mSize`, of a number modulo 2^64. -/
def fetchAdd (mSize x : ℕ) : ℕ := (mSize + x) % 2 ^ 64

/-- `mSize & 0xFFFF`, which `push` takes for the size.  It is the lower half of `SizeMask` only. -/
def slotBits (mSize : ℕ) : ℕ := mSize % 2 ^ 16

/-- `mSize & SizeMask`, the size that the calls that read go by. -/
def sizeBits (mSize : ℕ) : ℕ := mSize % 2 ^ 32

/-- The half that `CommitingCountMask` selects, which is 0 if every reserved slot is stored. -/
def commitingBits (mSize : ℕ) : ℕ := mSize / 2 ^ 32

/-- Where a call of `push` stands between two accesses to `mSize` and the array. -/
inductive PushAt
  | checking
  /-- behind the check -/
  | reserving
  /-- with the slot it has reserved -/
  | storing (slot : ℕ)
  | committing (slot : ℕ)
  /-- with `true` -/
  | returned (slot : ℕ)
  /-- with `false` -/
  | refused
  deriving DecidableEq, Repr

/-- The slot of a call that has reserved one. -/
def PushAt.slot : PushAt → Option ℕ
  | .storing slot | .committing slot | .returned slot => some slot
  | _ => none

/-- Between reservation and commit, where the calls that read wait for it. -/
def PushAt.commiting : PushAt → Bool
  | .storing _ | .committing _ => true
  | _ => false

/-- **A call of `push`**, with the pointer it is given. -/
structure Push where
  pTLS : ℕ
  pos : PushAt
  deriving DecidableEq, Repr

/-- Where a call of `consume_all` or `empty` stands.  The size is loaded once, by the load that ends
the waiting. -/
inductive ReadAt
  | waiting
  /-- in the loop, before the slot at `index` -/
  | scanning (currentSize index : ℕ)
  | done (currentSize : ℕ)
  deriving DecidableEq, Repr

/-- **A call of `consume_all` or `empty`**, with ghosts that say what it should find and what it has
found. -/
structure Read where
  /-- the slots of the calls of `push` that had returned before this call -/
  before : List ℕ
  pos : ReadAt
  /-- the slots it has come to, with what it found there -/
  visited : List (ℕ × Option ℕ)
  deriving DecidableEq, Repr

/-- **The container and the calls**, those that have returned as well. -/
structure State where
  mSize : ℕ
  /-- nothing, where no pointer has been stored -/
  mArray : ℕ → Option ℕ
  pushes : List Push
  reads : List Read

/-- A call of `push` goes on. -/
def State.setPush (s : State) (i : ℕ) (p : Push) : State := { s with pushes := s.pushes.set i p }

/-- A call that reads goes on. -/
def State.setRead (s : State) (j : ℕ) (r : Read) : State := { s with reads := s.reads.set j r }

/-- The slots of the calls that have returned `true`. -/
def State.returned (s : State) : List ℕ := s.pushes.filterMap fun p =>
  match p.pos with
  | .returned slot => some slot
  | _ => none

variable (capacity : ℕ)

/-- **A step of a call of `push`**: the check, the reservation, the store or the commit. -/
def pushStep (s : State) (i : ℕ) : Option State := do
  let p ← s.pushes[i]?
  match p.pos with
  | .checking =>
      -- the check and the reservation are two accesses, so others may come between
      if slotBits s.mSize = capacity then some (s.setPush i { p with pos := .refused })
      else some (s.setPush i { p with pos := .reserving })
  | .reserving =>
      let s' := s.setPush i { p with pos := .storing (slotBits s.mSize) }
      some { s' with mSize := fetchAdd s.mSize commitingCount }
  | .storing slot =>
      let s' := s.setPush i { p with pos := .committing slot }
      if slot < capacity then
        some { s' with mArray := Function.update s.mArray slot (some p.pTLS) }
      else none
  | .committing slot =>
      let s' := s.setPush i { p with pos := .returned slot }
      -- `-1*(CommitingCount-1)`
      some { s' with mSize := fetchAdd s.mSize (2 ^ 64 - (commitingCount - 1)) }
  | .returned _ | .refused => none

/-- **A step of a call that reads**: another turn of the loop that waits, or the next slot. -/
def readStep (s : State) (j : ℕ) : Option State := do
  let r ← s.reads[j]?
  match r.pos with
  | .waiting =>
      -- the loop that waits until nobody is between reservation and commit
      if s.mSize ≠ 0 ∧ commitingBits s.mSize ≠ 0 then some s
      else some (s.setRead j { r with pos := .scanning (sizeBits s.mSize) 0 })
  | .scanning currentSize index =>
      if index < currentSize then
        some (s.setRead j { r with
          pos := .scanning currentSize (index + 1)
          visited := r.visited ++ [(index, s.mArray index)] })
      else some (s.setRead j { r with pos := .done currentSize })
  | .done _ => none

/-- What happens next: a new call, or a call goes on. -/
inductive Action
  | callPush (pTLS : ℕ)
  | callRead
  | push (i : ℕ)
  | read (j : ℕ)
  deriving DecidableEq, Repr

def next : Action → State → Option State
  | .callPush pTLS, s => some { s with pushes := s.pushes ++ [⟨pTLS, .checking⟩] }
  | .callRead, s => some { s with reads := s.reads ++ [⟨s.returned, .waiting, []⟩] }
  | .push i, s => pushStep capacity s i
  | .read j, s => readStep s j

/-- The container is empty. -/
def init : State where
  mSize := 0
  mArray := fun _ => none
  pushes := []
  reads := []

/-- **All interleavings** of calls. -/
def system : StepSystem State Action := .ofFun init (next capacity)

/-! ### What a step can do -/

variable {capacity : ℕ} {s s' : State} {i : ℕ}

/-- **A step of a call of `push`**, which stands at `p`. -/
inductive PushStep (capacity : ℕ) (s : State) (i : ℕ) (p : Push) : State → Prop
  | refuse (hpos : p.pos = .checking) (hfull : slotBits s.mSize = capacity) :
      PushStep capacity s i p (s.setPush i { p with pos := .refused })
  | pass (hpos : p.pos = .checking) (hfree : slotBits s.mSize ≠ capacity) :
      PushStep capacity s i p (s.setPush i { p with pos := .reserving })
  | reserve (hpos : p.pos = .reserving) :
      PushStep capacity s i p
        { s.setPush i { p with pos := .storing (slotBits s.mSize) } with
          mSize := fetchAdd s.mSize commitingCount }
  | store (slot : ℕ) (hpos : p.pos = .storing slot) (hlt : slot < capacity) :
      PushStep capacity s i p
        { s.setPush i { p with pos := .committing slot } with
          mArray := Function.update s.mArray slot (some p.pTLS) }
  | commit (slot : ℕ) (hpos : p.pos = .committing slot) :
      PushStep capacity s i p
        { s.setPush i { p with pos := .returned slot } with
          mSize := fetchAdd s.mSize (2 ^ 64 - (commitingCount - 1)) }

theorem pushStep_spec (h : pushStep capacity s i = some s') :
    ∃ p, s.pushes[i]? = some p ∧ PushStep capacity s i p s' := by
  obtain ⟨p, hp, h⟩ := Option.bind_eq_some_iff.mp h
  refine ⟨p, hp, ?_⟩
  cases hpos : p.pos with
  | checking =>
      rw [hpos] at h
      dsimp only at h
      split at h
      · rename_i hfull
        cases h
        exact .refuse hpos hfull
      · rename_i hfree
        cases h
        exact .pass hpos hfree
  | reserving =>
      rw [hpos] at h
      dsimp only at h
      rw [← Option.some.inj h]
      exact .reserve hpos
  | storing slot =>
      rw [hpos] at h
      dsimp only at h
      split at h
      · rename_i hlt
        cases h
        exact .store slot hpos hlt
      · cases h
  | committing slot =>
      rw [hpos] at h
      dsimp only at h
      rw [← Option.some.inj h]
      exact .commit slot hpos
  | returned slot =>
      rw [hpos] at h
      cases h
  | refused =>
      rw [hpos] at h
      cases h

/-- **A step of a call that reads**, which stands at `r`. -/
inductive ReadStep (s : State) (j : ℕ) (r : Read) : State → Prop
  | wait (hpos : r.pos = .waiting) : ReadStep s j r s
  | load (hpos : r.pos = .waiting) (hidle : commitingBits s.mSize = 0) :
      ReadStep s j r (s.setRead j { r with pos := .scanning (sizeBits s.mSize) 0 })
  | visit (currentSize index : ℕ) (hpos : r.pos = .scanning currentSize index)
      (hlt : index < currentSize) :
      ReadStep s j r (s.setRead j { r with
        pos := .scanning currentSize (index + 1)
        visited := r.visited ++ [(index, s.mArray index)] })
  | finish (currentSize index : ℕ) (hpos : r.pos = .scanning currentSize index)
      (hle : currentSize ≤ index) :
      ReadStep s j r (s.setRead j { r with pos := .done currentSize })

theorem readStep_spec {j : ℕ} (h : readStep s j = some s') :
    ∃ r, s.reads[j]? = some r ∧ ReadStep s j r s' := by
  obtain ⟨r, hr, h⟩ := Option.bind_eq_some_iff.mp h
  refine ⟨r, hr, ?_⟩
  cases hpos : r.pos with
  | waiting =>
      rw [hpos] at h
      dsimp only at h
      split at h
      · cases h
        exact .wait hpos
      · rename_i hidle
        cases h
        refine .load hpos ?_
        by_contra hcommiting
        refine hidle ⟨?_, hcommiting⟩
        intro hzero
        rw [hzero] at hcommiting
        exact hcommiting rfl
  | scanning currentSize index =>
      rw [hpos] at h
      dsimp only at h
      split at h
      · rename_i hlt
        cases h
        exact .visit currentSize index hpos hlt
      · rename_i hle
        cases h
        exact .finish currentSize index hpos (Nat.not_lt.mp hle)
  | done currentSize =>
      rw [hpos] at h
      cases h

end LinuxProgram.Binlog.Registry
