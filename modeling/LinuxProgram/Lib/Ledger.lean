import Mathlib

/-!
# Blocks that are allocated and freed

An allocator that numbers the blocks in the order it hands them out in.

* `Ledger` — how many were handed out, and which were freed.
* `Accounted` — every block that was handed out is either live or freed, and only once: none
  is lost, and none is freed twice or used after it was freed.
* `Accounted.alloc`, `Accounted.free` — the two operations keep the account.
* `Trades` — an operation replaces some live blocks by others, and leaves the rest.
-/

namespace LinuxProgram.Lib

/-- **What was allocated and freed.** A block is known by the number of its allocation, so that one
that gets the memory of another is a new one. -/
structure Ledger where
  allocated : ℕ
  /-- The latest first. -/
  freed : List ℕ
  deriving DecidableEq, Repr

namespace Ledger

def empty : Ledger := ⟨0, []⟩

/-- The next block is handed out, which no one before it was. -/
def alloc (l : Ledger) : ℕ × Ledger := (l.allocated, { l with allocated := l.allocated + 1 })

def free (addr : ℕ) (l : Ledger) : Ledger := { l with freed := addr :: l.freed }

/-- **The account**: each block is among the live ones or the freed ones, once. -/
def Accounted (live : List ℕ) (l : Ledger) : Prop :=
  (live ++ l.freed).Perm (List.range l.allocated)

variable {live live' : List ℕ} {l : Ledger}

theorem accounted_empty : Accounted [] empty := .refl []

/-- The order of the live blocks does not matter. -/
theorem Accounted.perm (h : Accounted live l) (hperm : live.Perm live') : Accounted live' l :=
  (hperm.append_right l.freed).symm.trans h

/-- **Allocating** makes a block live. -/
theorem Accounted.alloc (h : Accounted live l) : Accounted (l.alloc.1 :: live) l.alloc.2 := by
  rw [Accounted, Ledger.alloc, List.range_succ]
  exact (h.cons l.allocated).trans (List.perm_append_singleton _ _).symm

/-- **Freeing** a live block moves it to those that were freed. -/
theorem Accounted.free {addr : ℕ} (h : Accounted (addr :: live) l) :
    Accounted live (l.free addr) :=
  List.perm_middle.trans h

/-- No block is live twice. -/
theorem Accounted.nodup (h : Accounted live l) : live.Nodup :=
  (List.nodup_append.mp (h.nodup_iff.mpr List.nodup_range)).1

/-! ### Operations on a part of the blocks -/

/-- **Some blocks are replaced**, whatever else is live. -/
def Trades (l l' : Ledger) (old new : List ℕ) : Prop :=
  ∀ live, Accounted (old ++ live) l → Accounted (new ++ live) l'

variable {l' l'' : Ledger} {old mid new : List ℕ}

theorem Trades.refl (l : Ledger) (old : List ℕ) : l.Trades l old old := fun _ h => h

theorem Trades.trans (h : l.Trades l' old mid) (h' : l'.Trades l'' mid new) :
    l.Trades l'' old new := fun live hlive => h' live (h live hlive)

theorem Trades.perm (h : l.Trades l' old new) {old' new' : List ℕ} (hold : old'.Perm old)
    (hnew : new.Perm new') : l.Trades l' old' new' := fun live hlive =>
  (h live (hlive.perm (hold.append_right live))).perm (hnew.append_right live)

/-- **The frame rule**: who replaces blocks leaves those alone that it does not know of. -/
theorem Trades.frame (h : l.Trades l' old new) (rest : List ℕ) :
    l.Trades l' (old ++ rest) (new ++ rest) := fun live hlive => by
  rw [List.append_assoc] at hlive ⊢
  exact h (rest ++ live) hlive

theorem Trades.accounted (h : l.Trades l' old new) (hold : Accounted old l) : Accounted new l' := by
  have hnew := h [] (by rwa [List.append_nil])
  rwa [List.append_nil] at hnew

/-- The blocks of a list with one element in front, and of the list with another in its place. -/
theorem exists_frame {α : Type*} (blocks : α → List ℕ) {xs : List α} {i : ℕ} {x : α}
    (h : xs[i]? = some x) : ∃ rest, (xs.flatMap blocks).Perm (blocks x ++ rest) ∧
      ∀ y, ((xs.set i y).flatMap blocks).Perm (blocks y ++ rest) := by
  induction xs generalizing i with
  | nil => cases h
  | cons z xs ih =>
      cases i with
      | zero =>
          cases h
          exact ⟨xs.flatMap blocks, .refl _, fun _ => .refl _⟩
      | succ i =>
          obtain ⟨rest, hold, hnew⟩ := ih h
          have hfront : ∀ bs : List ℕ, (blocks z ++ (bs ++ rest)).Perm
              (bs ++ (blocks z ++ rest)) := fun bs => by
            rw [← List.append_assoc, ← List.append_assoc]
            exact List.perm_append_comm.append_right rest
          exact ⟨blocks z ++ rest, (hold.append_left _).trans (hfront _),
            fun y => ((hnew y).append_left _).trans (hfront _)⟩

/-- **An element is replaced** by one whose blocks come from those of the old. -/
theorem Trades.set {α : Type*} {blocks : α → List ℕ} {xs : List α} {i : ℕ} {x y : α}
    (hx : xs[i]? = some x) (h : l.Trades l' (blocks x) (blocks y)) :
    l.Trades l' (xs.flatMap blocks) ((xs.set i y).flatMap blocks) := by
  obtain ⟨rest, hold, hnew⟩ := exists_frame blocks hx
  exact (h.frame rest).perm hold (hnew y).symm

end Ledger

end LinuxProgram.Lib
