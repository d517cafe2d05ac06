import LinuxProgram.Utils.Rcu

/-!
# RCU reclamation is safe

Objects are published in the order of their numbers, so everything that is to be
deleted is below the object behind `gObjPtr`, and a reader that loads `gObjPtr` now
does not get any of it.  What `wait` has to see to is the readers that hold an object
already.

* `Clear` — a reader holds nothing that is to be deleted.  It stays so until the next
  object comes into `FreeObjList`, for which the lock is needed.
* `ReaderInv` — what a reader has published is a version, between its `lock` and its
  `unlock` only, that was current some time ago.
* `FreeInv` — while `wait` looks for versions, every reader is clear or has published a
  version that keeps `wait` from returning; readers that were passed, with no such
  version found, are clear.  That the scan is not a snapshot does not matter, since a
  clear reader stays clear.
* `no_use_after_delete` — no reader uses an object that was deleted.
-/

namespace LinuxProgram.Utils.Rcu

open Lib

variable {n : ℕ} {s s' : State n}

/-- **A reader holds nothing that is to be deleted**: the object that it uses is not on the list. -/
def Clear (s : State n) (r : Fin n) : Prop :=
  ∀ obj, (s.readers r).pos = .reading obj → obj ∉ s.FreeObjList

/-- What a reader has published is a version of the past, and it is not `NoRCURead` while the reader
is behind `lock`. -/
def ReaderInv (GlobalVersion : ℕ) (t : ReaderThread) : Prop :=
  match t.pos with
  | .outside => t.currentVersion = noRCURead
  | .locking version => t.currentVersion = noRCURead ∧ 0 < version ∧ version ≤ GlobalVersion
  | .locked | .reading _ => 0 < t.currentVersion ∧ t.currentVersion ≤ GlobalVersion

/-- The objects the writer has in hand: its copy is new, what it has replaced is old. -/
def WriterInv (s : State n) : Prop :=
  match s.writer with
  | .start | .pushed => True
  | .copied tmp => s.gObjPtr < tmp ∧ tmp < s.nextObj
  | .replacing tmp old => s.gObjPtr < tmp ∧ tmp < s.nextObj ∧ old = s.gObjPtr
  | .published old | .locked old => old < s.gObjPtr

/-- What `wait` has established of the readers that it has looked at. -/
def FreeInv (s : State n) : Prop :=
  match s.free with
  | .start | .locked => True
  | .scanning tmp index leastVersion =>
      (∀ r, Clear s r ∨
        0 < (s.readers r).currentVersion ∧ (s.readers r).currentVersion ≤ tmp) ∧
      (tmp < leastVersion → ∀ r : Fin n, r.val < index → Clear s r)
  | .deleting => ∀ r, Clear s r

/-- The writer holds `lock_for_node`. -/
def WriterAt.holds : WriterAt → Bool
  | .locked _ | .pushed => true
  | _ => false

/-- The thread that deletes holds it. -/
def FreeAt.holds : FreeAt → Bool
  | .start => false
  | _ => true

/-- One of them, or none. -/
def LockInv (s : State n) : Prop :=
  s.lockForNode = (s.writer.holds || s.free.holds) ∧ (s.writer.holds && s.free.holds) = false

/-- **The invariant**, one field for each thing that a step relies on. -/
structure Inv (s : State n) : Prop where
  version : 0 < s.GlobalVersion
  current : s.gObjPtr < s.nextObj
  toDelete : ∀ obj ∈ s.FreeObjList, obj < s.gObjPtr
  deleted : ∀ obj ∈ s.deleted, obj < s.gObjPtr
  readers : ∀ r, ReaderInv s.GlobalVersion (s.readers r)
  writer : WriterInv s
  lock : LockInv s
  free : FreeInv s
  safe : s.Safe

theorem inv_init (n : ℕ) : Inv (init n) where
  version := one_pos
  current := one_pos
  toDelete obj h := by cases h
  deleted obj h := by cases h
  readers r := rfl
  writer := trivial
  lock := ⟨rfl, rfl⟩
  free := trivial
  safe r obj h := by cases h

/-! ### The lock

`lock_for_node` is all that keeps the writer from the list while the other thread waits and
deletes.  It is held by one of them at most, so while one of them is inside, the part of the
invariant about the other one is that it is not. -/

/-- Nobody is in `wait` while the writer holds the lock. -/
theorem LockInv.start (h : LockInv s) (hholds : s.writer.holds = true) : s.free = .start := by
  have hfree := h.2
  rw [hholds, Bool.true_and] at hfree
  cases hpos : s.free with
  | start => rfl
  | _ => rw [hpos] at hfree; cases hfree

/-- A free lock is held by neither. -/
theorem LockInv.none (h : LockInv s) (hfree : s.lockForNode = false) :
    s.writer.holds = false ∧ s.free.holds = false := by
  have hor := h.1.symm.trans hfree
  rwa [Bool.or_eq_false_iff] at hor

/-! ### Readers

A reader may begin at any time, also during the scan, and with a version that is old by the time
it is published.  Neither does any harm, since all that a reader can get hold of is the current
object, which is not on the list. -/

/-- A reader becomes another one. -/
theorem setReader_readers (s : State n) (r r' : Fin n) (t : ReaderThread) :
    (s.setReader r t).readers r' = if r' = r then t else s.readers r' :=
  Function.update_apply _ _ _ _

/-- **A step of a reader**: what matters of it is that it gets hold of the current
object only. -/
structure ReaderStep (s : State n) (r : Fin n) (t : ReaderThread) : Prop where
  eq : readerStep s r = s.setReader r t
  inv : ReaderInv s.GlobalVersion (s.readers r) → ReaderInv s.GlobalVersion t
  obj : ∀ obj, t.pos = .reading obj → obj = s.gObjPtr

theorem readerStep_spec (s : State n) (r : Fin n) (hversion : 0 < s.GlobalVersion) :
    ∃ t, ReaderStep s r t := by
  have hread : readerStep s r = match (s.readers r).pos with
    | .outside => s.setReader r { s.readers r with pos := .locking s.GlobalVersion }
    | .locking version => s.setReader r { currentVersion := version, pos := .locked }
    | .locked => s.setReader r { s.readers r with pos := .reading s.gObjPtr }
    | .reading _ => s.setReader r { currentVersion := noRCURead, pos := .outside } := rfl
  cases hpos : (s.readers r).pos with
  | outside =>
      rw [hpos] at hread
      refine ⟨_, hread, fun hinv => ?_, nofun⟩
      rw [ReaderInv, hpos] at hinv
      exact ⟨hinv, hversion, le_rfl⟩
  | locking version =>
      rw [hpos] at hread
      refine ⟨_, hread, fun hinv => ?_, nofun⟩
      rw [ReaderInv, hpos] at hinv
      exact hinv.2
  | locked =>
      rw [hpos] at hread
      refine ⟨_, hread, fun hinv => ?_, fun obj hobj => (ReaderAt.reading.inj hobj).symm⟩
      rw [ReaderInv, hpos] at hinv
      exact hinv
  | reading obj =>
      rw [hpos] at hread
      exact ⟨_, hread, fun _ => rfl, nofun⟩

/-- Behind its step a reader holds at most the current object. -/
theorem Inv.clear_self (h : Inv s) {r : Fin n} {t : ReaderThread} (ht : ReaderStep s r t) :
    Clear (s.setReader r t) r := by
  intro obj hobj hmem
  rw [setReader_readers, if_pos rfl] at hobj
  have hlt := h.toDelete obj hmem
  rw [ht.obj obj hobj] at hlt
  exact lt_irrefl _ hlt

/-- A reader that was clear stays so. -/
theorem Inv.clear_setReader (h : Inv s) {r r' : Fin n} {t : ReaderThread}
    (ht : ReaderStep s r t) (hclear : Clear s r') : Clear (s.setReader r t) r' := by
  rcases eq_or_ne r' r with rfl | hne
  · exact h.clear_self ht
  · intro obj hobj
    rw [setReader_readers, if_neg hne] at hobj
    exact hclear obj hobj

/-- What `wait` has established stays. -/
theorem Inv.free_reader (h : Inv s) {r : Fin n} {t : ReaderThread} (ht : ReaderStep s r t) :
    FreeInv (s.setReader r t) := by
  have hfree := h.free
  rw [FreeInv] at hfree ⊢
  have heq : (s.setReader r t).free = s.free := rfl
  rw [heq]
  cases hpos : s.free with
  | start => trivial
  | locked => trivial
  | scanning tmp index leastVersion =>
      rw [hpos] at hfree
      refine ⟨fun r' => ?_, fun hlt r' hr' => h.clear_setReader ht (hfree.2 hlt r' hr')⟩
      rcases eq_or_ne r' r with rfl | hne
      · exact .inl (h.clear_self ht)
      · refine (hfree.1 r').imp (h.clear_setReader ht) fun hversion => ?_
        rwa [setReader_readers, if_neg hne]
  | deleting =>
      rw [hpos] at hfree
      exact fun r' => h.clear_setReader ht (hfree r')

/-- **A reader keeps the invariant.** -/
theorem Inv.reader (h : Inv s) (r : Fin n) : Inv (readerStep s r) := by
  obtain ⟨t, ht⟩ := readerStep_spec s r h.version
  rw [ht.eq]
  exact {
    version := h.version
    current := h.current
    toDelete := h.toDelete
    deleted := h.deleted
    readers := fun r' => by
      rw [setReader_readers]
      split
      · exact ht.inv (h.readers r)
      · exact h.readers r'
    writer := h.writer
    lock := h.lock
    free := h.free_reader ht
    safe := by
      intro r' obj hobj hmem
      rw [setReader_readers] at hobj
      split at hobj
      · have hlt := h.deleted obj hmem
        rw [ht.obj obj hobj] at hlt
        exact lt_irrefl _ hlt
      · exact h.safe r' obj hobj hmem }

/-! ### The writer -/

/-- **The writer keeps the invariant.** -/
theorem Inv.writerStep (h : Inv s) (hstep : writerStep s = some s') : Inv s' := by
  have hwriter := h.writer
  have hlock := h.lock
  rw [WriterInv] at hwriter
  rw [LockInv] at hlock
  rw [Rcu.writerStep] at hstep
  cases hpos : s.writer with
  | start =>
      rw [hpos] at hstep hlock
      cases hstep
      exact { h with
        current := h.current.trans (Nat.lt_succ_self _)
        writer := ⟨h.current, Nat.lt_succ_self _⟩
        lock := hlock }
  | copied tmp =>
      rw [hpos] at hstep hlock hwriter
      cases hstep
      exact { h with
        writer := ⟨hwriter.1, hwriter.2, rfl⟩
        lock := hlock }
  | replacing tmp old =>
      rw [hpos] at hstep hlock hwriter
      cases hstep
      obtain ⟨hlt, hnext, rfl⟩ := hwriter
      exact { h with
        current := hnext
        toDelete := fun obj hobj => (h.toDelete obj hobj).trans hlt
        deleted := fun obj hobj => (h.deleted obj hobj).trans hlt
        writer := hlt
        lock := hlock }
  | published old =>
      rw [hpos] at hstep hlock hwriter
      dsimp only at hstep
      split at hstep
      · cases hstep
      · rename_i hfree
        cases hstep
        refine { h with writer := hwriter, lock := ?_ }
        rw [LockInv]
        dsimp only
        rw [(h.lock.none (Bool.not_eq_true _ ▸ hfree)).2]
        exact ⟨rfl, rfl⟩
  | locked old =>
      rw [hpos] at hstep hlock hwriter
      cases hstep
      have hstart := h.lock.start (by rw [hpos]; rfl)
      exact { h with
        toDelete := fun obj hobj => by
          rcases List.mem_cons.mp hobj with rfl | hobj
          · exact hwriter
          · exact h.toDelete obj hobj
        writer := trivial
        lock := hlock
        free := by rw [FreeInv]; dsimp only; rw [hstart]; trivial }
  | pushed =>
      rw [hpos] at hstep hlock
      cases hstep
      have hstart := h.lock.start (by rw [hpos]; rfl)
      exact { h with
        writer := trivial
        lock := by rw [LockInv]; dsimp only; rw [hstart]; exact ⟨rfl, rfl⟩ }

/-! ### The thread that deletes

The scan looks at the readers one after the other, while those that it has passed go on.  For a
reader that was passed with a version that is new enough the conclusion is that it is clear, and
this is what stays true of it. -/

/-- The lock is where it was. -/
theorem LockInv.free (h : LockInv s) {free : FreeAt} (hholds : free.holds = s.free.holds) :
    LockInv { s with free := free } := by
  rw [LockInv] at h ⊢
  dsimp only
  rw [hholds]
  exact h

/-- The lock is released. -/
theorem LockInv.release (h : LockInv s) (hholds : s.free.holds = true) :
    LockInv { s with lockForNode := false, free := .start } := by
  have hwriter : s.writer.holds = false := by
    have hand := h.2
    rwa [hholds, Bool.and_true] at hand
  rw [LockInv]
  dsimp only
  rw [hwriter]
  exact ⟨rfl, rfl⟩

/-- **The thread passes a reader.**  A reader whose version lets `wait` return is
clear. -/
theorem Inv.scan (h : Inv s) {tmp index leastVersion : ℕ}
    (hpos : s.free = .scanning tmp index leastVersion) (hlt : index < n) :
    let version := (s.readers ⟨index, hlt⟩).currentVersion
    FreeInv { s with free := .scanning tmp (index + 1) (leastOf leastVersion version) } := by
  have hfree := h.free
  rw [FreeInv, hpos] at hfree
  refine ⟨hfree.1, fun hleast r hr => ?_⟩
  rw [leastOf] at hleast
  rcases Nat.lt_succ_iff_lt_or_eq.mp hr with hr | hr
  · refine hfree.2 ?_ r hr
    split at hleast
    · exact (lt_min_iff.mp hleast).1
    · exact hleast
  · obtain rfl : r = ⟨index, hlt⟩ := Fin.ext hr
    refine (hfree.1 _).resolve_right fun hversion => ?_
    have hne : (s.readers ⟨index, hlt⟩).currentVersion ≠ noRCURead := hversion.1.ne'
    rw [if_pos hne] at hleast
    exact absurd (lt_min_iff.mp hleast).2 (Nat.not_lt.mpr hversion.2)

/-- **`wait` begins**: what readers have published is not newer. -/
theorem Inv.begin_scan (h : Inv s) :
    FreeInv { s with
      GlobalVersion := s.GlobalVersion + 1
      free := .scanning s.GlobalVersion 0 (s.GlobalVersion + 1) } := by
  refine ⟨fun r => ?_, fun _ r hr => absurd hr (Nat.not_lt_zero _)⟩
  have hreader := h.readers r
  rw [ReaderInv] at hreader
  cases hpos : (s.readers r).pos with
  | outside => exact .inl fun obj hobj => by rw [hpos] at hobj; cases hobj
  | locking version => exact .inl fun obj hobj => by rw [hpos] at hobj; cases hobj
  | locked => rw [hpos] at hreader; exact .inr hreader
  | reading obj => rw [hpos] at hreader; exact .inr hreader

/-- A version stays one when `GlobalVersion` grows. -/
theorem ReaderInv.mono {version version' : ℕ} {t : ReaderThread} (h : ReaderInv version t)
    (hle : version ≤ version') : ReaderInv version' t := by
  rw [ReaderInv] at h ⊢
  split at h
  · exact h
  · exact ⟨h.1, h.2.1, h.2.2.trans hle⟩
  · exact ⟨h.1, h.2.trans hle⟩
  · exact ⟨h.1, h.2.trans hle⟩

/-- **The deletion of one object** that no reader may use. -/
theorem Inv.delete (h : Inv s) (hpos : s.free = .deleting) {obj : ℕ} {rest : List ℕ}
    (hlist : s.FreeObjList = obj :: rest) :
    Inv { s with FreeObjList := rest, deleted := obj :: s.deleted } := by
  have hfree := h.free
  rw [FreeInv, hpos] at hfree
  have hobj : obj ∈ s.FreeObjList := by rw [hlist]; exact .head _
  have hrest : ∀ o ∈ rest, o ∈ s.FreeObjList := fun o ho => by rw [hlist]; exact .tail _ ho
  exact { h with
    toDelete := fun o ho => h.toDelete o (hrest o ho)
    deleted := fun o ho => by
      rcases List.mem_cons.mp ho with rfl | ho
      · exact h.toDelete o hobj
      · exact h.deleted o ho
    lock := h.lock
    free := by
      rw [FreeInv]
      dsimp only
      rw [hpos]
      exact fun r o ho hmem => hfree r o ho (hrest o hmem)
    safe := fun r o ho hmem => by
      rcases List.mem_cons.mp hmem with rfl | hmem
      · exact hfree r o ho hobj
      · exact h.safe r o ho hmem }

/-- **The thread that deletes keeps the invariant.** -/
theorem Inv.freeStep (h : Inv s) {batch : ℕ} (hstep : freeStep batch s = some s') : Inv s' := by
  rw [Rcu.freeStep] at hstep
  split at hstep
  · rename_i hpos
    split at hstep
    · cases hstep
    · rename_i hfree
      cases hstep
      refine { h with lock := ?_, free := trivial }
      rw [LockInv]
      dsimp only
      rw [(h.lock.none (Bool.not_eq_true _ ▸ hfree)).1]
      exact ⟨rfl, rfl⟩
  · rename_i hpos
    split at hstep
    · cases hstep
      exact { h with
        lock := h.lock.release (by rw [hpos]; rfl)
        free := trivial }
    · cases hstep
      exact { h with
        version := Nat.succ_pos _
        readers := fun r => (h.readers r).mono (Nat.le_succ _)
        lock := h.lock.free (by rw [hpos]; rfl)
        free := h.begin_scan }
  · rename_i tmp index leastVersion hpos
    split at hstep
    · rename_i hlt
      cases hstep
      exact { h with
        lock := h.lock.free (by rw [hpos]; rfl)
        free := h.scan hpos hlt }
    · rename_i hend
      have hfree := h.free
      rw [FreeInv, hpos] at hfree
      split at hstep
      · rename_i hleast
        cases hstep
        exact { h with
          lock := h.lock.free (by rw [hpos]; rfl)
          free := fun r => hfree.2 hleast r (r.isLt.trans_le (Nat.not_lt.mp hend)) }
      · cases hstep
        exact { h with
          lock := h.lock.free (by rw [hpos]; rfl)
          free := ⟨hfree.1, fun _ r hr => absurd hr (Nat.not_lt_zero _)⟩ }
  · rename_i hpos
    split at hstep
    · cases hstep
      exact { h with
        lock := h.lock.release (by rw [hpos]; rfl)
        free := trivial }
    · rename_i hlist
      cases hstep
      exact h.delete hpos hlist

/-! ### Runs -/

/-- **No reader uses an object that was deleted**, for any number of readers and any
interleaving. -/
theorem no_use_after_delete (n batch : ℕ) {s : State n} (h : (system n batch).Reachable s) :
    s.Safe := by
  have hinv : Inv s := by
    refine StepSystem.ReachableWhile.invariant (I := Inv) ?_ ?_ h
    · rintro s rfl
      exact inv_init n
    · intro s a s' hs _ hstep
      cases a with
      | reader r =>
          cases hstep
          exact hs.reader r
      | writer => exact hs.writerStep hstep
      | free => exact hs.freeStep hstep
  exact hinv.safe

/-- A reader uses the first object while the writer replaces 15 objects and the thread
that deletes begins to wait; then it uses the latest object, and the others are
deleted. -/
def waitingRun : List (Action 1) :=
  List.replicate 3 (Action.reader 0) ++ List.replicate (15 * 6) Action.writer
    ++ List.replicate 4 Action.free ++ List.replicate 4 (Action.reader 0)
    ++ List.replicate 17 Action.free

theorem waitingRun_eq : (waitingRun.foldlM (fun s a => next 15 a s) (init 1)).map
    (fun s => ((s.readers 0).pos, s.deleted.length)) = some (.reading 15, 15) := by
  decide +kernel

/-- The state behind it. -/
theorem no_use_after_delete_waiting : ∃ s, (system 1 15).Reachable s ∧
    (s.readers 0).pos = .reading 15 ∧ s.deleted.length = 15 ∧ s.Safe := by
  obtain ⟨s, hrun, hs⟩ := Option.map_eq_some_iff.mp waitingRun_eq
  obtain ⟨hpos, hdeleted⟩ := Prod.mk.inj hs
  have hreach : (system 1 15).Reachable s := StepSystem.reachable_foldlM (.init rfl) waitingRun hrun
  exact ⟨s, hreach, hpos, hdeleted, no_use_after_delete 1 15 hreach⟩

end LinuxProgram.Utils.Rcu
