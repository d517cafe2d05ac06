import LinuxProgram.Lib.CallSequence
import LinuxProgram.Lib.Pieces
import LinuxProgram.Kernel.Sharemem

/-!
# The name that sharemem_read delivers

`sharemem_read` copies from the beginning of `comm` in every call.  It keeps the length
that is left, which it reduces before the copy, so also for a copy that fails.  A program that
reads the name in one call does not notice either of the two; one that reads it in pieces gets the
first bytes again and again.

* `NameSession` — an open file with what was read from it.
* `Reads`, `sharememRead_reads` — it is what calls of `sharemem_read` on one file of the driver
  leave, whatever they find in the buffer.
* `NameStream` — reads that go through the name.
* `readName_iff` — they do exactly if every call `NameFits`: it does not fail before the
  name has ended, and the bytes it is to deliver are those at the beginning.
* `readName_bytewise` — two reads of one byte.
-/

namespace LinuxProgram.Kernel.Sharemem

open Lib.CallSequence Lib.Pieces

/-- **A call of `sharemem_read`**, and whether its copy to user space fails. -/
structure ReadCall where
  count : ℕ
  positive : 0 < count
  copyFails : Bool

/-- What a call found, what it left and what it returned. -/
structure ReadResult where
  namelen : ℕ
  delivered : List UInt8
  retval : ℤ
  namelenAfter : ℕ

/-- **An open file**: `namelen`, the bytes that were delivered, and the calls. -/
structure NameSession where
  namelen : ℕ
  delivered : List UInt8 := []
  results : List ReadResult := []

/-- The file behind `sharemem_open`. -/
def NameSession.opened (comm : Comm) : NameSession := { namelen := comm.name.length }

def readStep (comm : Comm) (s : NameSession) (call : ReadCall) : NameSession :=
  let r := readName comm s.namelen call.count call.copyFails
  { namelen := r.namelen
    delivered := s.delivered ++ r.delivered
    results := s.results ++ [⟨s.namelen, s.delivered, r.retval, r.namelen⟩] }

/-! ### The file in the driver -/

/-- **The session of a file** that a task has opened: the name is that of the task, and the length
that is left is the one in its `sharemem_proc`. -/
structure Reads (d : Driver) (file : ℕ) (comm : Comm) (s : NameSession) : Prop where
  proc : ∃ proc, d.files[file]? = some proc ∧ proc.tsk.comm = comm ∧ proc.namelen = s.namelen

/-- `sharemem_open` begins a session. -/
theorem sharememOpen_reads (d : Driver) (current : Task) :
    Reads (sharememOpen d current true).1 d.files.length current.comm (.opened current.comm) := by
  have hfiles : (sharememOpen d current true).1.files[d.files.length]? =
      some ⟨current, current.comm.name.length, none, none, false⟩ := List.getElem?_concat_length
  exact ⟨_, hfiles, rfl, rfl⟩

/-- What `sharemem_read` does to the files and what it returns, whatever is in the buffer. -/
theorem sharememRead_files {d : Driver} {file : ℕ} {proc : Proc}
    (hproc : d.files[file]? = some proc) (count : ℕ) (copyFails : Bool) :
    (sharememRead d file count copyFails).1.files = d.files.set file
        { proc with namelen := (readName proc.tsk.comm proc.namelen count copyFails).namelen } ∧
      ∀ retval, (sharememRead d file count copyFails).2 = some retval →
        retval = (readName proc.tsk.comm proc.namelen count copyFails).retval := by
  rw [sharememRead, hproc]
  dsimp only
  split
  · refine ⟨rfl, fun retval hretval => ?_⟩
    exact (Option.some.inj hretval).symm
  · refine ⟨rfl, fun retval hretval => ?_⟩
    dsimp only at hretval
    split at hretval
    · exact (Option.some.inj hretval).symm
    · cases hretval

/-- **A call of `sharemem_read`** is a step of the session of its file; if it comes back, then with
the value that is recorded there. -/
theorem sharememRead_reads {d : Driver} {file : ℕ} {comm : Comm} {s : NameSession}
    (h : Reads d file comm s) (call : ReadCall) :
    Reads (sharememRead d file call.count call.copyFails).1 file comm (readStep comm s call) ∧
      ∀ retval, (sharememRead d file call.count call.copyFails).2 = some retval →
        ∃ r, (readStep comm s call).results = s.results ++ [r] ∧ r.retval = retval := by
  obtain ⟨proc, hproc, rfl, hnamelen⟩ := h.proc
  obtain ⟨hfiles, hretvals⟩ := sharememRead_files hproc call.count call.copyFails
  obtain ⟨hlt, -⟩ := List.getElem?_eq_some_iff.mp hproc
  rw [hnamelen] at hfiles hretvals
  have hproc' := congrArg (·[file]?) hfiles
  rw [List.getElem?_set_self hlt] at hproc'
  refine ⟨⟨_, hproc', rfl, rfl⟩, fun retval hretval => ?_⟩
  exact ⟨_, rfl, (hretvals retval hretval).symm⟩

/-- **Calls one after the other** on the same file. -/
theorem foldl_sharememRead_reads {file : ℕ} {comm : Comm} (cs : List ReadCall) {d : Driver}
    {s : NameSession} (h : Reads d file comm s) :
    Reads (cs.foldl (fun d call => (sharememRead d file call.count call.copyFails).1) d) file comm
      (cs.foldl (readStep comm) s) := by
  induction cs generalizing d s with
  | nil => exact h
  | cons call cs ih => exact ih (sharememRead_reads h call).1

/-! ### Streams -/

/-- **Reads as of a stream**: a part of the name from its beginning, all of it before 0 is
returned; and nothing changes where a copy fails. -/
structure NameStream (comm : Comm) (s : NameSession) : Prop where
  front : s.delivered <+: comm.name
  ended : ∀ r ∈ s.results, r.retval = 0 → r.delivered = comm.name
  kept : ∀ r ∈ s.results, r.retval = -EFAULT → r.namelenAfter = r.namelen

/-- **A call that fits.**  Its copy does not fail unless the name has ended, where there is
none; and the bytes it is to deliver are the ones at the beginning. -/
structure NameFits (comm : Comm) (s : NameSession) (call : ReadCall) : Prop where
  copies : call.copyFails → s.namelen = 0
  repeats : piece comm.name (comm.name.length - s.namelen) (min call.count s.namelen) =
    comm.name.take (min call.count s.namelen)

/-- Where no copy that failed has changed `namelen`, it is what is left. -/
def Counted (comm : Comm) (s : NameSession) : Prop :=
  (∀ r ∈ s.results, r.retval = -EFAULT → r.namelenAfter = r.namelen) →
    s.delivered.length + s.namelen = comm.name.length

variable {comm : Comm} {s : NameSession} {call : ReadCall}

/-! ### One call -/

theorem readName_eq (comm : Comm) (namelen count : ℕ) (copyFails : Bool) :
    readName comm namelen count copyFails =
      { namelen := namelen - min count namelen
        delivered :=
          if copyFails && min count namelen != 0 then [] else comm.name.take (min count namelen)
        retval := if copyFails && min count namelen != 0 then -EFAULT
          else (min count namelen : ℕ) } := by
  have hretval : (if count > namelen then namelen else count) = min count namelen := by
    split <;> omega
  have hnamelen : (if count > namelen then 0 else namelen - count) =
      namelen - min count namelen := by
    split <;> omega
  unfold readName
  simp only [hretval, hnamelen]

/-- A copy that does not fail. -/
theorem readStep_copies (h : call.copyFails → s.namelen = 0) :
    readStep comm s call =
      { namelen := s.namelen - min call.count s.namelen
        delivered := s.delivered ++ comm.name.take (min call.count s.namelen)
        results := s.results ++ [⟨s.namelen, s.delivered, (min call.count s.namelen : ℕ),
          s.namelen - min call.count s.namelen⟩] } := by
  have hcopies : (call.copyFails && min call.count s.namelen != 0) = false := by
    cases hcopy : call.copyFails with
    | false => rfl
    | true =>
        rw [h hcopy, Nat.min_zero]
        rfl
  unfold readStep
  simp only [readName_eq, hcopies, Bool.false_eq_true, if_false]

/-- A copy that fails: `namelen` is reduced all the same. -/
theorem not_kept_of_fails (h : call.copyFails = true) (hleft : s.namelen ≠ 0) :
    ¬ ∀ r ∈ (readStep comm s call).results, r.retval = -EFAULT → r.namelenAfter = r.namelen := by
  have hpos := call.positive
  have hfails : (call.copyFails && min call.count s.namelen != 0) = true := by
    rw [h, Bool.true_and, bne_iff_ne]
    omega
  intro hkept
  unfold readStep at hkept
  simp only [readName_eq, hfails, if_true] at hkept
  rw [List.forall_mem_append, List.forall_mem_singleton] at hkept
  have hsame : s.namelen - min call.count s.namelen = s.namelen := hkept.2 rfl
  omega

/-- What is delivered and what is left make up the name. -/
theorem Counted.readStep (h : Counted comm s) (call : ReadCall) :
    Counted comm (readStep comm s call) := by
  intro hkept
  by_cases hcopies : call.copyFails → s.namelen = 0
  · rw [readStep_copies hcopies] at hkept ⊢
    rw [List.forall_mem_append] at hkept
    have hsum := h hkept.1
    show (s.delivered ++ comm.name.take (min call.count s.namelen)).length +
      (s.namelen - min call.count s.namelen) = comm.name.length
    rw [List.length_append, List.length_take]
    omega
  · rw [Classical.not_imp] at hcopies
    exact absurd hkept (not_kept_of_fails hcopies.1 hcopies.2)

/-- What is delivered goes on in the name exactly if the call fits. -/
theorem readStep_iff (hcounted : Counted comm s) (hs : NameStream comm s) :
    NameStream comm (readStep comm s call) ↔ NameFits comm s call := by
  have hsum := hcounted hs.kept
  have hfront : s.delivered = comm.name.take (comm.name.length - s.namelen) := by
    have hlength : comm.name.length - s.namelen = s.delivered.length := by omega
    rw [hlength]
    exact List.prefix_iff_eq_take.mp hs.front
  by_cases hcopies : call.copyFails → s.namelen = 0
  · have hrepeats : s.delivered ++ comm.name.take (min call.count s.namelen) <+: comm.name ↔
        piece comm.name (comm.name.length - s.namelen) (min call.count s.namelen) =
          comm.name.take (min call.count s.namelen) := by
      rw [hfront]
      exact append_take_iff (by omega)
    rw [readStep_copies hcopies]
    constructor
    · exact fun hnext => ⟨hcopies, hrepeats.mp hnext.front⟩
    · intro hfits
      refine ⟨hrepeats.mpr hfits.repeats, ?_, ?_⟩
      · rw [List.forall_mem_append, List.forall_mem_singleton]
        refine ⟨hs.ended, fun hzero => ?_⟩
        -- 0 is returned where nothing is left, as the count is positive
        have hleft : min call.count s.namelen = 0 := Int.natCast_eq_zero.mp hzero
        have hpos := call.positive
        have hended : comm.name.length - s.namelen = comm.name.length := by omega
        rw [hfront, hended, List.take_length]
      · rw [List.forall_mem_append, List.forall_mem_singleton]
        refine ⟨hs.kept, fun hfault => ?_⟩
        have hneg : ((min call.count s.namelen : ℕ) : ℤ) = -EFAULT := hfault
        have hnonneg : 0 ≤ ((min call.count s.namelen : ℕ) : ℤ) := Int.natCast_nonneg _
        exact absurd (hneg ▸ hnonneg) (by decide)
  · constructor
    · rw [Classical.not_imp] at hcopies
      exact fun hnext => absurd hnext.kept (not_kept_of_fails hcopies.1 hcopies.2)
    · exact fun hfits => absurd hfits.copies hcopies

/-! ### All calls -/

/-- **The reads of an open file** go through the name exactly if all calls fit.  What is left of the
name is counted down, but what is copied is its beginning. -/
theorem readName_iff (comm : Comm) (cs : List ReadCall) :
    (∀ t ∈ states (readStep comm) cs (.opened comm), NameStream comm t) ↔
      ∀ call ∈ calls (readStep comm) cs (.opened comm), NameFits comm call.1 call.2 := by
  apply forall_states_iff (I := Counted comm)
  · exact fun _ call hcounted => hcounted.readStep call
  · exact fun _ call hcounted hs => readStep_iff hcounted hs
  · exact fun _ => Nat.zero_add _
  · refine ⟨List.nil_prefix, ?_, ?_⟩
    · exact List.forall_mem_nil _
    · exact List.forall_mem_nil _

/-- **Two reads of one byte** of the name `sh` deliver the first byte twice. -/
theorem readName_bytewise : ¬ ∀ (comm : Comm) (cs : List ReadCall),
    ∀ t ∈ states (readStep comm) cs (.opened comm), NameStream comm t := by
  intro h
  have htwo := (h ⟨[115, 104], by decide, by decide⟩
    [⟨1, Nat.one_pos, false⟩, ⟨1, Nat.one_pos, false⟩] _ (.tail _ (.tail _ (.head _)))).front
  exact absurd htwo (by decide)

end LinuxProgram.Kernel.Sharemem
