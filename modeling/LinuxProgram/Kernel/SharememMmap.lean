import LinuxProgram.Lib.CallSequence
import LinuxProgram.Kernel.Sharemem

/-!
# Failures of sharemem_mmap

The first `sharemem_mmap` locks the `mmap_mutex` of its file and publishes `buffer_addr`
before it has everything it needs.  Where `__get_vm_area` or `map_vm_area` fails it returns
with the mutex held; where `kzalloc` fails it writes through `NULL`; and where
`alloc_page` fails the buffer has no page.

* `Usable` — no mutex is held, and the buffer is mapped where it is published and
  wherever it was used.
* `Succeeds` — when an `sharemem_mmap` makes the buffer, all four succeed.
* `sharemem_iff` — the driver stays usable exactly if all calls succeed in that.
* `sharememMmap_locked` — `__get_vm_area` returns `NULL` once.
-/

namespace LinuxProgram.Kernel.Sharemem

open Lib.CallSequence

/-- **The driver is usable**: no call has left its mutex locked, an address that is published is
mapped and has a page, and so is every address that was used. -/
structure Usable (s : Driver) : Prop where
  free : ∀ proc ∈ s.files, proc.mmapMutex = false
  published : ∀ addr, s.bufferAddr = some addr →
    addr ∈ s.mapped ∧ ∃ page, s.pagesPtrArray = some (some page)
  used : ∀ addr ∈ s.used, addr ∈ s.mapped

/-- Nothing is mapped before the buffer is published. -/
def Unpublished (s : Driver) : Prop := s.bufferAddr = none → s.mapped = []

/-- **A call succeeds**: if it makes the buffer, the kernel gives it what it asks for. -/
def Succeeds (s : Driver) : Call → Prop
  | .mmap file current o => ∀ proc, s.files[file]? = some proc →
      proc.tsk.address = current.address → s.bufferAddr = none →
        o.getVmArea.isSome ∧ o.kzalloc = true ∧ o.allocPage.isSome ∧ o.mapVmArea = 0
  | _ => True

variable {s : Driver} {i : ℕ} {proc : Proc} {addr : ℕ} {current : Task} {o : Outcome}

/-! ### Updates of the driver -/

theorem Usable.setProc (h : Usable s) (i : ℕ) (hproc : proc.mmapMutex = false) :
    Usable (s.setProc i proc) := by
  refine ⟨fun p hp => ?_, h.published, h.used⟩
  rcases List.mem_or_eq_of_mem_set hp with hp | rfl
  · exact h.free p hp
  · exact hproc

theorem Usable.touch (h : Usable s) (haddr : addr ∈ s.mapped) : Usable (s.touch addr) := by
  refine ⟨h.free, h.published, ?_⟩
  unfold Driver.touch
  rw [List.forall_mem_append, List.forall_mem_singleton]
  exact ⟨h.used, haddr⟩

theorem Usable.file_free (h : Usable s) (hfile : s.files[i]? = some proc) :
    proc.mmapMutex = false :=
  h.free proc (List.mem_of_getElem? hfile)

/-- A mutex that stays locked makes the driver unusable. -/
theorem not_usable_of_locked (hfile : s.files[i]? = some proc) :
    ¬ Usable (s.setProc i { proc with mmapMutex := true }) := by
  intro h
  obtain ⟨hi, -⟩ := List.getElem?_eq_some_iff.mp hfile
  exact Bool.noConfusion (h.free _ (List.mem_set hi _))

/-- What `MMAP_USER_SPACE` does to the driver, whatever it returns. -/
theorem mmapUserSpace_fst (s : Driver) (i : ℕ) (proc : Proc) (o : Outcome) :
    (mmapUserSpace s i proc o).1 =
      s.setProc i { proc with kernelAddr := s.bufferAddr, pages := s.pagesPtrArray } := by
  rcases s with ⟨bufferAddr, _ | _ | page, files, mapped, used⟩
  · rfl
  · rfl
  · rfl

theorem Usable.mmapUserSpace (h : Usable s) (i : ℕ) (hproc : proc.mmapMutex = false) :
    Usable (mmapUserSpace s i proc o).1 := by
  rw [mmapUserSpace_fst]
  exact h.setProc i hproc

/-! ### One call -/

theorem Usable.sharememOpen (h : Usable s) (current : Task) (kzalloc : Bool) :
    Usable (sharememOpen s current kzalloc).1 := by
  cases kzalloc with
  | false => exact h
  | true =>
      refine ⟨?_, h.published, h.used⟩
      unfold Sharemem.sharememOpen
      rw [if_pos rfl, List.forall_mem_append, List.forall_mem_singleton]
      exact ⟨h.free, rfl⟩

theorem Usable.sharememRead (h : Usable s) (i count : ℕ) (copyFails : Bool) :
    Usable (sharememRead s i count copyFails).1 := by
  unfold Sharemem.sharememRead
  cases hfile : s.files[i]? with
  | none => exact h
  | some proc =>
      have hfree := h.file_free hfile
      have hset : ∀ n, Usable (s.setProc i { proc with namelen := n }) :=
        fun n => h.setProc i hfree
      cases hbuffer : s.bufferAddr with
      | none =>
          have hunmapped : ∀ n, (s.setProc i { proc with namelen := n }).bufferAddr = none :=
            fun n => hbuffer
          simp only [hunmapped]
          exact hset _
      | some addr =>
          have hmapped : ∀ n, (s.setProc i { proc with namelen := n }).bufferAddr = some addr :=
            fun n => hbuffer
          simp only [hmapped]
          exact (hset _).touch (h.published addr hbuffer).1

theorem Usable.sharememWrite (h : Usable s) (i count : ℕ) (copyFails : Bool) :
    Usable (sharememWrite s i count copyFails).1 := by
  unfold Sharemem.sharememWrite
  cases hfile : s.files[i]? with
  | none => exact h
  | some proc =>
      cases hbuffer : s.bufferAddr with
      | none => exact h
      | some addr =>
          have hmapped := (h.published addr hbuffer).1
          simp only [h.file_free hfile, Bool.false_eq_true, if_false, if_pos hmapped]
          exact h.touch hmapped

/-- **A call that makes the buffer** leaves the driver usable exactly if the kernel functions
succeed. -/
theorem sharememMmap_first (h : Usable s) (hnew : s.mapped = [])
    (hfile : s.files[i]? = some proc) (htask : proc.tsk.address = current.address)
    (hbuffer : s.bufferAddr = none) :
    Usable (sharememMmap s i current o).1 ↔
      o.getVmArea.isSome ∧ o.kzalloc = true ∧ o.allocPage.isSome ∧ o.mapVmArea = 0 := by
  have hfree := h.file_free hfile
  unfold Sharemem.sharememMmap
  simp only [hfile, htask, ne_eq, not_true_eq_false, if_false, hfree, Bool.false_eq_true, hbuffer]
  cases harea : o.getVmArea with
  | none =>
      refine iff_of_false (not_usable_of_locked hfile) ?_
      rintro ⟨hsome, -⟩
      exact Bool.noConfusion hsome
  | some addr =>
      by_cases hkzalloc : o.kzalloc = false
      · refine iff_of_false ?_ ?_
        · simp only [hkzalloc, if_true]
          exact not_usable_of_locked hfile
        · rintro ⟨-, hmemory, -⟩
          exact Bool.noConfusion (hkzalloc.symm.trans hmemory)
      · by_cases hmap : o.mapVmArea = 0
        · simp only [if_neg hkzalloc, hmap, not_true_eq_false, if_false]
          cases hpage : o.allocPage with
          | none =>
              -- the address is published, and no page is mapped there
              refine iff_of_false ?_ ?_
              · intro husable
                rw [mmapUserSpace_fst] at husable
                have hmem := (husable.published addr rfl).1
                exact List.not_mem_nil (hnew ▸ hmem)
              · rintro ⟨-, -, hsome, -⟩
                exact Bool.noConfusion hsome
          | some page =>
              refine iff_of_true ?_ ⟨rfl, Bool.eq_true_of_not_eq_false hkzalloc, rfl, trivial⟩
              refine Usable.mmapUserSpace ?_ i hfree
              refine ⟨h.free, ?_, ?_⟩
              · intro a ha
                obtain rfl := Option.some.inj ha
                exact ⟨List.mem_append_right _ (List.mem_singleton_self _), page, rfl⟩
              · exact fun a ha => List.mem_append_left _ (h.used a ha)
        · refine iff_of_false ?_ ?_
          · simp only [if_neg hkzalloc, hmap, not_false_eq_true, if_true]
            exact not_usable_of_locked hfile
          · rintro ⟨-, -, -, hzero⟩
            exact hmap hzero

/-- **`sharemem_mmap`** leaves the driver usable exactly if it succeeds, whether it makes the buffer
or maps the one that is there. -/
theorem sharememMmap_step (h : Usable s) (hnew : Unpublished s) :
    Usable (sharememMmap s i current o).1 ↔ Succeeds s (.mmap i current o) := by
  cases hfile : s.files[i]? with
  | none =>
      unfold Sharemem.sharememMmap
      simp only [hfile]
      exact iff_of_true h fun proc hproc => nomatch hfile.symm.trans hproc
  | some proc =>
      by_cases htask : proc.tsk.address = current.address
      · cases hbuffer : s.bufferAddr with
        | none =>
            rw [sharememMmap_first h (hnew hbuffer) hfile htask hbuffer]
            constructor
            · intro hall proc' hproc' _ _
              exact hall
            · intro hall
              exact hall proc hfile htask hbuffer
        | some addr =>
            have hmapped := (h.published addr hbuffer).1
            refine iff_of_true ?_ fun _ _ _ hnone => nomatch hbuffer.symm.trans hnone
            unfold Sharemem.sharememMmap
            simp only [hfile, htask, ne_eq, not_true_eq_false, if_false, h.file_free hfile,
              Bool.false_eq_true, hbuffer, if_pos hmapped]
            exact (h.touch hmapped).mmapUserSpace i (h.file_free hfile)
      · refine iff_of_true ?_ fun proc' hproc' hown => ?_
        · unfold Sharemem.sharememMmap
          simp only [hfile, ne_eq, htask, not_false_eq_true, if_true]
          exact h
        · obtain rfl := Option.some.inj (hfile.symm.trans hproc')
          exact absurd hown htask

theorem unpublished_of_some (h : s.bufferAddr = some addr) : Unpublished s :=
  fun hnone => nomatch h.symm.trans hnone

/-- The buffer is published before it is mapped. -/
theorem Unpublished.sharememMmap (hnew : Unpublished s) (i : ℕ) (current : Task) (o : Outcome) :
    Unpublished (sharememMmap s i current o).1 := by
  unfold Sharemem.sharememMmap
  cases hfile : s.files[i]? with
  | none => exact hnew
  | some proc =>
      simp only
      by_cases htask : proc.tsk.address ≠ current.address
      · rw [if_pos htask]
        exact hnew
      rw [if_neg htask]
      by_cases hmutex : proc.mmapMutex
      · rw [if_pos hmutex]
        exact hnew
      rw [if_neg hmutex]
      cases hbuffer : s.bufferAddr with
      | some addr =>
          refine unpublished_of_some (?_ : _ = some addr)
          simp only
          split
          · rw [mmapUserSpace_fst]
            exact hbuffer
          · exact hbuffer
      | none =>
          cases o.getVmArea with
          | none => exact fun _ => hnew hbuffer
          | some addr =>
              refine unpublished_of_some (?_ : _ = some addr)
              simp only
              split
              · rfl
              · split
                · rfl
                · rw [mmapUserSpace_fst]
                  rfl

theorem Unpublished.next (hnew : Unpublished s) (call : Call) : Unpublished (next s call) := by
  cases call with
  | opened current kzalloc =>
      cases kzalloc with
      | false => exact hnew
      | true => exact hnew
  | mmap i current o => exact hnew.sharememMmap i current o
  | read i count copyFails =>
      show Unpublished (sharememRead s i count copyFails).1
      unfold sharememRead
      cases s.files[i]? with
      | none => exact hnew
      | some proc =>
          simp only
          split
          · exact hnew
          · exact hnew
  | write i count copyFails =>
      show Unpublished (sharememWrite s i count copyFails).1
      unfold sharememWrite
      cases s.files[i]? with
      | none => exact hnew
      | some proc =>
          simp only
          split
          · exact hnew
          · split
            · exact hnew
            · split
              · exact hnew
              · exact hnew

/-- **A call** leaves the driver usable exactly if it succeeds. -/
theorem next_step (hnew : Unpublished s) (h : Usable s) (call : Call) :
    Usable (next s call) ↔ Succeeds s call := by
  cases call with
  | opened current kzalloc => exact iff_of_true (h.sharememOpen current kzalloc) trivial
  | mmap i current o => exact sharememMmap_step h hnew
  | read i count copyFails => exact iff_of_true (h.sharememRead i count copyFails) trivial
  | write i count copyFails => exact iff_of_true (h.sharememWrite i count copyFails) trivial

/-! ### All calls -/

/-- **The driver stays usable** exactly if all calls succeed.  A failure of the kernel in the call
that makes the buffer returns with the mutex held, and what was published by then stays. -/
theorem sharemem_iff (cs : List Call) : (∀ t ∈ states next cs {}, Usable t) ↔
    ∀ call ∈ calls next cs {}, Succeeds call.1 call.2 := by
  apply forall_states_iff (I := Unpublished)
  · exact fun _ call hnew => hnew.next call
  · exact fun _ call hnew h => next_step hnew h call
  · exact fun _ => rfl
  · refine ⟨?_, fun addr haddr => (nomatch haddr), ?_⟩
    · exact List.forall_mem_nil _
    · exact List.forall_mem_nil _

/-- The task of the run below. -/
def task : Task := ⟨1, ⟨[115], by decide, by decide⟩⟩

/-- **`__get_vm_area` returns `NULL`** to the first task: its mutex stays locked. -/
theorem sharememMmap_locked : ¬ ∀ cs : List Call, ∀ t ∈ states next cs {}, Usable t := by
  intro h
  have husable := h [.opened task true, .mmap 0 task ⟨none, true, some 4096, 0, 0⟩] _
    (.tail _ (.tail _ (.head _)))
  exact Bool.noConfusion (husable.free _ (.head _))

end LinuxProgram.Kernel.Sharemem
