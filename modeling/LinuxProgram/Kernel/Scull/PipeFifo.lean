import LinuxProgram.Kernel.Scull.Pipe
import LinuxProgram.Lib.Agents
import LinuxProgram.Lib.History

/-!
# scullpipe is a queue

Between one `open` and the next the bytes that are written are those that are read, in order.

* `Fifo`, `FifoAnswers` — a queue with a capacity.  `open` empties it.
* `Ring` — a device that holds a queue; `readAtLock_spec`, `writeAtLock_spec`.
* `Roomy` — a file is opened with a size for which the buffer that is there has room.
* `Piped` — the invariant.
* `pipe_isFifo` — then the device is a queue, in every interleaving, and its buffer is
  freed with the last file.
-/

namespace LinuxProgram.Kernel.Scull

open Lib CircularBuffer

/-- **A queue** of at most so many bytes. -/
structure Fifo where
  capacity : ℕ
  queue : List Cell

/-- **What happens to the queue**, and what the calls may return. -/
inductive FifoAnswers : Fifo → PipeEvent → Fifo → Prop
  | opened {q : Fifo} {n : ℕ} : FifoAnswers q (.opened n) ⟨n - 1, []⟩
  /-- A reader gets bytes from the front, as soon as there are some. -/
  | read {capacity count : ℕ} {bytes rest : List Cell} (hnonempty : bytes ++ rest ≠ [])
      (hle : bytes.length ≤ count) (hpos : 0 < count → bytes ≠ []) :
      FifoAnswers ⟨capacity, bytes ++ rest⟩ (.read count bytes) ⟨capacity, rest⟩
  /-- A writer adds some of its bytes at the end, as soon as one fits. -/
  | write {capacity : ℕ} {queue bytes : List Cell} {buf : List UInt8}
      (hpre : bytes <+: buf.map some) (hpos : buf ≠ [] → bytes ≠ [])
      (hfits : (queue ++ bytes).length ≤ capacity) :
      FifoAnswers ⟨capacity, queue⟩ (.write buf bytes) ⟨capacity, queue ++ bytes⟩
  | readAgain {capacity : ℕ} : FifoAnswers ⟨capacity, []⟩ .readAgain ⟨capacity, []⟩
  | writeAgain {queue : List Cell} :
      FifoAnswers ⟨queue.length, queue⟩ .writeAgain ⟨queue.length, queue⟩
  | poll {q : Fifo} :
      FifoAnswers q (.poll (q.queue ≠ []) (q.queue.length < q.capacity)) q

/-! ### The device

What is in the buffer is read off the pointers: from `rp` to `wp` in circular order, so that one
place stays free and equal pointers mean an empty queue.  `readAtLock` and `writeAtLock` are what
a call does with the semaphore up to the moved pointer, and each is one answer of the queue,
whatever the pointers are. -/

variable {dev : ScullPipe} {block : Block (List Cell)} {n : ℕ} {q : Fifo}

/-- The pointers of a device that holds a queue.  One that has just moved may be at the end. -/
structure Pointers (dev : ScullPipe) (n : ℕ) (q : Fifo) : Prop where
  pos : 0 < n
  lt : n < 2 ^ 31
  buffersize : dev.buffersize = n
  capacity : q.capacity = n - 1
  rp : dev.rp ≤ n
  wp : dev.wp ≤ n
  length : q.queue.length + free n (wrap n dev.rp) (wrap n dev.wp) = n - 1

/-- **A buffer that holds a queue.** What is between the pointers, in circular order, are the bytes
of the queue, first in first. -/
structure Ring (dev : ScullPipe) (block : Block (List Cell)) (n : ℕ) (q : Fifo) : Prop
    extends Pointers dev n q where
  buffer : dev.buffer = some block
  le : n ≤ block.val.length
  queue : q.queue = contents block.val n (wrap n dev.rp) (wrap n dev.wp)

theorem wrapped_eq (h : Pointers dev n q) (p : ℕ) : dev.wrapped p = wrap n p := by
  rw [ScullPipe.wrapped, wrap, h.buffersize]
  exact if_congr Int.natCast_inj rfl rfl

/-- `spacefree` is how much fits. -/
theorem spacefree_eq (h : Pointers dev n q) (hrp : dev.rp < n) (hwp : dev.wp < n) :
    spacefree dev = (free n dev.rp dev.wp : ℕ) := by
  have hpos := h.pos
  rw [spacefree, free, h.buffersize]
  by_cases heq : dev.rp = dev.wp
  · rw [if_pos heq, if_pos heq.le]
    omega
  · rw [if_neg heq]
    by_cases hle : dev.rp ≤ dev.wp
    · have hmod : ((dev.rp : ℤ) + n - dev.wp).tmod n = dev.rp + n - dev.wp := by
        rw [Int.tmod_eq_emod_of_nonneg (by omega), Int.emod_eq_of_lt (by omega) (by omega)]
      rw [if_pos hle, hmod]
      omega
    · have hmod : ((dev.rp : ℤ) + n - dev.wp).tmod n = dev.rp - dev.wp := by
        rw [Int.tmod_eq_emod_of_nonneg (by omega), add_sub_right_comm, Int.add_emod_right,
          Int.emod_eq_of_lt (by omega) (by omega)]
      rw [if_neg hle, hmod]
      omega

/-- The queue is empty, and it is full, as the pointers say. -/
theorem empty_iff (h : Pointers dev n q) (hrp : dev.rp < n) (hwp : dev.wp < n) :
    q.queue = [] ↔ dev.rp = dev.wp := by
  have hlength := h.length
  rw [wrap_of_lt hrp, wrap_of_lt hwp, free] at hlength
  rw [← List.length_eq_zero_iff]
  split at hlength <;> omega

theorem full_iff (h : Pointers dev n q) (hrp : dev.rp < n) (hwp : dev.wp < n) :
    q.queue.length < q.capacity ↔ spacefree dev ≠ 0 := by
  have hlength := h.length
  rw [wrap_of_lt hrp, wrap_of_lt hwp] at hlength
  rw [spacefree_eq h hrp hwp, h.capacity]
  omega

theorem sizeT_eq {x : ℤ} (h0 : 0 ≤ x) (h : x < 2 ^ 31) : sizeT x = x.toNat := by
  rw [sizeT]
  omega

/-- **`scull_p_read`** waits if the queue is empty, and else takes from its front. -/
theorem readAtLock_spec (h : Ring dev block n q) (hrp : dev.rp < n) (hwp : dev.wp < n)
    (count : ℕ) (fault : Bool) :
    (readAtLock dev count fault = .wait ∧ q.queue = []) ∨
      readAtLock dev count fault = .fault dev ∨
      ∃ bytes rest, q.queue = bytes ++ rest ∧ q.queue ≠ [] ∧ bytes.length ≤ count ∧
        (0 < count → bytes ≠ []) ∧
        readAtLock dev count fault = .done { dev with rp := dev.rp + bytes.length } bytes ∧
        Ring { dev with rp := dev.rp + bytes.length } block n ⟨q.capacity, rest⟩ := by
  have hlt := h.lt
  have hle := h.le
  rw [readAtLock]
  by_cases heq : dev.rp = dev.wp
  · rw [if_pos heq]
    exact .inl ⟨rfl, (empty_iff h.toPointers hrp hwp).mpr heq⟩
  · have hcount : (if dev.wp > dev.rp then min count (dev.wp - dev.rp)
        else min count (sizeT (dev.buffersize - dev.rp))) =
          min count (getRoom n dev.rp dev.wp) := by
      rw [getRoom, h.buffersize, sizeT_eq (by omega) (by omega)]
      split <;> split <;> omega
    have hroom : getRoom n dev.rp dev.wp ≤ n - dev.rp := by
      rw [getRoom]
      split <;> omega
    have hpos := getRoom_pos hrp heq
    rw [if_neg heq, hcount, h.buffer]
    generalize hk : min count (getRoom n dev.rp dev.wp) = k
    dsimp only
    rw [if_neg (by omega)]
    have hlength : (segment block.val dev.rp (dev.rp + k)).length = k := by
      rw [length_segment (by omega)]
      omega
    cases fault with
    | true => exact .inr (.inl rfl)
    | false =>
        have hqueue := h.queue
        rw [wrap_of_lt hrp, wrap_of_lt hwp, contents_get hwp hrp (hk ▸ Nat.min_le_right _ _)]
          at hqueue
        refine .inr (.inr ⟨_, _, hqueue, ?_, ?_, fun hcount hnil => ?_, ?_, ?_⟩)
        · rw [Ne, empty_iff h.toPointers hrp hwp]
          exact heq
        · rw [hlength]
          omega
        · rw [hnil, List.length_nil] at hlength
          omega
        · rw [hlength]
          rfl
        · rw [hlength]
          have hrest := length_contents hle
            (wrap_lt h.pos (show dev.rp + k ≤ n by omega)) hwp
          refine ⟨⟨h.pos, h.lt, h.buffersize, h.capacity, ?_, h.wp, ?_⟩, rfl, hle, ?_⟩
          · dsimp only
            omega
          · dsimp only
            rwa [wrap_of_lt hwp]
          · dsimp only
            rw [wrap_of_lt hwp]

/-- **`scull_p_write`** waits if the queue is full, and else adds to its end. -/
theorem writeAtLock_spec (h : Ring dev block n q) (hrp : dev.rp < n) (hwp : dev.wp < n)
    (buf : List UInt8) (fault : Option (List UInt8)) :
    (writeAtLock dev buf fault = .wait ∧ q.queue.length = q.capacity) ∨
      (∃ block', block'.addr = block.addr ∧
        writeAtLock dev buf fault = .fault { dev with buffer := some block' } ∧
        Ring { dev with buffer := some block' } block' n q) ∨
      ∃ bytes block', block'.addr = block.addr ∧ bytes <+: buf.map some ∧
        (buf ≠ [] → bytes ≠ []) ∧ (q.queue ++ bytes).length ≤ q.capacity ∧
        writeAtLock dev buf fault =
          .done { dev with buffer := some block', wp := dev.wp + bytes.length } bytes ∧
        Ring { dev with buffer := some block', wp := dev.wp + bytes.length } block' n
          ⟨q.capacity, q.queue ++ bytes⟩ := by
  have hlt := h.lt
  have hle := h.le
  have hlength := h.length
  rw [wrap_of_lt hrp, wrap_of_lt hwp] at hlength
  rw [writeAtLock]
  by_cases hfull : spacefree dev = 0
  · rw [if_pos hfull]
    refine .inl ⟨rfl, ?_⟩
    have hnot := (full_iff h.toPointers hrp hwp).not_left.mpr hfull
    rw [h.capacity] at hnot ⊢
    omega
  · rw [if_neg hfull]
    rw [spacefree_eq h.toPointers hrp hwp] at hfull ⊢
    have hfree : 0 < free n dev.rp dev.wp := by omega
    have hcount : (if dev.wp ≥ dev.rp then
          min (min buf.length (sizeT (free n dev.rp dev.wp : ℕ))) (sizeT (dev.buffersize - dev.wp))
        else min (min buf.length (sizeT (free n dev.rp dev.wp : ℕ)))
          (sizeT (dev.rp - dev.wp - 1))) = min buf.length (putRoom n dev.rp dev.wp) := by
      have hle : free n dev.rp dev.wp ≤ n := by omega
      rw [putRoom, h.buffersize, sizeT_eq (by omega) (by omega)]
      split
      · rw [sizeT_eq (by omega) (by omega)]
        omega
      · rw [sizeT_eq (by omega) (by omega)]
        omega
    have hroom : putRoom n dev.rp dev.wp ≤ n - dev.wp := by
      rw [putRoom]
      split <;> omega
    have hputfree : putRoom n dev.rp dev.wp ≤ free n dev.rp dev.wp := Nat.min_le_left _ _
    have hpos := putRoom_pos hwp hfree
    dsimp only
    rw [hcount, h.buffer]
    generalize hk : min buf.length (putRoom n dev.rp dev.wp) = k
    dsimp only
    rw [if_neg (by omega)]
    have hqueue := h.queue
    rw [wrap_of_lt hrp, wrap_of_lt hwp] at hqueue
    cases fault with
    | none =>
        have hbytes : ((buf.take k).map (some : UInt8 → Cell)).length = k := by
          rw [List.length_map, List.length_take]
          omega
        have hput := contents_put hle hrp hwp
          (show ((buf.take k).map some).length ≤ putRoom n dev.rp dev.wp by omega)
        have hpatch : n ≤ (patch block.val dev.wp ((buf.take k).map some)).length := by
          rw [length_patch (by omega)]
          exact hle
        have hlength' := length_contents hpatch hrp
          (wrap_lt h.pos (show dev.wp + ((buf.take k).map some).length ≤ n by omega))
        rw [hput, ← hqueue] at hlength'
        refine .inr (.inr ⟨(buf.take k).map some,
          ⟨block.addr, patch block.val dev.wp ((buf.take k).map some)⟩, rfl, ?_,
          fun hbuf hnil => ?_, ?_, ?_, ?_⟩)
        · exact (List.take_prefix k buf).map some
        · have hbuf := List.length_pos_of_ne_nil hbuf
          rw [hnil, List.length_nil] at hbytes
          omega
        · rw [List.length_append, hbytes, h.capacity]
          omega
        · rw [hbytes]
          rfl
        · refine ⟨⟨h.pos, h.lt, h.buffersize, h.capacity, h.rp, ?_, ?_⟩, rfl, hpatch, ?_⟩
          · dsimp only
            omega
          · dsimp only
            rwa [wrap_of_lt hrp]
          · dsimp only
            rw [wrap_of_lt hrp, hqueue]
            exact hput.symm
    | some left =>
        have hcopied : ((left.take k).map (some : UInt8 → Cell)).length ≤
            putRoom n dev.rp dev.wp := by
          rw [List.length_map, List.length_take]
          omega
        have hpatch : n ≤ (patch block.val dev.wp ((left.take k).map some)).length := by
          rw [length_patch (by omega)]
          exact hle
        refine .inr (.inl ⟨⟨block.addr, patch block.val dev.wp ((left.take k).map some)⟩, rfl, rfl,
          ⟨h.pos, h.lt, h.buffersize, h.capacity, h.rp, h.wp, ?_⟩, rfl, hpatch, ?_⟩)
        · exact h.length
        · dsimp only
          rw [wrap_of_lt hrp, wrap_of_lt hwp, hqueue]
          exact (contents_patch hle hrp hwp hcopied).symm

/-! ### The tasks

Only a task that has the semaphore moves a pointer, and between the move and the step of `wrap`
the pointer may stand on the end of the buffer.  The invariant therefore says where a pointer may
stand by who has the semaphore, and that without it both are inside.  A step of a task is then one
of three: nothing changes, a pointer moves, or the semaphore is given back. -/

/-- **There is room for the size that a file is opened with.**  `scull_p_open` stores the module
parameter `scull_p_buffer` as the `int` size of the device at every open, but allocates only if
there is no buffer: the parameter has to be positive and an `int`, and the buffer, if there is one
already, has to be at least that long. -/
def Roomy (s : PipeSystem) : PipeAction → Prop
  | .openFile _ _ => 0 < s.params.scullPBuffer ∧ s.params.scullPBuffer < 2 ^ 31 ∧
      ∀ block ∈ s.dev.buffer, s.params.scullPBuffer ≤ block.val.length
  | _ => True

/-- A task has moved a pointer, and has the semaphore. -/
def AtWrap (tasks : List (Option PipeCall)) (task : ℕ) (isRead : Bool) : Prop :=
  ∃ c, tasks[task]? = some (some c) ∧ c.stage = .wrap ∧ c.op.isRead = isRead

/-- How many of the files have a mode. -/
def modes (mode : PipeFile → Bool) (files : List (Option PipeFile)) : ℕ :=
  files.countP (Option.any mode)

/-- What the pointers are when nobody, or somebody, has the semaphore. -/
structure Settled (s : PipeSystem) (n : ℕ) : Prop where
  free : s.sem = none → s.dev.rp < n ∧ s.dev.wp < n
  reader : ∀ task, AtWrap s.tasks task true → s.dev.wp < n
  writer : ∀ task, AtWrap s.tasks task false → s.dev.rp < n

/-- **The invariant.** The counters are the modes of the open files, and with one of them there is a
buffer, whose block is the only one that the driver has.  Every call has an open file of its kind.
The task that has the semaphore is the one that has moved a pointer, and between the pointers is the
queue `q`. -/
structure Piped (s : PipeSystem) (q : Fifo) : Prop where
  alive : s.oops = false
  accounted : Ledger.Accounted (s.dev.buffer.toList.map Block.addr) s.ledger
  nreaders : s.dev.nreaders = modes PipeFile.fmodeRead s.files
  nwriters : s.dev.nwriters = modes PipeFile.fmodeWrite s.files
  buffer : s.dev.nreaders + s.dev.nwriters = 0 ∨ s.dev.buffer ≠ none
  closed : (∀ f ∈ s.files, f = none) → s.dev.buffer = none
  calls : ∀ (task : ℕ) (c : PipeCall), s.tasks[task]? = some (some c) →
    ∃ file, s.files[c.file]? = some (some file) ∧ file.allows c.op
  sem : ∀ task, s.sem = some task ↔ ∃ isRead, AtWrap s.tasks task isRead
  ring : (∃ file, some file ∈ s.files) → ∃ n, Pointers s.dev n q ∧ Settled s n ∧
    ∀ block, s.dev.buffer = some block → Ring s.dev block n q

variable {s s' : PipeSystem} {task : ℕ} {c c' : PipeCall}

theorem piped_start (params : Params) (tasks : ℕ) :
    Piped (.start params tasks) ⟨0, []⟩ where
  alive := rfl
  accounted := Ledger.accounted_empty
  nreaders := rfl
  nwriters := rfl
  buffer := .inl rfl
  closed _ := rfl
  calls task c h := by
    rw [PipeSystem.start, List.getElem?_replicate] at h
    split at h
    · cases h
    · cases h
  sem task := by
    refine iff_of_false nofun ?_
    rintro ⟨_, c, h, -⟩
    rw [PipeSystem.start, List.getElem?_replicate] at h
    split at h
    · cases h
    · cases h
  ring := by
    rintro ⟨file, hfile⟩
    cases hfile

/-- **Only the tasks change**, and nobody gets or gives back the semaphore. -/
theorem Piped.tasks (h : Piped s q) {tasks : List (Option PipeCall)}
    (hcalls : ∀ (task : ℕ) (c : PipeCall), tasks[task]? = some (some c) →
      ∃ file, s.files[c.file]? = some (some file) ∧ file.allows c.op)
    (hwrap : ∀ task isRead, AtWrap tasks task isRead ↔ AtWrap s.tasks task isRead) :
    Piped { s with tasks := tasks } q where
  alive := h.alive
  accounted := h.accounted
  nreaders := h.nreaders
  nwriters := h.nwriters
  buffer := h.buffer
  closed := h.closed
  calls := hcalls
  sem task := (h.sem task).trans (exists_congr fun isRead => (hwrap task isRead).symm)
  ring hopen := by
    obtain ⟨n, hpointers, hsettled, hring⟩ := h.ring hopen
    exact ⟨n, hpointers, ⟨hsettled.free, fun task hw => hsettled.reader task ((hwrap _ _).mp hw),
      fun task hw => hsettled.writer task ((hwrap _ _).mp hw)⟩, hring⟩

theorem atWrap_set {tasks : List (Option PipeCall)} {old new : Option PipeCall}
    (hold : tasks[task]? = some old) (holdstage : ∀ c, old = some c → c.stage ≠ .wrap)
    (hnewstage : ∀ c, new = some c → c.stage ≠ .wrap) (task' : ℕ) (isRead : Bool) :
    AtWrap (tasks.set task new) task' isRead ↔ AtWrap tasks task' isRead := by
  rw [AtWrap, AtWrap, Agents.getElem?_set hold]
  by_cases htask : task' = task
  · rw [if_pos htask, htask, hold]
    refine iff_of_false ?_ ?_
    · rintro ⟨c, hc, hstage, -⟩
      exact hnewstage c (Option.some.inj hc) hstage
    · rintro ⟨c, hc, hstage, -⟩
      exact holdstage c (Option.some.inj hc) hstage
  · rw [if_neg htask]

/-- A task goes on without the semaphore. -/
theorem Piped.setTask (h : Piped s q) {old new : Option PipeCall}
    (hold : s.tasks[task]? = some old) (holdstage : ∀ c, old = some c → c.stage ≠ .wrap)
    (hnew : ∀ c, new = some c → c.stage ≠ .wrap ∧
      ∃ file, s.files[c.file]? = some (some file) ∧ file.allows c.op) :
    Piped (s.setTask task new) q := by
  refine h.tasks (fun task' c hc => ?_)
    (atWrap_set hold holdstage fun c hc => (hnew c hc).1)
  rw [Agents.getElem?_set hold] at hc
  split at hc
  · exact (hnew c (Option.some.inj hc)).2
  · exact h.calls task' c hc

/-- The parameters and what has happened do not matter. -/
theorem Piped.congr (h : Piped s q) (hdev : s'.dev = s.dev) (hledger : s'.ledger = s.ledger)
    (hfiles : s'.files = s.files) (htasks : s'.tasks = s.tasks) (hsem : s'.sem = s.sem)
    (hoops : s'.oops = s.oops) : Piped s' q := by
  obtain ⟨params, dev, ledger, files, tasks, sem, events, oops⟩ := s'
  dsimp only at hdev hledger hfiles htasks hsem hoops
  subst hdev hledger hfiles htasks hsem hoops
  refine ⟨h.alive, h.accounted, h.nreaders, h.nwriters, h.buffer, h.closed, h.calls, h.sem,
    fun hopen => ?_⟩
  obtain ⟨n, hpointers, hsettled, hring⟩ := h.ring hopen
  exact ⟨n, hpointers, ⟨hsettled.free, hsettled.reader, hsettled.writer⟩, hring⟩

theorem Piped.log (h : Piped s q) (e : PipeEvent) : Piped (s.log e) q :=
  h.congr rfl rfl rfl rfl rfl rfl

/-- With a file that is open for a call there is a buffer. -/
theorem Piped.exists_ring (h : Piped s q) (hc : s.tasks[task]? = some (some c)) :
    ∃ n block, Ring s.dev block n q ∧ Settled s n := by
  obtain ⟨file, hfile, hallows⟩ := h.calls task c hc
  have hmem := List.mem_of_getElem? hfile
  obtain ⟨n, -, hsettled, hring⟩ := h.ring ⟨file, hmem⟩
  have hpos : s.dev.nreaders + s.dev.nwriters ≠ 0 := by
    have hcount : 0 < modes PipeFile.fmodeRead s.files + modes PipeFile.fmodeWrite s.files := by
      rw [PipeFile.allows] at hallows
      split at hallows
      · exact Nat.add_pos_left (List.countP_pos_iff.mpr ⟨_, hmem, hallows⟩) _
      · exact Nat.add_pos_right _ (List.countP_pos_iff.mpr ⟨_, hmem, hallows⟩)
    rw [h.nreaders, h.nwriters]
    omega
  obtain ⟨block, hblock⟩ := Option.ne_none_iff_exists'.mp (h.buffer.resolve_left hpos)
  exact ⟨n, block, hring block hblock, hsettled⟩

/-- **What a step does** to the queue. -/
def Moves (s s' : PipeSystem) (q : Fifo) : Prop :=
  ∃ more q', s'.events = s.events ++ more ∧ History FifoAnswers q more q' ∧ Piped s' q'

theorem Moves.quiet (h : Piped s' q) (hevents : s'.events = s.events) : Moves s s' q :=
  ⟨[], q, by rw [hevents, List.append_nil], .nil, h⟩

theorem Moves.single {e : PipeEvent} {q' : Fifo} (h : Piped s' q')
    (hevents : s'.events = s.events ++ [e]) (hanswer : FifoAnswers q e q') : Moves s s' q :=
  ⟨[e], q', hevents, .snoc .nil hanswer, h⟩

/-- Nobody has the semaphore. -/
theorem Piped.not_atWrap (h : Piped s q) (hsem : s.sem = none) (task : ℕ) (isRead : Bool) :
    ¬AtWrap s.tasks task isRead := fun hwrap => by
  have hhas := (h.sem task).mpr ⟨isRead, hwrap⟩
  rw [hsem] at hhas
  cases hhas

/-- The device behind a transfer: the buffer is in the same block. -/
structure Keeps (dev dev' : ScullPipe) (block' : Block (List Cell)) : Prop where
  nreaders : dev'.nreaders = dev.nreaders
  nwriters : dev'.nwriters = dev.nwriters
  buffer : dev'.buffer = some block'
  addr : dev.buffer.toList.map Block.addr = [block'.addr]

/-- What was written changes, and no pointer. -/
theorem Piped.setDev (h : Piped s q) {dev : ScullPipe} {block : Block (List Cell)} {n : ℕ}
    (hkeeps : Keeps s.dev dev block) (hring : Ring dev block n q) (hrp : dev.rp < n)
    (hwp : dev.wp < n) : Piped { s with dev := dev } q where
  alive := h.alive
  accounted := by
    have haccounted := h.accounted
    rw [hkeeps.addr] at haccounted
    dsimp only
    rw [hkeeps.buffer]
    exact haccounted
  nreaders := hkeeps.nreaders.trans h.nreaders
  nwriters := hkeeps.nwriters.trans h.nwriters
  buffer := .inr (by rw [hkeeps.buffer]; exact Option.some_ne_none _)
  closed hclosed := by
    have hnone := h.closed hclosed
    have haddr := hkeeps.addr
    rw [hnone] at haddr
    cases haddr
  calls := h.calls
  sem := h.sem
  ring _ := ⟨n, hring.toPointers, ⟨fun _ => ⟨hrp, hwp⟩, fun _ _ => hwp, fun _ _ => hrp⟩,
    fun block' hblock' => by
      obtain rfl : block = block' := Option.some.inj (hkeeps.buffer.symm.trans hblock')
      exact hring⟩

/-- A task goes on, and the device may change. -/
theorem Piped.transfer (h : Piped s q) (hc : s.tasks[task]? = some (some c)) {stage : Stage}
    {dev : ScullPipe} {sem : Option ℕ} {block : Block (List Cell)} {n : ℕ} {q' : Fifo}
    (hkeeps : Keeps s.dev dev block) (hring : Ring dev block n q')
    (hsem : ∀ task', sem = some task' ↔
      ∃ isRead, AtWrap (s.tasks.set task (some { c with stage := stage })) task' isRead)
    (hsettled : Settled
      { s.setTask task (some { c with stage := stage }) with dev := dev, sem := sem } n) :
    Piped { s.setTask task (some { c with stage := stage }) with dev := dev, sem := sem } q' where
  alive := h.alive
  accounted := by
    have haccounted := h.accounted
    rw [hkeeps.addr] at haccounted
    dsimp only
    rw [hkeeps.buffer]
    exact haccounted
  nreaders := hkeeps.nreaders.trans h.nreaders
  nwriters := hkeeps.nwriters.trans h.nwriters
  buffer := .inr (by dsimp only; rw [hkeeps.buffer]; exact Option.some_ne_none _)
  closed hclosed := by
    obtain ⟨file, hfile, -⟩ := h.calls task c hc
    cases hclosed _ (List.mem_of_getElem? hfile)
  calls task' c' hc' := by
    dsimp only [PipeSystem.setTask] at hc'
    rw [Agents.getElem?_set hc] at hc'
    split at hc'
    · rw [← Option.some.inj (Option.some.inj hc')]
      exact h.calls task c hc
    · exact h.calls task' c' hc'
  sem := hsem
  ring _ := ⟨n, hring.toPointers, hsettled, fun block' hblock' => by
    obtain rfl : block = block' := Option.some.inj (hkeeps.buffer.symm.trans hblock')
    exact hring⟩

/-- **A pointer moves**, and the task keeps the semaphore until it was checked for the end. -/
theorem Piped.move (h : Piped s q) (hc : s.tasks[task]? = some (some c)) (hsem : s.sem = none)
    {dev : ScullPipe} {block : Block (List Cell)} {n : ℕ} {q' : Fifo}
    (hkeeps : Keeps s.dev dev block) (hring : Ring dev block n q')
    (hreader : c.op.isRead = true → dev.wp < n) (hwriter : c.op.isRead = false → dev.rp < n) :
    Piped { s.setTask task (some { c with stage := .wrap }) with
      dev := dev, sem := some task } q' := by
  have hwrap : ∀ task' isRead,
      AtWrap (s.tasks.set task (some { c with stage := .wrap })) task' isRead ↔
        task' = task ∧ isRead = c.op.isRead := fun task' isRead => by
    rw [AtWrap, Agents.getElem?_set hc]
    by_cases htask : task' = task
    · rw [if_pos htask]
      refine ⟨?_, fun hread => ⟨_, rfl, rfl, hread.2.symm⟩⟩
      rintro ⟨c', hc', -, hread⟩
      rw [← Option.some.inj (Option.some.inj hc')] at hread
      exact ⟨htask, hread.symm⟩
    · rw [if_neg htask]
      exact iff_of_false (h.not_atWrap hsem task' isRead) fun hread => htask hread.1
  refine h.transfer hc hkeeps hring (fun task' => ⟨fun heq => ?_, ?_⟩) ⟨nofun, ?_, ?_⟩
  · exact ⟨_, (hwrap task' _).mpr ⟨(Option.some.inj heq).symm, rfl⟩⟩
  · rintro ⟨isRead, hat⟩
    exact congrArg some ((hwrap task' isRead).mp hat).1.symm
  · exact fun task' hat => hreader ((hwrap task' true).mp hat).2.symm
  · exact fun task' hat => hwriter ((hwrap task' false).mp hat).2.symm

/-- A pointer that was checked for the end is where it was. -/
theorem Ring.wrapped (h : Ring dev block n q) {isRead : Bool}
    (hreader : isRead = true → dev.wp < n) (hwriter : isRead = false → dev.rp < n) :
    ∃ dev', (if isRead then { dev with rp := dev.wrapped dev.rp }
        else { dev with wp := dev.wrapped dev.wp }) = dev' ∧
      Keeps dev dev' block ∧ Ring dev' block n q ∧ dev'.rp < n ∧ dev'.wp < n := by
  have haddr : dev.buffer.toList.map Block.addr = [block.addr] := by
    rw [h.buffer]
    rfl
  cases isRead with
  | true =>
      have hlt := wrap_lt h.pos h.rp
      rw [wrapped_eq h.toPointers dev.rp]
      refine ⟨_, if_pos rfl, ⟨rfl, rfl, h.buffer, haddr⟩, ⟨⟨h.pos, h.lt, h.buffersize, h.capacity,
        hlt.le, h.wp, ?_⟩, h.buffer, h.le, ?_⟩, hlt, hreader rfl⟩
      · dsimp only
        rw [wrap_wrap]
        exact h.length
      · dsimp only
        rw [wrap_wrap]
        exact h.queue
  | false =>
      have hlt := wrap_lt h.pos h.wp
      rw [wrapped_eq h.toPointers dev.wp]
      refine ⟨_, if_neg nofun, ⟨rfl, rfl, h.buffer, haddr⟩, ⟨⟨h.pos, h.lt, h.buffersize, h.capacity,
        h.rp, hlt.le, ?_⟩, h.buffer, h.le, ?_⟩, hwriter rfl, hlt⟩
      · dsimp only
        rw [wrap_wrap]
        exact h.length
      · dsimp only
        rw [wrap_wrap]
        exact h.queue

/-- **The semaphore is given back**, and nobody has it. -/
theorem Piped.giveBack (h : Piped s q) (hc : s.tasks[task]? = some (some c))
    (hstage : c.stage = .wrap) :
    Piped { s.setTask task (some { c with stage := .wake }) with
      dev := if c.op.isRead then { s.dev with rp := s.dev.wrapped s.dev.rp }
        else { s.dev with wp := s.dev.wrapped s.dev.wp }
      sem := none } q := by
  obtain ⟨n, block, hring, hsettled⟩ := h.exists_ring hc
  have hat : AtWrap s.tasks task c.op.isRead := ⟨c, hc, hstage, rfl⟩
  obtain ⟨dev, hdev, hkeeps, hring', hrp, hwp⟩ :=
    hring.wrapped (fun hread => hsettled.reader task (hread ▸ hat))
      fun hwrite => hsettled.writer task (hwrite ▸ hat)
  have hnot : ∀ task' isRead,
      ¬AtWrap (s.tasks.set task (some { c with stage := .wake })) task' isRead := by
    rintro task' isRead ⟨c', hc', hwrap, hread⟩
    rw [Agents.getElem?_set hc] at hc'
    split at hc'
    · rw [← Option.some.inj (Option.some.inj hc')] at hwrap
      cases hwrap
    · rename_i hne
      have hhas := (h.sem task').mpr ⟨isRead, c', hc', hwrap, hread⟩
      rw [(h.sem task).mpr ⟨_, hat⟩] at hhas
      exact hne (Option.some.inj hhas).symm
  rw [hdev]
  exact h.transfer hc hkeeps hring' (fun task' => iff_of_false nofun fun ⟨isRead, hw⟩ =>
    hnot task' isRead hw) ⟨fun _ => ⟨hrp, hwp⟩, fun _ _ => hwp, fun _ _ => hrp⟩

theorem wakeUp_eq (readers : Bool) (c : PipeCall) :
    (c.wakeUp readers).file = c.file ∧ (c.wakeUp readers).op = c.op ∧
      ((c.wakeUp readers).stage = .wrap ↔ c.stage = .wrap) := by
  obtain ⟨f, op, stage⟩ := c
  rw [PipeCall.wakeUp]
  split
  · cases stage <;> simp
  · exact ⟨rfl, rfl, .rfl⟩

/-- **Who waits is woken.** -/
theorem Piped.wakeUp (h : Piped s q) (readers : Bool) :
    Piped { s with tasks := s.tasks.map (Option.map (PipeCall.wakeUp readers)) } q := by
  have hget : ∀ (task : ℕ) (c' : PipeCall),
      (s.tasks.map (Option.map (PipeCall.wakeUp readers)))[task]? = some (some c') ↔
        ∃ c, s.tasks[task]? = some (some c) ∧ c.wakeUp readers = c' := fun task c' => by
    rw [List.getElem?_map, Option.map_eq_some_iff]
    refine ⟨?_, fun ⟨c, hc, heq⟩ => ⟨some c, hc, congrArg some heq⟩⟩
    rintro ⟨old, hold, heq⟩
    obtain ⟨c, rfl, hc⟩ := Option.map_eq_some_iff.mp heq
    exact ⟨c, hold, hc⟩
  refine h.tasks (fun task c' hc' => ?_) fun task isRead => ⟨?_, ?_⟩
  · obtain ⟨c, hc, rfl⟩ := (hget task c').mp hc'
    obtain ⟨hfile, hop, -⟩ := wakeUp_eq readers c
    rw [hfile, hop]
    exact h.calls task c hc
  · rintro ⟨c', hc', hwrap, hread⟩
    obtain ⟨c, hc, rfl⟩ := (hget task c').mp hc'
    obtain ⟨-, hop, hstage⟩ := wakeUp_eq readers c
    exact ⟨c, hc, hstage.mp hwrap, hop ▸ hread⟩
  · rintro ⟨c, hc, hwrap, hread⟩
    obtain ⟨-, hop, hstage⟩ := wakeUp_eq readers c
    exact ⟨_, (hget task _).mpr ⟨c, hc, rfl⟩, hstage.mpr hwrap, hop.symm ▸ hread⟩

/-- **A task gets the semaphore.** -/
theorem Piped.atLock (h : Piped s q) (hc : s.tasks[task]? = some (some c))
    (hstage : c.stage = .lock) (hsem : s.sem = none) (nonblock : Bool)
    (fault : Option (List UInt8)) : Moves s (s.atLock task c nonblock fault) q := by
  obtain ⟨n, block, hring, hsettled⟩ := h.exists_ring hc
  obtain ⟨hrp, hwp⟩ := hsettled.free hsem
  have hnotwrap : ∀ c', some c = some c' → c'.stage ≠ .wrap := fun c' hc' => by
    rw [← Option.some.inj hc', hstage]
    nofun
  have hgone : Piped (s.setTask task none) q := h.setTask hc hnotwrap nofun
  have haddr : ∀ block' : Block (List Cell), block'.addr = block.addr →
      s.dev.buffer.toList.map Block.addr = [block'.addr] := fun block' haddr => by
    rw [hring.buffer, haddr]
    rfl
  have hwait : Piped (s.setTask task (some { c with stage := .enqueue })) q :=
    h.setTask hc hnotwrap fun c' hc' => by
      rw [← Option.some.inj hc']
      exact ⟨nofun, h.calls task c hc⟩
  obtain ⟨f, op, stage⟩ := c
  obtain ⟨capacity, queue⟩ := q
  cases op with
  | read count =>
      rw [PipeSystem.atLock]
      rcases readAtLock_spec hring hrp hwp count fault.isSome with
        ⟨hwaits, hempty⟩ | hfault | ⟨bytes, rest, hqueue, hne, hle, hpos, hdone, hring'⟩
      · dsimp only
        rw [hwaits]
        dsimp only
        split
        · cases hempty
          exact .single (hgone.log _) rfl .readAgain
        · exact .quiet hwait rfl
      · dsimp only
        rw [hfault]
        exact .quiet hgone rfl
      · have hkeeps : Keeps s.dev { s.dev with rp := s.dev.rp + bytes.length } block :=
          ⟨rfl, rfl, hring'.buffer, haddr block rfl⟩
        have hmove := h.move hc hsem hkeeps hring' (fun _ => hwp) nofun
        dsimp only
        rw [hdone]
        obtain rfl : queue = bytes ++ rest := hqueue
        exact .single (hmove.log _) rfl (.read hne hle hpos)
  | write buf =>
      rw [PipeSystem.atLock]
      rcases writeAtLock_spec hring hrp hwp buf fault with
        ⟨hwaits, hfull⟩ | ⟨block', hblock', hfault, hring'⟩ |
          ⟨bytes, block', hblock', hpre, hpos, hfits, hdone, hring'⟩
      · dsimp only
        rw [hwaits]
        dsimp only
        split
        · obtain rfl : queue.length = capacity := hfull
          exact .single (hgone.log _) rfl .writeAgain
        · exact .quiet hwait rfl
      · have hkeeps : Keeps s.dev { s.dev with buffer := some block' } block' :=
          ⟨rfl, rfl, rfl, haddr block' hblock'⟩
        dsimp only
        rw [hfault]
        exact .quiet (Piped.setDev hgone hkeeps hring' hrp hwp) rfl
      · have hkeeps : Keeps s.dev
            { s.dev with buffer := some block', wp := s.dev.wp + bytes.length } block' :=
          ⟨rfl, rfl, rfl, haddr block' hblock'⟩
        have hmove := h.move hc hsem hkeeps hring' nofun fun _ => hrp
        dsimp only
        rw [hdone]
        exact .single (hmove.log _) rfl (.write hpre hpos hfits)

/-- **A step of a call.** -/
theorem Piped.stepCall (h : Piped s q) (hc : s.tasks[task]? = some (some c)) {nonblock : Bool}
    {fault : Option (List UInt8)} (hstep : s.stepCall task c nonblock fault = some s') :
    Moves s s' q := by
  have hgoes : ∀ stage, c.stage ≠ .wrap → stage ≠ .wrap →
      Piped (s.setTask task (some { c with stage := stage })) q := fun stage hold hnew =>
    h.setTask hc (fun c' hc' => Option.some.inj hc' ▸ hold) fun c' hc' => by
      rw [← Option.some.inj hc']
      exact ⟨hnew, h.calls task c hc⟩
  obtain ⟨f, op, stage⟩ := c
  cases stage with
  | lock =>
      rw [PipeSystem.stepCall] at hstep
      dsimp only at hstep
      split at hstep
      · cases hstep
      · rename_i hsem
        cases hstep
        exact h.atLock hc rfl (Option.not_isSome_iff_eq_none.mp hsem) nonblock fault
  | wrap =>
      cases hstep
      exact .quiet (h.giveBack hc rfl) rfl
  | wake =>
      cases hstep
      have hnot : ∀ c', some (⟨f, op, .wake⟩ : PipeCall) = some c' → c'.stage ≠ .wrap :=
        fun c' hc' => by
          rw [← Option.some.inj hc']
          nofun
      have hgone : Piped (s.setTask task none) q := h.setTask hc hnot nofun
      exact .quiet (hgone.wakeUp _) rfl
  | enqueue =>
      cases hstep
      exact .quiet (hgoes _ nofun nofun) rfl
  | test woken =>
      rw [PipeSystem.stepCall] at hstep
      dsimp only at hstep
      split at hstep
      · cases hstep
        exact .quiet (hgoes .lock nofun nofun) rfl
      · cases hstep
        exact .quiet (hgoes (.sleep woken) nofun nofun) rfl
  | sleep woken =>
      rw [PipeSystem.stepCall] at hstep
      dsimp only at hstep
      split at hstep
      · cases hstep
        exact .quiet (hgoes _ nofun (by split <;> nofun)) rfl
      · cases hstep

/-! ### The files

`scull_p_open` sets the size of the buffer and empties it, also while other files are open, and
the last `scull_p_release` frees the buffer.  What is needed of the files is that the two counters
agree with their modes, by which a device with an open file has a buffer. -/

theorem modes_concat (mode : PipeFile → Bool) (files : List (Option PipeFile)) (file : PipeFile) :
    modes mode (files ++ [some file]) = modes mode files + if mode file then 1 else 0 :=
  Agents.countP_concat files (some file) _

theorem modes_set (mode : PipeFile → Bool) {files : List (Option PipeFile)} {f : ℕ}
    {file : PipeFile} (h : files[f]? = some (some file)) :
    modes mode (files.set f none) + (if mode file then 1 else 0) = modes mode files :=
  Agents.countP_set h none (Option.any mode)

/-- **`scull_p_open`** leaves an empty queue. -/
theorem scullPOpen_spec {size : ℤ} {file : PipeFile} {m m' : Slab} {dev' : ScullPipe}
    (hpos : 0 < size) (hlt : size < 2 ^ 31)
    (hroom : ∀ block ∈ dev.buffer, size ≤ block.val.length)
    (haccounted : Ledger.Accounted (dev.buffer.toList.map Block.addr) m.ledger)
    (hopen : scullPOpen size dev file m = some (dev', m')) :
    ∃ block, Ring dev' block size.toNat ⟨size.toNat - 1, []⟩ ∧ dev'.rp = 0 ∧ dev'.wp = 0 ∧
      Ledger.Accounted (dev'.buffer.toList.map Block.addr) m'.ledger ∧
      dev'.nreaders = dev.nreaders + (if file.fmodeRead then 1 else 0) ∧
      dev'.nwriters = dev.nwriters + if file.fmodeWrite then 1 else 0 := by
  obtain ⟨⟨block, m''⟩, hbuffer, hdev⟩ := Option.map_eq_some_iff.mp hopen
  obtain ⟨rfl, rfl⟩ := Prod.mk.inj hdev
  have hblock : size ≤ block.val.length ∧ Ledger.Accounted [block.addr] m''.ledger := by
    cases hold : dev.buffer with
    | some old =>
        rw [hold] at hbuffer haccounted
        cases hbuffer
        exact ⟨hroom _ hold, haccounted⟩
    | none =>
        rw [hold] at hbuffer haccounted
        obtain ⟨⟨addr, mem⟩, halloc, heq⟩ := Option.map_eq_some_iff.mp hbuffer
        cases heq
        rw [Slab.kmalloc, if_neg (by omega)] at halloc
        split at halloc
        · cases halloc
        · cases halloc
          refine ⟨?_, haccounted.alloc⟩
          rw [List.length_replicate]
          omega
  have hwrap : CircularBuffer.wrap size.toNat 0 = 0 := wrap_of_lt (by omega)
  have hsize : size = (size.toNat : ℕ) := (Int.toNat_of_nonneg hpos.le).symm
  refine ⟨block, ⟨⟨by omega, by omega, hsize, rfl, Nat.zero_le _, Nat.zero_le _, ?_⟩, rfl, by omega,
    ?_⟩, rfl, rfl, hblock.2, ?_, ?_⟩
  · dsimp only
    rw [hwrap, free, if_pos le_rfl, List.length_nil]
    omega
  · dsimp only
    rw [hwrap, contents_self]
  · dsimp only
    split <;> simp
  · dsimp only
    split <;> simp

/-- **A file is opened.** -/
theorem Piped.openFile (h : Piped s q) {file : PipeFile} {room : ℕ}
    (hok : Roomy s (.openFile file room)) {dev : ScullPipe} {m : Slab}
    (hopen : scullPOpen s.params.scullPBuffer s.dev file ⟨s.ledger, room⟩ = some (dev, m)) :
    Moves s ({ s with dev := dev, ledger := m.ledger, files := s.files ++ [some file] }.log
      (.opened s.params.scullPBuffer)) q := by
  obtain ⟨hpos, hlt, hblock⟩ := hok
  obtain ⟨block, hring, hrp, hwp, haccounted, hreaders, hwriters⟩ :=
    scullPOpen_spec hpos hlt hblock h.accounted hopen
  have hsize : s.params.scullPBuffer = (s.params.scullPBuffer.toNat : ℕ) :=
    (Int.toNat_of_nonneg hpos.le).symm
  have hanswer : FifoAnswers q (.opened s.params.scullPBuffer)
      ⟨s.params.scullPBuffer.toNat - 1, []⟩ := by
    rw [hsize]
    exact .opened
  refine .single ⟨h.alive, haccounted, ?_, ?_,
    .inr ?_, fun hclosed => ?_, fun task c hc => ?_, h.sem, fun _ => ⟨_, hring.toPointers,
    ⟨fun _ => ?_, fun _ _ => ?_, fun _ _ => ?_⟩, fun block' hblock' => ?_⟩⟩ rfl hanswer
  · dsimp only [PipeSystem.log]
    rw [hreaders, modes_concat, h.nreaders, Nat.cast_add, Nat.cast_ite, Nat.cast_one, Nat.cast_zero]
  · dsimp only [PipeSystem.log]
    rw [hwriters, modes_concat, h.nwriters, Nat.cast_add, Nat.cast_ite, Nat.cast_one, Nat.cast_zero]
  · dsimp only [PipeSystem.log]
    rw [hring.buffer]
    exact Option.some_ne_none _
  · cases hclosed _ (List.mem_append_right _ (List.mem_singleton_self _))
  · obtain ⟨old, hold, hallows⟩ := h.calls task c hc
    exact ⟨old, (List.getElem?_append_left (Agents.lt_length hold)).trans hold, hallows⟩
  · exact ⟨hrp.trans_lt hring.pos, hwp.trans_lt hring.pos⟩
  · exact hwp.trans_lt hring.pos
  · exact hrp.trans_lt hring.pos
  · obtain rfl : block = block' := Option.some.inj (hring.buffer.symm.trans hblock')
    exact hring

/-- **`scull_p_release`** frees the buffer if nobody has a mode. -/
theorem scullPRelease_spec {file : PipeFile} {m : Slab} {dev' : ScullPipe} {m' : Slab}
    (hrelease : scullPRelease dev file m = (dev', m'))
    (haccounted : Ledger.Accounted (dev.buffer.toList.map Block.addr) m.ledger) :
    (dev'.buffersize = dev.buffersize ∧ dev'.rp = dev.rp ∧ dev'.wp = dev.wp) ∧
      Ledger.Accounted (dev'.buffer.toList.map Block.addr) m'.ledger ∧
      dev.nreaders = dev'.nreaders + (if file.fmodeRead then 1 else 0) ∧
      dev.nwriters = dev'.nwriters + (if file.fmodeWrite then 1 else 0) ∧
      dev'.buffer = if dev'.nreaders + dev'.nwriters = 0 then none else dev.buffer := by
  have hcounts : ∀ (x : ℤ) (b : Bool), x = (if b then x - 1 else x) + if b then 1 else 0 :=
    fun x b => by split <;> omega
  have hreaders := hcounts dev.nreaders file.fmodeRead
  have hwriters := hcounts dev.nwriters file.fmodeWrite
  rw [scullPRelease] at hrelease
  generalize (if file.fmodeRead then dev.nreaders - 1 else dev.nreaders) = r at *
  generalize (if file.fmodeWrite then dev.nwriters - 1 else dev.nwriters) = w at *
  by_cases hzero : r + w = 0
  · dsimp only at hrelease
    rw [if_pos hzero] at hrelease
    obtain ⟨rfl, rfl⟩ := Prod.mk.inj hrelease
    refine ⟨⟨rfl, rfl, rfl⟩, ?_, hreaders, hwriters, (if_pos hzero).symm⟩
    cases hbuffer : dev.buffer with
    | none =>
        rw [hbuffer] at haccounted
        exact haccounted
    | some block =>
        rw [hbuffer] at haccounted
        exact haccounted.free
  · dsimp only at hrelease
    rw [if_neg hzero] at hrelease
    obtain ⟨rfl, rfl⟩ := Prod.mk.inj hrelease
    exact ⟨⟨rfl, rfl, rfl⟩, haccounted, hreaders, hwriters, (if_neg hzero).symm⟩

/-- **A file is closed.** -/
theorem Piped.release (h : Piped s q) {f : ℕ} {file : PipeFile}
    (hfile : s.files[f]? = some (some file)) (hidle : ¬∃ c ∈ s.tasks, c.map PipeCall.file = some f)
    {dev : ScullPipe} {m : Slab} (hrelease : scullPRelease s.dev file ⟨s.ledger, 0⟩ = (dev, m)) :
    Piped { s with dev := dev, ledger := m.ledger, files := s.files.set f none } q := by
  obtain ⟨⟨hsize, hrp, hwp⟩, haccounted, hreaders, hwriters, hbuffer⟩ :=
    scullPRelease_spec hrelease h.accounted
  have hnreaders : dev.nreaders = modes PipeFile.fmodeRead (s.files.set f none) := by
    have hset := modes_set PipeFile.fmodeRead hfile
    have hold := h.nreaders
    rw [← hset, Nat.cast_add, Nat.cast_ite, Nat.cast_one, Nat.cast_zero, hreaders] at hold
    exact add_right_cancel hold
  have hnwriters : dev.nwriters = modes PipeFile.fmodeWrite (s.files.set f none) := by
    have hset := modes_set PipeFile.fmodeWrite hfile
    have hold := h.nwriters
    rw [← hset, Nat.cast_add, Nat.cast_ite, Nat.cast_one, Nat.cast_zero, hwriters] at hold
    exact add_right_cancel hold
  obtain ⟨n, hpointers, hsettled, hring⟩ := h.ring ⟨file, List.mem_of_getElem? hfile⟩
  refine ⟨h.alive, haccounted, hnreaders, hnwriters, ?_, fun hclosed => ?_, fun task c hc => ?_,
    h.sem, fun _ => ⟨n, ⟨hpointers.pos, hpointers.lt, hsize.trans hpointers.buffersize,
      hpointers.capacity, hrp.trans_le hpointers.rp, hwp.trans_le hpointers.wp, ?_⟩,
      ⟨fun hnone => ?_, fun task hat => ?_, fun task hat => ?_⟩, fun block hblock => ?_⟩⟩
  · refine or_iff_not_imp_left.mpr fun hzero => ?_
    dsimp only at hzero ⊢
    rw [hbuffer, if_neg hzero]
    refine h.buffer.resolve_left fun hold => hzero ?_
    have hmode : ∀ b : Bool, (0 : ℤ) ≤ if b then 1 else 0 := fun b => by cases b <;> decide
    have hread := hmode file.fmodeRead
    have hwrite := hmode file.fmodeWrite
    omega
  · have hnobody : ∀ mode, modes mode (s.files.set f none) = 0 := fun mode =>
      List.countP_eq_zero.mpr fun x hx => by
        rw [hclosed x hx]
        exact Bool.false_ne_true
    dsimp only
    rw [hbuffer, if_pos]
    rw [hnreaders, hnwriters, hnobody, hnobody]
    rfl
  · obtain ⟨old, hold, hallows⟩ := h.calls task c hc
    refine ⟨old, ?_, hallows⟩
    dsimp only
    rw [Agents.getElem?_set hfile, if_neg, hold]
    rintro rfl
    exact hidle ⟨some c, List.mem_of_getElem? hc, rfl⟩
  · rw [hrp, hwp]
    exact hpointers.length
  · rw [hrp, hwp]
    exact hsettled.free hnone
  · rw [hwp]
    exact hsettled.reader task hat
  · rw [hrp]
    exact hsettled.writer task hat
  · dsimp only at hblock
    rw [hbuffer] at hblock
    split at hblock
    · cases hblock
    · have hold := hring block hblock
      refine ⟨⟨hpointers.pos, hpointers.lt, hsize.trans hpointers.buffersize,
        hpointers.capacity, hrp.trans_le hpointers.rp, hwp.trans_le hpointers.wp, ?_⟩, ?_, hold.le,
        ?_⟩
      · rw [hrp, hwp]
        exact hpointers.length
      · dsimp only
        rw [hbuffer, if_neg ‹_›]
        exact hold.buffer
      · rw [hrp, hwp]
        exact hold.queue

/-! ### All steps

The step lemma puts the tasks and the files together: a step of the system adds to the history of
the queue what the call returns, if one returns, and keeps the invariant.  Over a run the
histories are put one behind the other. -/

/-- **The step lemma.** -/
theorem Piped.next (h : Piped s q) {a : PipeAction} (hok : Roomy s a)
    (hstep : nextPipe a s = some s') : Moves s s' q := by
  rw [nextPipe, h.alive, if_neg Bool.false_ne_true] at hstep
  cases a with
  | ioctl caller cmd arg =>
      cases hstep
      exact .quiet (h.congr rfl rfl rfl rfl rfl rfl) rfl
  | openFile file room =>
      rw [PipeSystem.act] at hstep
      split at hstep
      · cases hstep
      · rename_i hsem
        split at hstep
        · cases hstep
          exact .quiet h rfl
        · rename_i dev m hopen
          cases hstep
          exact h.openFile hok hopen
  | release f =>
      rw [PipeSystem.act] at hstep
      split at hstep
      · rename_i file hfile
        split at hstep
        · cases hstep
        · rename_i hfree
          obtain ⟨-, hidle⟩ := not_or.mp hfree
          cases hstep
          exact .quiet (h.release hfile hidle rfl) rfl
      · cases hstep
  | poll f =>
      rw [PipeSystem.act] at hstep
      split at hstep
      · rename_i file hfile
        split at hstep
        · cases hstep
        · rename_i hsem
          cases hstep
          obtain ⟨n, hpointers, hsettled, -⟩ := h.ring ⟨file, List.mem_of_getElem? hfile⟩
          obtain ⟨hrp, hwp⟩ := hsettled.free (Option.not_isSome_iff_eq_none.mp hsem)
          refine .single (h.log _) rfl ?_
          have hread : decide (s.dev.rp ≠ s.dev.wp) = decide (q.queue ≠ []) :=
            decide_eq_decide.mpr (not_congr (empty_iff hpointers hrp hwp)).symm
          have hwrite : decide (spacefree s.dev ≠ 0) = decide (q.queue.length < q.capacity) :=
            decide_eq_decide.mpr (full_iff hpointers hrp hwp).symm
          rw [hread, hwrite]
          exact .poll
      · cases hstep
  | call task f op =>
      rw [PipeSystem.act] at hstep
      split at hstep
      · rename_i file hfile htask
        split at hstep
        · rename_i hallows
          cases hstep
          refine .quiet (h.setTask htask nofun fun c hc => ?_) rfl
          rw [← Option.some.inj hc]
          exact ⟨nofun, file, hfile, hallows⟩
        · cases hstep
      · cases hstep
  | step task fault =>
      rw [PipeSystem.act] at hstep
      split at hstep
      · rename_i c hc
        split at hstep
        · exact h.stepCall hc hstep
        · cases hstep
      · cases hstep
  | signal task =>
      rw [PipeSystem.act] at hstep
      split at hstep
      · rename_i c hc
        split at hstep
        · rename_i hwaits
          cases hstep
          refine .quiet (h.setTask hc (fun c' hc' hstage => ?_) nofun) rfl
          rw [Option.some.inj hc', hstage] at hwaits
          cases hwaits
        · cases hstep
      · cases hstep

theorem exists_piped {params : Params} {tasks : ℕ}
    (h : (pipeSystem params tasks).ReachableWhile Roomy s) :
    ∃ q, History FifoAnswers ⟨0, []⟩ s.events q ∧ Piped s q := by
  refine StepSystem.ReachableWhile.invariant
    (I := fun s => ∃ q, History FifoAnswers ⟨0, []⟩ s.events q ∧ Piped s q)
    (fun s hs => ?_) (fun s a s' ⟨q, hhistory, hpiped⟩ hok hstep => ?_) h
  · rw [show s = _ from hs]
    exact ⟨_, .nil, piped_start params tasks⟩
  · obtain ⟨more, q', hevents, hmore, hpiped'⟩ := hpiped.next hok hstep
    rw [hevents]
    exact ⟨q', hhistory.append hmore, hpiped'⟩

/-- **The device is a queue**, in every interleaving of the tasks: no call goes past the buffer,
what the calls return is what a queue with the capacity of the last `open` would answer, and the
buffer holds that queue.  The buffer is neither lost nor freed twice, and goes with the last
file. -/
theorem pipe_isFifo {params : Params} {tasks : ℕ}
    (h : (pipeSystem params tasks).ReachableWhile Roomy s) :
    s.oops = false ∧
      (∃ q, History FifoAnswers ⟨0, []⟩ s.events q ∧ ∀ block, s.dev.buffer = some block →
        q.queue = contents block.val s.dev.buffersize.toNat (s.dev.wrapped s.dev.rp)
          (s.dev.wrapped s.dev.wp)) ∧
      (s.dev.buffer.toList.map Block.addr ++ s.ledger.freed).Perm
        (List.range s.ledger.allocated) ∧
      ((∀ f ∈ s.files, f = none) → s.dev.buffer = none) := by
  obtain ⟨q, hhistory, hpiped⟩ := exists_piped h
  refine ⟨hpiped.alive, ⟨q, hhistory, fun block hblock => ?_⟩, hpiped.accounted, hpiped.closed⟩
  have hopen : ∃ file, some file ∈ s.files := by
    by_contra hnone
    have hclosed := hpiped.closed fun f hf => Option.eq_none_iff_forall_ne_some.mpr
      fun file hfile => hnone ⟨file, hfile ▸ hf⟩
    rw [hblock] at hclosed
    cases hclosed
  obtain ⟨n, hpointers, -, hring⟩ := hpiped.ring hopen
  rw [wrapped_eq hpointers, wrapped_eq hpointers, hpointers.buffersize, Int.toNat_natCast]
  exact (hring block hblock).queue

instance (s : PipeSystem) : (a : PipeAction) → Decidable (Roomy s a)
  | .openFile _ _ => inferInstanceAs (Decidable (_ ∧ _ ∧ _))
  | .ioctl _ _ _ => .isTrue trivial
  | .release _ => .isTrue trivial
  | .poll _ => .isTrue trivial
  | .call _ _ _ => .isTrue trivial
  | .step _ _ => .isTrue trivial
  | .signal _ => .isTrue trivial

/-- A reader sleeps until a writer has filled the buffer, and reads in two pieces; the file is
closed. -/
def pipeRun : List PipeAction :=
  let steps (task n : ℕ) : List PipeAction := List.replicate n (.step task none)
  [.openFile ⟨true, true, false⟩ 1, .call 1 0 (.read 2)] ++ steps 1 3 ++
    [.call 0 0 (.write [1, 2, 3, 4])] ++ steps 0 3 ++ steps 1 6 ++
    [.call 0 0 (.write [5, 6])] ++ steps 0 3 ++ [.call 1 0 (.read 9)] ++ steps 1 3 ++ [.poll 0]

theorem pipeRun_eq :
    (pipeRun.foldlM (fun s a => if Roomy s a then nextPipe a s else none)
      (.start ⟨4000, 1000, 4⟩ 2)).map PipeSystem.events =
    some [.opened 4, .write [1, 2, 3, 4] [some 1, some 2, some 3], .read 2 [some 1, some 2],
      .write [5, 6] [some 5], .read 9 [some 3, some 5], .poll false true] := by
  decide +kernel

theorem pipe_isFifo_run : ∃ s, (pipeSystem ⟨4000, 1000, 4⟩ 2).ReachableWhile Roomy s ∧
    s.events.length = 6 ∧ s.oops = false ∧
    (∃ q, History FifoAnswers ⟨0, []⟩ s.events q ∧ ∀ block, s.dev.buffer = some block →
      q.queue = contents block.val s.dev.buffersize.toNat (s.dev.wrapped s.dev.rp)
        (s.dev.wrapped s.dev.wp)) ∧
    (s.dev.buffer.toList.map Block.addr ++ s.ledger.freed).Perm
      (List.range s.ledger.allocated) ∧
    ((∀ f ∈ s.files, f = none) → s.dev.buffer = none) := by
  obtain ⟨s, hrun, hs⟩ := Option.map_eq_some_iff.mp pipeRun_eq
  have hreach : (pipeSystem ⟨4000, 1000, 4⟩ 2).ReachableWhile Roomy s := by
    refine StepSystem.ReachableWhile.foldlM (.init rfl) _ (fun a _ t t' hnext => ?_) hrun
    split at hnext
    · rename_i hok
      exact ⟨hok, hnext⟩
    · cases hnext
  exact ⟨s, hreach, by rw [hs]; rfl, pipe_isFifo hreach⟩

end LinuxProgram.Kernel.Scull
