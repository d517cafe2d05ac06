import LinuxProgram.Lib.CircularBuffer
import LinuxProgram.Lib.StepSystem

/-!
# The output of shortprint

`shortprint.c`: `shortp_write` puts bytes into a page that is used as a circular buffer, and
`shortp_do_work` strobes them out to a printer, one for each interrupt.

* `shortpOutSpace`, `shortpIncrOutBp` — the arithmetic of the buffer.
* `Short` — the buffer, and the call that has `shortp_out_mutex`.  Others wait for it in front of
  `shortp_write`, and are not seen.
* `nextShort`, `shortSystem` — the writers, the interrupts and the work queue in any order.
* `shortp_fifo` — what is printed is what the calls have taken, one call after the other.
* `shortp_noStall` — bytes in the buffer are being printed, or will be.

`PAGE_SIZE` is a parameter.
-/

namespace LinuxProgram.Kernel.Shortprint

open Lib CircularBuffer

/-- **`shortp_out_space`**: how much can be put without a wrap. -/
def shortpOutSpace (pageSize head tail : ℕ) : ℤ :=
  if head ≥ tail then
    let space : ℤ := pageSize - head
    if tail = 0 then space - 1 else space
  else tail - head - 1

/-- **`shortp_incr_out_bp`**, which moves a pointer on and back to the start where it has come to
the end of the page. -/
def shortpIncrOutBp (pageSize bp incr : ℕ) : ℕ :=
  if bp + incr ≥ pageSize then bp + incr - pageSize else bp + incr

/-- **Where `shortp_write` is** in its loop. -/
inductive WriteStage
  /-- It is to see how much space there is. -/
  | space
  /-- It is to move data into the buffer.  There may be more space by now. -/
  | copy (space : ℕ)
  /-- It has moved `shortp_out_head`, and is to start the output. -/
  | start
  deriving DecidableEq, Repr

/-- **The call that has the mutex.** -/
structure Writer where
  buf : List UInt8
  written : ℕ
  stage : WriteStage
  deriving DecidableEq, Repr

structure Short where
  buffer : List UInt8
  shortpOutHead : ℕ
  shortpOutTail : ℕ
  shortpOutputActive : Bool
  /-- `shortp_work` is in the queue. -/
  shortpWork : Bool
  writer : Option Writer
  /-- what the printer has got -/
  printed : List UInt8
  /-- the calls that are over, with what they had and how much of it they have put -/
  calls : List (List UInt8 × ℕ)
  deriving DecidableEq, Repr

def Short.init (buffer : List UInt8) : Short := ⟨buffer, 0, 0, false, false, none, [], []⟩

/-- The call ends, and gives back the mutex. -/
def Short.out (s : Short) (w : Writer) : Short :=
  { s with writer := none, calls := s.calls ++ [(w.buf, w.written)] }

/-- Data is moved into the buffer.  If `copy_from_user` fails, `fault` is what it has copied. -/
def Short.put (pageSize : ℕ) (s : Short) (w : Writer) (space : ℕ) (fault : Option (List UInt8)) :
    Short :=
  let space := if space + w.written > w.buf.length then w.buf.length - w.written else space
  match fault with
  | some copied =>
      { s with buffer := patch s.buffer s.shortpOutHead (copied.take space) }.out w
  | none =>
      { s with
        buffer := patch s.buffer s.shortpOutHead ((w.buf.drop w.written).take space)
        shortpOutHead := shortpIncrOutBp pageSize s.shortpOutHead space
        writer := some ⟨w.buf, w.written + space, .start⟩ }

/-- **A step of the call**; `none` while it waits for space. -/
def Short.write (pageSize : ℕ) (s : Short) (w : Writer) (fault : Option (List UInt8)) :
    Option Short :=
  match w.stage with
  | .space =>
      if w.written < w.buf.length then
        let space := shortpOutSpace pageSize s.shortpOutHead s.shortpOutTail
        if space ≤ 0 then none
        else some { s with writer := some { w with stage := .copy space.toNat } }
      else some (s.out w)
  | .copy space => some (s.put pageSize w space fault)
  | .start =>
      -- `shortp_start_output`, with the lock
      some { s with
        shortpOutputActive := true
        shortpWork := s.shortpWork || !s.shortpOutputActive
        writer := some { w with stage := .space } }

/-- **`shortp_do_work`**, with the lock. -/
def Short.doWork (pageSize : ℕ) (s : Short) : Short :=
  if s.shortpOutHead = s.shortpOutTail then { s with shortpOutputActive := false }
  else { s with
    printed := s.printed ++ s.buffer[s.shortpOutTail]?.toList
    shortpOutTail := shortpIncrOutBp pageSize s.shortpOutTail 1 }

inductive ShortAction
  /-- `shortp_write` is called, and gets the mutex. -/
  | call (buf : List UInt8)
  | step (fault : Option (List UInt8))
  /-- A signal comes while the call waits for space. -/
  | signal
  | interrupt
  | work

def nextShort (pageSize : ℕ) : ShortAction → Short → Option Short
  | .call buf, s =>
      match s.writer with
      | none => some { s with writer := some ⟨buf, 0, .space⟩ }
      | some _ => none
  | .step fault, s => s.writer.bind fun w => s.write pageSize w fault
  | .signal, s =>
      match s.writer with
      | some w =>
          if w.stage = .space ∧ w.written < w.buf.length ∧
              shortpOutSpace pageSize s.shortpOutHead s.shortpOutTail ≤ 0 then some (s.out w)
          else none
      | none => none
  | .interrupt, s =>
      if s.shortpOutputActive then some { s with shortpWork := true } else some s
  | .work, s =>
      if s.shortpWork then some ({ s with shortpWork := false }.doWork pageSize) else none

def shortSystem (pageSize : ℕ) (buffer : List UInt8) : StepSystem Short ShortAction :=
  .ofFun (.init buffer) (nextShort pageSize)

/-! ### The buffer -/

variable {pageSize head tail space : ℕ} {s s' : Short} {w : Writer}

theorem shortpOutSpace_eq (hhead : head < pageSize) :
    shortpOutSpace pageSize head tail = (putRoom pageSize tail head : ℕ) := by
  rw [shortpOutSpace, putRoom]
  by_cases hle : tail ≤ head
  · have hfree : free pageSize tail head = pageSize - 1 - (head - tail) := if_pos hle
    rw [if_pos hle, if_pos hle, hfree]
    dsimp only
    split <;> omega
  · have hfree : free pageSize tail head = tail - head - 1 := if_neg hle
    rw [if_neg hle, if_neg hle, hfree]
    omega

theorem shortpIncrOutBp_eq (h : head + space ≤ pageSize) :
    shortpIncrOutBp pageSize head space = wrap pageSize (head + space) := by
  rw [shortpIncrOutBp, wrap]
  split <;> split <;> omega

/-- What is put does not go past the end. -/
theorem putRoom_le (hhead : head < pageSize) (htail : tail < pageSize) :
    head + putRoom pageSize tail head ≤ pageSize := by
  rw [putRoom]
  split <;> omega

/-! ### The invariant

What was printed, and what is between `shortp_out_tail` and `shortp_out_head`, are together what
the calls have moved into the page so far.  The space that a call has seen can only have grown
since, because interrupts take bytes away and other calls wait for the mutex.  The second half of
the invariant is about the output: it may be off with bytes in the page only where the call that
has put them is about to start it. -/

/-- What a call has put into the buffer. -/
def Writer.taken (w : Writer) : List UInt8 := w.buf.take w.written

/-- **What the calls have put into the buffer**, one after the other. -/
def Short.taken (s : Short) : List UInt8 :=
  s.calls.flatMap (fun c => c.1.take c.2) ++ (s.writer.map Writer.taken).getD []

/-- What is in the buffer: the bytes from the tail to the head, which were taken from a call and are
not printed yet. -/
def Short.waiting (pageSize : ℕ) (s : Short) : List UInt8 :=
  contents s.buffer pageSize s.shortpOutTail s.shortpOutHead

/-- **The invariant.** What was printed and what is waiting in the page are together what the calls
have put there; if something is waiting, the output is on, or the call that has put it there is
about to start it; and there is still as much space as a call has seen. -/
structure Prints (pageSize : ℕ) (s : Short) : Prop where
  length : s.buffer.length = pageSize
  head : s.shortpOutHead < pageSize
  tail : s.shortpOutTail < pageSize
  fifo : s.printed ++ s.waiting pageSize = s.taken
  active : s.waiting pageSize ≠ [] → s.shortpOutputActive = true ∨ ∃ w ∈ s.writer, w.stage = .start
  room : ∀ w ∈ s.writer, ∀ space, w.stage = .copy space →
    space ≤ putRoom pageSize s.shortpOutTail s.shortpOutHead

theorem prints_init (hpage : 0 < pageSize) {buffer : List UInt8} (h : buffer.length = pageSize) :
    Prints pageSize (.init buffer) where
  length := h
  head := hpage
  tail := hpage
  fifo := contents_self buffer pageSize 0
  active hne := absurd (contents_self buffer pageSize 0) hne
  room w hw := by cases hw

/-- The end of a call changes nothing of it. -/
theorem Prints.out (h : Prints pageSize s) (hw : s.writer = some w) (hstart : w.stage ≠ .start) :
    Prints pageSize (s.out w) where
  length := h.length
  head := h.head
  tail := h.tail
  fifo := by
    refine h.fifo.trans ?_
    rw [Short.taken, Short.taken, hw, Short.out, List.flatMap_append, List.flatMap_singleton,
      Option.map_some, Option.map_none, Option.getD_some, Option.getD_none, List.append_nil]
    rfl
  active hne := (h.active hne).imp_right fun ⟨w', hw', hstart'⟩ => by
    rw [hw] at hw'
    rw [← Option.some.inj hw'] at hstart'
    exact absurd hstart' hstart
  room w hw := by cases hw

/-- **The output is started.** -/
theorem Prints.start (h : Prints pageSize s) (hw : s.writer = some w) :
    Prints pageSize { s with
      shortpOutputActive := true
      shortpWork := s.shortpWork || !s.shortpOutputActive
      writer := some { w with stage := .space } } where
  length := h.length
  head := h.head
  tail := h.tail
  fifo := by
    refine h.fifo.trans ?_
    rw [Short.taken, Short.taken, hw]
    rfl
  active _ := .inl rfl
  room w' hw' space hcopy := by
    rw [← Option.some.inj hw'] at hcopy
    cases hcopy

/-- **The call sees how much space there is.** -/
theorem Prints.sees (h : Prints pageSize s) (hw : s.writer = some w) (hstage : w.stage = .space) :
    Prints pageSize { s with writer := some { w with
      stage := .copy (shortpOutSpace pageSize s.shortpOutHead s.shortpOutTail).toNat } } where
  length := h.length
  head := h.head
  tail := h.tail
  fifo := by
    refine h.fifo.trans ?_
    rw [Short.taken, Short.taken, hw]
    rfl
  active hne := (h.active hne).imp_right fun ⟨w', hw', hstart⟩ => by
    rw [hw] at hw'
    rw [← Option.some.inj hw', hstage] at hstart
    cases hstart
  room w' hw' space hcopy := by
    rw [← Option.some.inj hw'] at hcopy
    rw [← WriteStage.copy.inj hcopy, shortpOutSpace_eq h.head, Int.toNat_natCast]

/-- What one turn of the loop puts. -/
theorem put_length (buf : List UInt8) (written space : ℕ) :
    ((buf.drop written).take
      (if space + written > buf.length then buf.length - written else space)).length =
        if space + written > buf.length then buf.length - written else space := by
  rw [List.length_take, List.length_drop]
  split <;> omega

/-- **Bytes are put** into the buffer. -/
theorem Prints.put (h : Prints pageSize s) (hw : s.writer = some w) (hstart : w.stage ≠ .start)
    (hspace : space ≤ putRoom pageSize s.shortpOutTail s.shortpOutHead)
    (fault : Option (List UInt8)) : Prints pageSize (s.put pageSize w space fault) := by
  have hlen := put_length w.buf w.written space
  unfold Short.put
  generalize hk : (if space + w.written > w.buf.length then w.buf.length - w.written else space) = k
    at hlen ⊢
  have hle : k ≤ space := by
    rw [← hk]
    split <;> omega
  have hroom := putRoom_le h.head h.tail
  have hn := h.length.ge
  dsimp only
  cases fault with
  | some copied =>
      dsimp only
      have hcopied : (copied.take k).length ≤ putRoom pageSize s.shortpOutTail s.shortpOutHead := by
        rw [List.length_take]
        omega
      have hpatch := contents_patch hn h.tail h.head hcopied
      have hkeep : Prints pageSize
          { s with buffer := patch s.buffer s.shortpOutHead (copied.take k) } :=
        ⟨by dsimp only; rw [length_patch (by rw [h.length]; omega), h.length], h.head, h.tail,
          by rw [Short.waiting]; dsimp only; rw [hpatch]; exact h.fifo,
          by rw [Short.waiting]; dsimp only; rw [hpatch]; exact h.active, h.room⟩
      exact hkeep.out hw hstart
  | none =>
      dsimp only
      have hput := contents_put hn h.tail h.head
        (show ((w.buf.drop w.written).take k).length ≤
          putRoom pageSize s.shortpOutTail s.shortpOutHead by omega)
      rw [hlen] at hput
      rw [shortpIncrOutBp_eq (show s.shortpOutHead + k ≤ pageSize by omega)]
      refine ⟨?_, ?_, h.tail, ?_, fun _ => .inr ⟨_, rfl, rfl⟩, fun w' hw' space hcopy => ?_⟩
      · dsimp only
        rw [length_patch (by rw [hlen, h.length]; omega), h.length]
      · exact wrap_lt (h.head.pos) (by omega)
      · have hfifo := h.fifo
        rw [Short.taken, hw, Option.map_some, Option.getD_some, Writer.taken] at hfifo
        rw [Short.waiting]
        dsimp only
        rw [hput, ← List.append_assoc, show s.printed ++ contents s.buffer pageSize
          s.shortpOutTail s.shortpOutHead = _ from hfifo, Short.taken, Option.map_some,
          Option.getD_some, Writer.taken, List.append_assoc, List.take_add]
      · rw [← Option.some.inj hw'] at hcopy
        cases hcopy

/-- There is more space when a byte was printed. -/
theorem putRoom_mono (hhead : head < pageSize) (htail : tail < pageSize) (hne : tail ≠ head) :
    putRoom pageSize tail head ≤ putRoom pageSize (wrap pageSize (tail + 1)) head := by
  have hspace : ∀ p, p < pageSize → putRoom pageSize p head =
      if p ≤ head then min (pageSize - 1 - (head - p)) (pageSize - head) else p - head - 1 :=
    fun p hp => by
      rw [putRoom]
      by_cases hle : p ≤ head
      · have hfree : free pageSize p head = pageSize - 1 - (head - p) := if_pos hle
        rw [if_pos hle, if_pos hle, hfree]
      · have hfree : free pageSize p head = p - head - 1 := if_neg hle
        rw [if_neg hle, if_neg hle, hfree, Nat.min_self]
  rw [hspace tail htail, hspace _ (wrap_lt htail.pos htail), wrap]
  split <;> split <;> split <;> omega

/-- **`shortp_do_work`** prints the next byte, or stops because there is none. -/
theorem Prints.doWork (h : Prints pageSize s) : Prints pageSize (s.doWork pageSize) := by
  rw [Short.doWork]
  split
  · rename_i heq
    have hnil : s.waiting pageSize = [] := by
      rw [Short.waiting, heq, contents_self]
    exact ⟨h.length, h.head, h.tail, h.fifo, fun hne => absurd hnil hne, h.room⟩
  · rename_i hne
    have hget : contents s.buffer pageSize s.shortpOutTail s.shortpOutHead = _ :=
      contents_get h.head h.tail (getRoom_pos h.tail fun heq => hne heq.symm)
    have hbyte : CircularBuffer.segment s.buffer s.shortpOutTail (s.shortpOutTail + 1) =
        s.buffer[s.shortpOutTail]?.toList := by
      rw [CircularBuffer.segment, Nat.add_sub_cancel_left, List.take_one, List.head?_drop]
    have hactive := h.active
    have hfifo := h.fifo
    have htail := h.tail
    rw [Short.waiting, hget, hbyte] at hactive hfifo
    rw [shortpIncrOutBp_eq (show s.shortpOutTail + 1 ≤ pageSize by omega)]
    refine ⟨h.length, h.head, wrap_lt h.tail.pos (by omega), ?_, fun hrest => hactive ?_,
      fun w hw space hcopy => (h.room w hw space hcopy).trans
        (putRoom_mono h.head h.tail fun heq => hne heq.symm)⟩
    · rw [List.append_assoc]
      exact hfifo
    · exact List.append_ne_nil_of_right_ne_nil _ hrest

/-- **The step lemma.** -/
theorem Prints.next (h : Prints pageSize s) {a : ShortAction}
    (hstep : nextShort pageSize a s = some s') : Prints pageSize s' := by
  cases a with
  | call buf =>
      rw [nextShort] at hstep
      split at hstep
      · rename_i hw
        cases hstep
        refine ⟨h.length, h.head, h.tail, h.fifo.trans ?_,
          fun hne => (h.active hne).imp_right ?_, fun w' hw' space hcopy => ?_⟩
        · rw [Short.taken, Short.taken, hw]
          rfl
        · rintro ⟨w, hsome, -⟩
          rw [hw] at hsome
          cases hsome
        · rw [← Option.some.inj hw'] at hcopy
          cases hcopy
      · cases hstep
  | step fault =>
      obtain ⟨w, hw, hwrite⟩ := Option.bind_eq_some_iff.mp hstep
      rw [Short.write] at hwrite
      split at hwrite
      · rename_i hstage
        split at hwrite
        · dsimp only at hwrite
          split at hwrite
          · cases hwrite
          · cases hwrite
            exact h.sees hw hstage
        · cases hwrite
          exact h.out hw (by rw [hstage]; simp)
      · rename_i space hstage
        cases hwrite
        exact h.put hw (by rw [hstage]; simp) (h.room w hw space hstage) fault
      · cases hwrite
        exact h.start hw
  | signal =>
      rw [nextShort] at hstep
      split at hstep
      · rename_i hw
        split at hstep
        · rename_i hwaits
          cases hstep
          exact h.out hw (by rw [hwaits.1]; simp)
        · cases hstep
      · cases hstep
  | interrupt =>
      rw [nextShort] at hstep
      split at hstep
      · cases hstep
        exact ⟨h.length, h.head, h.tail, h.fifo, h.active, h.room⟩
      · cases hstep
        exact h
  | work =>
      rw [nextShort] at hstep
      split at hstep
      · cases hstep
        have hkeep : Prints pageSize { s with shortpWork := false } :=
          ⟨h.length, h.head, h.tail, h.fifo, h.active, h.room⟩
        exact hkeep.doWork
      · cases hstep

theorem prints {buffer : List UInt8} (hpage : 0 < pageSize) (hbuffer : buffer.length = pageSize)
    (h : (shortSystem pageSize buffer).Reachable s) : Prints pageSize s := by
  refine StepSystem.ReachableWhile.invariant (I := Prints pageSize) (fun s hs => ?_)
    (fun _ _ _ h _ hstep => h.next hstep) h
  rw [show s = _ from hs]
  exact prints_init hpage hbuffer

/-- Five bytes are written into a page of four, and two of them are printed, the second one when
the call has seen how much space there is. -/
def shortRun : List ShortAction :=
  let step : ShortAction := .step none
  [.call [1, 2, 3, 4, 5], step, step, step, .work, step, .interrupt, .work, step, step]

theorem shortRun_eq : shortRun.foldlM (fun s a => nextShort 4 a s) (.init [0, 0, 0, 0]) =
    some ⟨[1, 2, 3, 4], 0, 2, true, false, some ⟨[1, 2, 3, 4, 5], 4, .space⟩, [1, 2], []⟩ := by
  decide

/-- **The output does not stall**: bytes in the buffer are being printed, or the call that has put
them is about to start the output. -/
theorem shortp_noStall {buffer : List UInt8} (hpage : 0 < pageSize)
    (hbuffer : buffer.length = pageSize) (h : (shortSystem pageSize buffer).Reachable s)
    (hwaiting : s.waiting pageSize ≠ []) :
    s.shortpOutputActive = true ∨ ∃ w ∈ s.writer, w.stage = .start :=
  (prints hpage hbuffer h).active hwaiting

theorem shortp_noStall_run : ∃ s : Short, (shortSystem 4 [0, 0, 0, 0]).Reachable s ∧
    s.waiting 4 = [3, 4] ∧ (s.shortpOutputActive = true ∨ ∃ w ∈ s.writer, w.stage = .start) := by
  have hreach : (shortSystem 4 [0, 0, 0, 0]).Reachable _ :=
    StepSystem.reachable_foldlM (.init rfl) shortRun shortRun_eq
  exact ⟨_, hreach, by decide, shortp_noStall (by decide) rfl hreach (by decide)⟩

end LinuxProgram.Kernel.Shortprint
