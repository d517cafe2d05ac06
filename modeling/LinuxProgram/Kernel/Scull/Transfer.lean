import LinuxProgram.Kernel.Scull.DeviceCalls

/-!
# Copying to a device and back

A call of `scull_write` or `scull_read` stops at the end of a quantum, so that a program calls
it until everything is written, or nothing is read.

* `writeAll`, `readAll` — what such programs do; the sizes of their requests are arbitrary.
* `writeAll_spec` — all is written, unless there is no memory.
* `readAll_spec` — all that is there is read.
* `copy_back` — what is read back is what was written.
-/

namespace LinuxProgram.Kernel.Scull

open Lib

/-- **Writing all**, with at most so many calls, the last of which asks for `requests 0` bytes. -/
def writeAll (requests : ℕ → ℕ) : ℕ → ℕ → List UInt8 → ScullDev → Slab →
    Option (Except Errno (ScullDev × Slab))
  | _, _, [], dev, m => some (.ok (dev, m))
  | 0, _, _ :: _, _, _ => none
  | n + 1, pos, b :: bytes, dev, m =>
      match scullWrite dev.quantum dev.qset pos ((b :: bytes).take (requests n)) none dev m with
      | none => none
      | some (_, _, .error e) => some (.error e)
      | some (dev, m, .ok count) =>
          writeAll requests n (pos + count) ((b :: bytes).drop count) dev m

/-- **Reading all**, until nothing is read. -/
def readAll (requests : ℕ → ℕ) : ℕ → ℕ → ScullDev → Slab → Option (List Cell)
  | 0, _, _, _ => none
  | n + 1, pos, dev, m =>
      match scullRead dev.quantum dev.qset pos (requests n) false dev m with
      | none => none
      | some (_, _, .error _) => none
      | some (_, _, .ok []) => some []
      | some (dev, m, .ok (cell :: cells)) =>
          (readAll requests n (pos + (cell :: cells).length) dev m).map ((cell :: cells) ++ ·)

variable {g : Geometry} {dev : ScullDev} {m : Slab} {requests : ℕ → ℕ}

/-- One call of `scull_write` at the end of the file. -/
theorem write_end (h : Good g dev m) {values : List Cell} (hfile : (dev.file g).Is g.blocks values)
    {buf : List UInt8} (hperiod : values.length + buf.length ≤ g.blocks.period) :
    (∃ dev' m', scullWrite dev.quantum dev.qset values.length buf none dev m =
        some (dev', m', .error .ENOMEM)) ∨
      ∃ dev' m', scullWrite dev.quantum dev.qset values.length buf none dev m =
          some (dev', m', .ok (min buf.length (g.blocks.room values.length))) ∧ Good g dev' m' ∧
        (dev'.file g).Is g.blocks
          (values ++ (buf.take (g.blocks.room values.length)).map some) := by
  obtain ⟨dev', m', retval, hwrite, hgood, hwrites⟩ := scullWrite_spec h values.length buf none
  rw [h.quantum, h.qset]
  cases hresult : dev'.file g with
  | mk size cell =>
      rw [hresult] at hwrites
      cases hwrites with
      | ok =>
          refine .inr ⟨dev', m', hwrite, hgood, ?_⟩
          rw [hresult, List.map_take]
          exact hfile.write none (by rwa [List.length_map])
      | noMemory _ => exact .inl ⟨dev', m', hwrite⟩

/-- **All is written**, unless there is no memory. -/
theorem writeAll_spec (hrequests : ∀ n, 0 < requests n) {n : ℕ} {bytes : List UInt8}
    {values : List Cell} (hn : bytes.length ≤ n) (h : Good g dev m)
    (hfile : (dev.file g).Is g.blocks values)
    (hperiod : values.length + bytes.length ≤ g.blocks.period) :
    writeAll requests n values.length bytes dev m = some (.error .ENOMEM) ∨
      ∃ dev' m', writeAll requests n values.length bytes dev m = some (.ok (dev', m')) ∧
        Good g dev' m' ∧ (dev'.file g).Is g.blocks (values ++ bytes.map some) := by
  induction n generalizing bytes values dev m with
  | zero =>
      rw [List.length_eq_zero_iff.mp (Nat.le_zero.mp hn)]
      refine .inr ⟨dev, m, rfl, h, ?_⟩
      rwa [List.map_nil, List.append_nil]
  | succ n ih =>
      cases bytes with
      | nil =>
          refine .inr ⟨dev, m, rfl, h, ?_⟩
          rwa [List.map_nil, List.append_nil]
      | cons b bytes =>
          have hroom := g.blocks.room_pos (p := values.length)
          have hrequest := hrequests n
          have hlen : ((b :: bytes).take (requests n)).length =
              min (requests n) (bytes.length + 1) := List.length_take
          rw [List.length_cons] at hn hperiod
          rw [writeAll]
          have hfits : values.length + ((b :: bytes).take (requests n)).length ≤
              g.blocks.period := by omega
          rcases write_end h hfile hfits with
            ⟨dev', m', hwrite⟩ | ⟨dev', m', hwrite, hgood, hfile'⟩
          · rw [hwrite]
            exact .inl rfl
          · rw [hwrite]
            dsimp only
            -- the bytes that this call has taken, and the others
            generalize hcount : min ((b :: bytes).take (requests n)).length
              (g.blocks.room values.length) = count
            have htaken : ((b :: bytes).take (requests n)).take (g.blocks.room values.length) =
                (b :: bytes).take count := by
              rw [List.take_take, ← hcount, hlen, List.take_eq_take_iff, List.length_cons]
              omega
            have hnext : (values ++ ((b :: bytes).take count).map some).length =
                values.length + count := by
              rw [List.length_append, List.length_map, List.length_take, List.length_cons]
              omega
            have hrest : ((b :: bytes).drop count).length = bytes.length + 1 - count :=
              List.length_drop
            rw [htaken] at hfile'
            have hleft : ((b :: bytes).drop count).length ≤ n := by omega
            have hall := ih hleft hgood hfile' (by omega)
            rw [hnext, List.append_assoc, ← List.map_append, List.take_append_drop] at hall
            exact hall

/-- One call of `scull_read`. -/
theorem read_file (h : Good g dev m) {values : List Cell} (hfile : (dev.file g).Is g.blocks values)
    (p count : ℕ) : ∃ dev' m', scullRead dev.quantum dev.qset p count false dev m =
        some (dev', m', .ok ((values.drop p).take (min count (g.blocks.room p)))) ∧
      Good g dev' m' ∧ (dev'.file g).Is g.blocks values := by
  obtain ⟨data, m', retval, hread, hgood, hcell, hretval⟩ := scullRead_spec h p count false
  have hfile' : ScullDev.file g { dev with data := data } = dev.file g := by
    rw [ScullDev.file, ScullDev.file, hcell]
  refine ⟨_, m', ?_, hgood, ?_⟩
  · rw [← h.quantum, ← h.qset] at hread
    rw [hread, hretval.resolve_right (fun hfault => by cases hfault.1), hfile.read]
  · rwa [hfile']

/-- **All is read**, whatever the size of the requests. -/
theorem readAll_spec (hrequests : ∀ n, 0 < requests n) {n p : ℕ} {values : List Cell}
    (hn : values.length - p < n) (h : Good g dev m) (hfile : (dev.file g).Is g.blocks values) :
    readAll requests n p dev m = some (values.drop p) := by
  induction n generalizing p dev m with
  | zero => nomatch hn
  | succ n ih =>
      obtain ⟨dev', m', hread, hgood, hfile'⟩ := read_file h hfile p (requests n)
      have hroom := g.blocks.room_pos (p := p)
      have hrequest := hrequests n
      rw [readAll, hread]
      generalize hcount : min (requests n) (g.blocks.room p) = count
      cases hcells : (values.drop p).take count with
      | nil =>
          have hnil : values.drop p = [] :=
            (List.take_eq_nil_iff.mp hcells).resolve_left (by omega)
          rw [hnil]
      | cons cell cells =>
          have hlen : (cell :: cells).length = min count (values.length - p) := by
            rw [← hcells, List.length_take, List.length_drop]
          have hpos : 0 < (cell :: cells).length := Nat.succ_pos _
          dsimp only
          rw [ih (by omega) hgood hfile', Option.map_some, ← List.drop_drop, ← hcells]
          -- what was read and what is behind it
          rw [List.take_eq_take_min, List.length_take, List.length_drop, Nat.min_assoc,
            Nat.min_self, List.take_append_drop]

/-- **What is read back is what was written** to a device that was emptied, unless there is no
memory for it. -/
theorem copy_back {requests' : ℕ → ℕ} (hrequests : ∀ n, 0 < requests n)
    (hrequests' : ∀ n, 0 < requests' n) (bytes : List UInt8)
    (hperiod : bytes.length ≤ 0x100000000 * g.itemsize)
    (hmemory : Ledger.Accounted [] m.ledger) :
    writeAll requests bytes.length 0 bytes ⟨[], g.quantum, g.qset, 0⟩ m =
        some (.error .ENOMEM) ∨
      ∃ dev m', writeAll requests bytes.length 0 bytes ⟨[], g.quantum, g.qset, 0⟩ m =
          some (.ok (dev, m')) ∧
        ∀ n room, bytes.length < n →
          readAll requests' n 0 dev ⟨m'.ledger, room⟩ = some (bytes.map some) := by
  have hgood : Good g ⟨[], g.quantum, g.qset, 0⟩ m := ⟨rfl, rfl, nofun, hmemory⟩
  have hempty : (ScullDev.file g ⟨[], g.quantum, g.qset, 0⟩).Is g.blocks [] :=
    SparseFile.is_empty g.blocks
  have hall := writeAll_spec hrequests le_rfl hgood hempty
    (by rwa [List.length_nil, Nat.zero_add])
  refine hall.imp_right ?_
  rintro ⟨dev, m', hwrite, hgood', hfile⟩
  refine ⟨dev, m', hwrite, fun n room hn => ?_⟩
  rw [List.nil_append] at hfile
  have hread := readAll_spec (p := 0) hrequests' (by rwa [List.length_map, Nat.sub_zero])
    (hgood'.room room) hfile
  rwa [List.drop_zero] at hread

/-- Eleven bytes in quanta of four and arrays of two. -/
def eleven : List UInt8 := [1, 2, 3, 4, 5, 6, 7, 8, 9, 10, 11]

theorem copy_back_eleven : ∃ dev m', writeAll (fun _ => 3) 11 0 eleven
    ⟨[], (4 : ℕ), (2 : ℕ), 0⟩ ⟨.empty, 7⟩ = some (.ok (dev, m')) ∧
    ∀ n room, 11 < n → readAll (fun _ => 5) n 0 dev ⟨m'.ledger, room⟩ = some (eleven.map some) := by
  have hroom : (writeAll (fun _ => 3) 11 0 eleven ⟨[], (4 : ℕ), (2 : ℕ), 0⟩ ⟨.empty, 7⟩).map
      Except.isOk = some true := by decide +kernel
  have hcopy := copy_back (g := ⟨4, 2, by decide, by decide, by decide⟩)
    (fun _ => (by decide : 0 < 3)) (fun _ => (by decide : 0 < 5)) eleven (by decide)
    (show Ledger.Accounted [] (Slab.mk .empty 7).ledger from Ledger.accounted_empty)
  exact hcopy.resolve_left fun herror =>
    nomatch hroom.symm.trans (congrArg (Option.map Except.isOk) herror)

end LinuxProgram.Kernel.Scull
