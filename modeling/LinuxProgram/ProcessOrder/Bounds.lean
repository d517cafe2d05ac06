import LinuxProgram.ProcessOrder.LoadFile

/-!
# What LoadFile accesses

`LoadFile` compares the start of a message with the end of the mapping, and nothing
else.  Whether its accesses stay in bounds depends on the messages it comes to.

* `Access.InBounds` — a read is inside of the mapping, a write inside of its buffer.
* `Visited` — where the loop comes to.
* `Complete` — what has to be in the mapping of a message there, and which lengths of
  the name of a firm fit the buffer.
* `loadMessage_inBounds` — the accesses for one message.
* `loadFile_inBounds_iff` — all accesses are in bounds exactly if every message the
  loop comes to is complete.
* `longFirm_outOfBounds` — a firm whose name is longer than 257 bytes.
-/

namespace LinuxProgram.ProcessOrder

open Lib.ByteLayout

/-- **An access in bounds**: `memcpy` of nothing accesses nothing. -/
def Access.InBounds (size : ℕ) : Access → Prop
  | .read offset length => length = 0 ∨ offset + length ≤ size
  | .write length capacity => length ≤ capacity

/-- All accesses of a computation are in bounds, of the mapping or of the buffer that is written. -/
def Logged.InBounds {α : Type} (size : ℕ) (c : Logged α) : Prop :=
  ∀ a ∈ c.accesses, a.InBounds size

variable (f : Mapping)

/-- **Where the loop comes to** from `p` on. -/
inductive Visited : ℕ → ℕ → Prop
  | start (p : ℕ) : Visited p p
  | next {p q : ℕ} (hlt : p < f.length) (htype : num f (p + 2) 1 ∈ [1, 2, 3])
      (h : Visited (p + sizeofHeader + headerMsgLen f p) q) : Visited p q

/-- **What has to be there of a message.**  Of an order entry, the members up to
`trader_tag` and the name of the firm, which fits its buffer. -/
def Complete (p : ℕ) : Prop :=
  p + 3 ≤ f.length ∧
  match num f (p + 2) 1 with
  | 1 => p + 57 ≤ f.length ∧ 44 ≤ headerMsgLen f p ∧ headerMsgLen f p ≤ 44 + 257 ∧
      (headerMsgLen f p = 44 ∨ p + sizeofHeader + headerMsgLen f p - 8 ≤ f.length)
  | 2 => p + 35 ≤ f.length
  | 3 => p + 39 + 8 * num f (p + 38) 1 ≤ f.length
  | _ => True

variable {f : Mapping} {p size : ℕ} {α β : Type}

/-! ### Computations -/

theorem inBounds_bind {c : Logged α} {g : α → Logged β} :
    (c >>= g).InBounds size ↔ c.InBounds size ∧ (g c.val).InBounds size :=
  List.forall_mem_append

theorem inBounds_pure {x : α} : (pure x : Logged α).InBounds size :=
  fun _ h => by cases h

theorem inBounds_read {offset length : ℕ} (hpos : 0 < length) :
    (f.read offset length).InBounds size ↔ offset + length ≤ size := by
  constructor
  · exact fun h => (h _ (.head _)).resolve_left hpos.ne'
  · intro h a ha
    rw [List.mem_singleton.mp ha]
    exact .inr h

theorem inBounds_memcpy {capacity offset length : ℕ} :
    (f.memcpy capacity offset length).InBounds size ↔
      (length = 0 ∨ offset + length ≤ size) ∧ length ≤ capacity := by
  constructor
  · exact fun h => ⟨h _ (.head _), h _ (.tail _ (.head _))⟩
  · rintro ⟨hread, hwrite⟩ a ha
    rcases List.mem_cons.mp ha with rfl | ha
    · exact hread
    · rw [List.mem_singleton.mp ha]
      exact hwrite

/-- Members that end before `bound`. -/
theorem inBounds_touch {members : List (ℕ × ℕ)} (bound : ℕ)
    (h : ∀ member ∈ members, member.1 + member.2 ≤ bound) (hbound : bound ≤ size) :
    (Mapping.touch members).InBounds size := by
  intro a ha
  obtain ⟨member, hmember, rfl⟩ := List.mem_map.mp ha
  exact .inr ((h member hmember).trans hbound)

/-! ### Messages -/

theorem calcAddr_inBounds : (calcAddr f p).InBounds size ↔ p + 22 ≤ size := by
  rw [calcAddr, inBounds_bind, inBounds_read (by decide)]
  exact and_iff_left inBounds_pure

/-- The length that is copied to the buffer for the firm, as a `size_t`. -/
theorem firmLength_val (p len : ℕ) (hlen : len < 256 ^ 2) :
    OrderEntryMsgClass.firmLength p (p + sizeofHeader + len)
      = if 44 ≤ len then len - 44 else 2 ^ 64 - 44 + len := by
  have hint : ((p + sizeofHeader + len : ℕ) : ℤ) - 8 - (p + 58 : ℕ) = (len : ℤ) - 44 := by
    rw [sizeofHeader]
    push_cast
    ring
  rw [OrderEntryMsgClass.firmLength, hint]
  split
  · omega
  · omega

/-- The copy of the name of the firm. -/
theorem firm_inBounds {len : ℕ} (hlen : len < 256 ^ 2) :
    (f.memcpy 257 (p + 58) (OrderEntryMsgClass.firmLength p (p + sizeofHeader + len))).InBounds size
      ↔ 44 ≤ len ∧ len ≤ 44 + 257 ∧ (len = 44 ∨ p + sizeofHeader + len - 8 ≤ size) := by
  rw [inBounds_memcpy, firmLength_val p len hlen, sizeofHeader]
  split
  · omega
  · omega

/-- **The accesses for an order entry** are in bounds exactly if its members are there, and the name
of the firm is there and fits its buffer. -/
theorem entry_inBounds : (OrderEntryMsgClass.new f p).InBounds size ↔
    p + 57 ≤ size ∧ 44 ≤ headerMsgLen f p ∧ headerMsgLen f p ≤ 44 + 257 ∧
      (headerMsgLen f p = 44 ∨ p + sizeofHeader + headerMsgLen f p - 8 ≤ size) := by
  have hlen : headerMsgLen f p < 256 ^ 2 := num_lt f (p + 20) 2
  have hend : (calcAddr f p).val = p + sizeofHeader + headerMsgLen f p := rfl
  rw [OrderEntryMsgClass.new, inBounds_bind, calcAddr_inBounds, inBounds_bind, inBounds_memcpy,
    inBounds_bind, inBounds_memcpy, inBounds_bind, hend, firm_inBounds hlen, inBounds_bind]
  constructor
  · rintro ⟨-, ⟨htag, -⟩, -, hfirm, -⟩
    exact ⟨htag.resolve_left (by decide), hfirm⟩
  · rintro ⟨hsize, hfirm⟩
    refine ⟨by omega, ⟨.inr (by omega), by decide⟩, ⟨.inr (by omega), by decide⟩, hfirm,
      inBounds_touch (p + 57) ?_ hsize, inBounds_pure⟩
    simp [printHeader]

/-- **The accesses for an acknowledgement** are in bounds exactly if its members up to the status
are there. -/
theorem ack_inBounds : (OrderAckMsgClass.new f p).InBounds size ↔ p + 35 ≤ size := by
  rw [OrderAckMsgClass.new, inBounds_bind, calcAddr_inBounds, inBounds_bind]
  constructor
  · rintro ⟨-, htouch, -⟩
    have hstatus := htouch (.read (p + 34) 1) (by simp [Mapping.touch, printHeader])
    exact hstatus.resolve_left (by decide)
  · intro hsize
    refine ⟨by omega, inBounds_touch (p + 35) ?_ hsize, inBounds_pure⟩
    simp [printHeader]

theorem readGroup_inBounds : (OrderFillMsgClass.readGroup f p).InBounds size ↔ p + 8 ≤ size := by
  rw [OrderFillMsgClass.readGroup, inBounds_bind, inBounds_read (by decide), inBounds_bind,
    inBounds_read (by decide), inBounds_bind, inBounds_memcpy]
  constructor
  · rintro ⟨-, hqty, -⟩
    omega
  · intro hsize
    exact ⟨by omega, by omega, ⟨.inr (by omega), by decide⟩, inBounds_pure⟩

/-- The groups end before the end of the mapping. -/
theorem readGroups_inBounds {n : ℕ} (hp : p ≤ size) :
    (OrderFillMsgClass.readGroups f p n).InBounds size ↔ p + 8 * n ≤ size := by
  induction n generalizing p with
  | zero =>
      rw [OrderFillMsgClass.readGroups]
      exact iff_of_true inBounds_pure hp
  | succ n ih =>
      rw [OrderFillMsgClass.readGroups, inBounds_bind, readGroup_inBounds, inBounds_bind]
      constructor
      · rintro ⟨hgroup, hgroups, -⟩
        have := (ih hgroup).mp hgroups
        omega
      · intro hsize
        exact ⟨by omega, (ih (by omega)).mpr (by omega), inBounds_pure⟩

/-- **The accesses for a fill** are in bounds exactly if its members and the groups it announces are
there. -/
theorem fill_inBounds : (OrderFillMsgClass.new f p).InBounds size ↔
    p + 39 + 8 * num f (p + 38) 1 ≤ size := by
  rw [OrderFillMsgClass.new, inBounds_bind, calcAddr_inBounds, inBounds_bind,
    inBounds_read (by decide), inBounds_bind]
  constructor
  · rintro ⟨-, hcount, hgroups, -⟩
    exact (readGroups_inBounds (by omega)).mp hgroups
  · intro hsize
    rw [inBounds_bind]
    refine ⟨by omega, by omega, (readGroups_inBounds (by omega)).mpr hsize,
      inBounds_touch (p + 39) ?_ (by omega), inBounds_pure⟩
    simp [printHeader]

/-- **The accesses for a message** are in bounds exactly if it is complete. -/
theorem loadMessage_inBounds {s : Loaded} :
    (loadMessage f p s).InBounds f.length ↔ Complete f p := by
  rw [loadMessage, inBounds_bind, inBounds_read (by decide), Complete]
  refine and_congr Iff.rfl ?_
  have hval : (f.read (p + 2) 1).val = num f (p + 2) 1 := rfl
  rw [hval]
  split
  · rename_i htype
    rw [htype, loadSwitch, inBounds_bind, entry_inBounds]
    exact and_iff_left inBounds_pure
  · rename_i htype
    rw [htype, loadSwitch, inBounds_bind, ack_inBounds]
    exact and_iff_left inBounds_pure
  · rename_i htype
    rw [htype, loadSwitch, inBounds_bind, fill_inBounds]
    exact and_iff_left inBounds_pure
  · rename_i h1 h2 h3
    rw [loadSwitch]
    · exact iff_of_true inBounds_pure trivial
    · exact h1
    · exact h2
    · exact h3

/-! ### The loop -/

/-- The types the `switch` knows. -/
theorem loadMessage_eq_none {s : Loaded} :
    (loadMessage f p s).val = none ↔ num f (p + 2) 1 ∉ [1, 2, 3] := by
  have hval : (loadMessage f p s).val = (loadSwitch f p s (num f (p + 2) 1)).val := rfl
  rw [hval]
  generalize num f (p + 2) 1 = msgType
  unfold loadSwitch
  split
  · exact iff_of_false (by rintro ⟨⟩) (by decide)
  · exact iff_of_false (by rintro ⟨⟩) (by decide)
  · exact iff_of_false (by rintro ⟨⟩) (by decide)
  · rename_i h1 h2 h3
    refine iff_of_true rfl ?_
    simp only [List.mem_cons, List.not_mem_nil, or_false, not_or]
    exact ⟨h1, h2, h3⟩

/-- A message and what comes behind it. -/
theorem forall_visited (hlt : p < f.length) (htype : num f (p + 2) 1 ∈ [1, 2, 3])
    {P : ℕ → Prop} : (∀ q, Visited f p q → P q) ↔
      P p ∧ ∀ q, Visited f (p + sizeofHeader + headerMsgLen f p) q → P q := by
  constructor
  · exact fun h => ⟨h p (.start p), fun q hq => h q (.next hlt htype hq)⟩
  · rintro ⟨hp, hnext⟩ q hq
    cases hq with
    | start => exact hp
    | next _ _ hq => exact hnext q hq

/-- A complete message has its header. -/
theorem Complete.header (h : Complete f p) (htype : num f (p + 2) 1 ∈ [1, 2, 3]) :
    p + 22 ≤ f.length := by
  obtain ⟨-, h⟩ := h
  simp only [List.mem_cons, List.not_mem_nil, or_false] at htype
  rcases htype with htype | htype | htype
  · rw [htype] at h
    exact (Nat.add_le_add_left (by decide) p).trans h.1
  · rw [htype] at h
    exact (Nat.add_le_add_left (by decide) p).trans h
  · rw [htype] at h
    have hfixed : p + 39 ≤ f.length := (Nat.le_add_right _ _).trans h
    exact (Nat.add_le_add_left (by decide) p).trans hfixed

/-- The loop ends here. -/
theorem visited_of_end (hend : ¬ (p < f.length ∧ num f (p + 2) 1 ∈ [1, 2, 3])) {q : ℕ}
    (h : Visited f p q) : q = p := by
  cases h with
  | start => rfl
  | next hlt htype _ => exact absurd ⟨hlt, htype⟩ hend

/-- **The accesses of the loop** are in bounds exactly if every message it comes to is complete. -/
theorem loadLoop_inBounds (p : ℕ) (s : Loaded) : (loadLoop f p s).InBounds f.length ↔
    ∀ q, Visited f p q → q < f.length → Complete f q := by
  induction p, s using loadLoop.induct f with
  | case1 p s hlt message hnone =>
      have hval : loadLoop f p s = ⟨s, message.accesses⟩ := by
        rw [loadLoop, if_pos hlt]
        dsimp only
        rw [hnone]
      have htype := loadMessage_eq_none.mp hnone
      rw [hval]
      refine loadMessage_inBounds.trans ⟨fun h q hq _ => ?_, fun h => h p (.start p) hlt⟩
      rwa [visited_of_end (fun hand => htype hand.2) hq]
  | case2 p s hlt message s' hsome ih =>
      let rest := loadLoop f (p + sizeofHeader + headerMsgLen f p)
        { s' with TotalCnt := s'.TotalCnt + 1 }
      have hval : loadLoop f p s
          = ⟨rest.val, message.accesses ++ (calcAddr f p).accesses ++ rest.accesses⟩ := by
        rw [loadLoop, if_pos hlt]
        dsimp only
        rw [hsome]
      have htype : num f (p + 2) 1 ∈ [1, 2, 3] := by
        by_contra hnot
        rw [← loadMessage_eq_none (s := s)] at hnot
        exact Option.some_ne_none s' (hsome.symm.trans hnot)
      have hsplit : (loadLoop f p s).InBounds f.length ↔ (message.InBounds f.length ∧
          (calcAddr f p).InBounds f.length) ∧ rest.InBounds f.length := by
        rw [hval]
        exact List.forall_mem_append.trans (and_congr_left fun _ => List.forall_mem_append)
      rw [hsplit, forall_visited hlt htype]
      refine and_congr ?_ ih
      constructor
      · exact fun h _ => loadMessage_inBounds.mp h.1
      · intro h
        exact ⟨loadMessage_inBounds.mpr (h hlt), calcAddr_inBounds.mpr ((h hlt).header htype)⟩
  | case3 p s hge =>
      rw [loadLoop, if_neg hge]
      refine iff_of_true (fun _ h => by cases h) fun q hq hlt => ?_
      rw [visited_of_end (fun hand => hge hand.1) hq] at hlt
      exact absurd hlt hge

/-- **LoadFile stays in bounds** exactly if every message it comes to is complete.  It goes by the
lengths in the file and compares none of them with the end of the mapping or with a buffer. -/
theorem loadFile_inBounds_iff (f : Mapping) : (loadFile f).InBounds f.length ↔
    ∀ p, Visited f 0 p → p < f.length → Complete f p :=
  loadLoop_inBounds 0 _

/-- An order entry with a firm of 300 bytes. -/
def longFirm : Mapping :=
  [0x53, 0x54, 1] ++ List.replicate 17 0 ++ le 2 (36 + 300 + 8) ++ List.replicate (36 + 300 + 8) 0

set_option maxRecDepth 100000 in
/-- **The name of a firm overflows its buffer**: the constructor copies as many bytes as the header
says there are. -/
theorem longFirm_outOfBounds : ¬ (loadFile longFirm).InBounds longFirm.length := by
  intro h
  have hcomplete := (loadLoop_inBounds 0 _).mp h 0 (.start 0) (by decide +kernel)
  obtain ⟨-, hentry⟩ := hcomplete
  have htype : num longFirm (0 + 2) 1 = 1 := by decide +kernel
  have hlen : headerMsgLen longFirm 0 = 36 + 300 + 8 := by decide +kernel
  rw [htype, hlen] at hentry
  exact absurd hentry.2.2.1 (by decide)

end LinuxProgram.ProcessOrder
