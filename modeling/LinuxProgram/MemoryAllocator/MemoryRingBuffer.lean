import LinuxProgram.Lib.StepSystem
import LinuxProgram.Lib.SlotPool

/-!
# MemoryRingBuffer.cpp

An allocator with two classes of blocks, of 64 and of 256 bytes, each of which has a
region of one huge page and a stack of the slots of it that are free.  `acquire` pops a
slot and gives its address, and `release` finds the slot of an address again.

* `acquire`, `release`, `new` — the calls, and the constructor.
* `Sound` — what a client relies on, with the blocks that are live as a ghost.
* `acquire_release_sound` — it holds after all sequences of calls that release only what
  is live, with a type of the class it was acquired with.
-/

namespace LinuxProgram.MemoryAllocator.MemoryRingBuffer

open Lib Lib.SlotPool

def maxElementsCnt : ℕ := 5 * 1024

def MB : ℕ := 1024 * 1024

def hugepageSize : ℕ := 2 * MB

/-- **A type**, as the `static_assert` of `orderIndex` lets it pass. -/
structure ObjType where
  size : ℕ
  alignReq : ℕ
  accepted : alignReq ≤ 256 ∧ size ≤ 256

/-- **`orderIndex`**, the class of a type: blocks of 64 bytes, or of 256. -/
def orderIndex (T : ObjType) : Fin 2 := if T.size ≤ 64 then 0 else 1

/-- **`orderLevel`**, by how many bits the number of a slot is shifted. -/
def orderLevel (order : Fin 2) : ℕ := ![6, 8] order

/-- **`mOrderArray`**: two regions that `aligned_alloc` has returned. -/
structure Storage where
  mOrderArray : Fin 2 → ℕ
  nonnull : ∀ order, 0 < mOrderArray order
  inMemory : ∀ order, mOrderArray order + hugepageSize ≤ 2 ^ 64
  separate : ∀ i j, i ≠ j → Disjoint (Finset.Ico (mOrderArray i) (mOrderArray i + hugepageSize))
    (Finset.Ico (mOrderArray j) (mOrderArray j + hugepageSize))

/-- **The stacks**, with the top in front. -/
abbrev FreeSlots := Fin 2 → List UInt16

/-- The loop of the constructor, behind which all slots from `index` on are pushed. -/
def push : ℕ → List UInt16 → List UInt16
  | 0, stack => stack
  | index + 1, stack => push index (.ofNat index :: stack)

/-- **The constructor**, for what it leaves on the stacks: slot 0 on top, and the last one at the
bottom. -/
def new : FreeSlots := fun _ => push maxElementsCnt []

variable (st : Storage)

/-- **`CVT2ADDR`**, the address of a slot in the region of its class. -/
def cvt2Addr (order : Fin 2) (slot : UInt16) : ℕ :=
  st.mOrderArray order + slot.toNat <<< orderLevel order

/-- The slot of an address, as an `unsigned short`. -/
def slotOf (order : Fin 2) (ptr : ℕ) : UInt16 :=
  .ofInt (((ptr : ℤ) - st.mOrderArray order) >>> orderLevel order)

/-- **`acquire`**, which takes the slot on top of the stack of the class. -/
def acquire (T : ObjType) (mFreeSlots : FreeSlots) : Option ℕ × FreeSlots :=
  let order := orderIndex T
  match mFreeSlots order with
  | [] => (none, mFreeSlots)
  | freeSlot :: rest => (some (cvt2Addr st order freeSlot), Function.update mFreeSlots order rest)

/-- **`release`**, unless its assertion fails. -/
def release (T : ObjType) (ptr : ℕ) (mFreeSlots : FreeSlots) : Option FreeSlots :=
  let order := orderIndex T
  let slot := slotOf st order ptr
  if slot.toNat < maxElementsCnt then
    some (Function.update mFreeSlots order (slot :: mFreeSlots order))
  else none

/-! ### Sequences of calls -/

/-- **The allocator**, with the pointers that are live in each class as a ghost. -/
structure State where
  mFreeSlots : FreeSlots
  live : Fin 2 → List ℕ

inductive Call
  | acquire (T : ObjType)
  | release (T : ObjType) (ptr : ℕ)

/-- **A call.**  What is released is live in the class of the type. -/
def next : Call → State → Option State
  | .acquire T, s =>
      match acquire st T s.mFreeSlots with
      | (none, mFreeSlots) => some { s with mFreeSlots }
      | (some ptr, mFreeSlots) => some {
          mFreeSlots
          live := Function.update s.live (orderIndex T) (ptr :: s.live (orderIndex T)) }
  | .release T ptr, s =>
      if ptr ∈ s.live (orderIndex T) then
        (release st T ptr s.mFreeSlots).map fun mFreeSlots => {
          mFreeSlots
          live := Function.update s.live (orderIndex T) ((s.live (orderIndex T)).erase ptr) }
      else none

/-- **All sequences of calls.** -/
def system : StepSystem State Call := .ofFun { mFreeSlots := new, live := fun _ => [] } (next st)

/-- The bytes of a block, as many as its class has, whatever the type needs. -/
def blockBytes (order : Fin 2) (ptr : ℕ) : Finset ℕ := Finset.Ico ptr (ptr + 2 ^ orderLevel order)

/-- The bytes of a region. -/
def regionBytes (order : Fin 2) : Finset ℕ :=
  Finset.Ico (st.mOrderArray order) (st.mOrderArray order + hugepageSize)

/-- **A sound allocator**: what a client of `acquire` and `release` relies on in every state. -/
structure Sound (s : State) : Prop where
  distinct : (s.live 0 ++ s.live 1).Nodup
  separate : ∀ i j, ∀ p ∈ s.live i, ∀ q ∈ s.live j, (i, p) ≠ (j, q) →
    Disjoint (blockBytes i p) (blockBytes j q)
  inside : ∀ i, ∀ p ∈ s.live i, blockBytes i p ⊆ regionBytes st i
  /-- The free slots and the live ones are all slots, each once. -/
  slots : ∀ i, ((s.mFreeSlots i).map UInt16.toNat ++
    (s.live i).map fun p => (p - st.mOrderArray i) / 2 ^ orderLevel i).Perm
      (List.range maxElementsCnt)
  null : ∀ T, (acquire st T s.mFreeSlots).1 = none ↔
    (s.live (orderIndex T)).length = maxElementsCnt
  /-- No assertion fails. -/
  released : ∀ T, ∀ p ∈ s.live (orderIndex T), (release st T p s.mFreeSlots).isSome

variable {st : Storage} {s s' : State} {order : Fin 2} {a b : UInt16} {T : ObjType} {ptr : ℕ}

/-! ### Slots and addresses

An address is the start of the region plus the number of the slot times the size of the class.
The number comes back by a subtraction and a shift, and is an `unsigned short`, which it fits
because a region has 5120 slots. -/

/-- All slots, as the constructor has pushed them. -/
def allSlots : List UInt16 := (List.range maxElementsCnt).map UInt16.ofNat

theorem push_eq (n : ℕ) (stack : List UInt16) :
    push n stack = (List.range n).map UInt16.ofNat ++ stack := by
  induction n generalizing stack with
  | zero => rfl
  | succ n ih =>
      rw [push, ih, List.range_succ, List.map_append, List.append_assoc]
      rfl

theorem new_eq (order : Fin 2) : new order = allSlots := by
  rw [new, push_eq, List.append_nil, allSlots]

theorem allSlots_toNat : allSlots.map UInt16.toNat = List.range maxElementsCnt := by
  rw [allSlots, List.map_map]
  refine (List.map_congr_left fun n hn => ?_).trans (List.map_id _)
  have hlt := List.mem_range.mp hn
  unfold maxElementsCnt at hlt
  rw [Function.comp_apply, UInt16.toNat_ofNat']
  exact Nat.mod_eq_of_lt (by omega)

theorem nodup_allSlots : allSlots.Nodup := by
  apply List.Nodup.of_map UInt16.toNat
  rw [allSlots_toNat]
  exact List.nodup_range

theorem length_allSlots : allSlots.length = maxElementsCnt := by
  rw [allSlots, List.length_map, List.length_range]

theorem lt_of_mem_allSlots (h : a ∈ allSlots) : a.toNat < maxElementsCnt := by
  rw [← List.mem_range, ← allSlots_toNat]
  exact List.mem_map_of_mem h

theorem cvt2Addr_eq (order : Fin 2) (a : UInt16) :
    cvt2Addr st order a = st.mOrderArray order + a.toNat * 2 ^ orderLevel order := by
  rw [cvt2Addr, Nat.shiftLeft_eq]

/-- The number of the slot of an address. -/
theorem sub_div_cvt2Addr (order : Fin 2) (a : UInt16) :
    (cvt2Addr st order a - st.mOrderArray order) / 2 ^ orderLevel order = a.toNat := by
  rw [cvt2Addr_eq, Nat.add_sub_cancel_left, Nat.mul_div_cancel _ (Nat.two_pow_pos _)]

/-- **The slot of an address** is found again. -/
theorem slotOf_cvt2Addr (order : Fin 2) (a : UInt16) :
    slotOf st order (cvt2Addr st order a) = a := by
  have hshift : ((cvt2Addr st order a : ℤ) - st.mOrderArray order) >>> orderLevel order =
      a.toNat := by
    rw [Int.shiftRight_eq_div_pow, cvt2Addr_eq, Nat.cast_add, add_sub_cancel_left, Nat.cast_mul]
    exact Int.mul_ediv_cancel _ (Int.natCast_ne_zero.mpr (Nat.two_pow_pos _).ne')
  rw [slotOf, hshift, ← UInt16.toNat_inj, UInt16.ofInt, UInt16.toNat_ofNat']
  have hlt := a.toNat_lt
  omega

theorem cvt2Addr_injective (order : Fin 2) : Function.Injective (cvt2Addr st order) :=
  Function.LeftInverse.injective (slotOf_cvt2Addr order)

/-- Its slot is inside the region. -/
theorem blockBytes_subset (order : Fin 2) (h : a ∈ allSlots) :
    blockBytes order (cvt2Addr st order a) ⊆ regionBytes st order := by
  have hlt := lt_of_mem_allSlots h
  have hlevel : 2 ^ orderLevel order ≤ 256 := by
    fin_cases order <;> decide
  have hend : (a.toNat + 1) * 2 ^ orderLevel order ≤ hugepageSize :=
    (Nat.mul_le_mul hlt hlevel).trans (by decide)
  rw [Nat.add_mul, Nat.one_mul] at hend
  apply Finset.Ico_subset_Ico
  · rw [cvt2Addr_eq]
    exact Nat.le_add_right _ _
  · rw [cvt2Addr_eq, Nat.add_assoc]
    exact Nat.add_le_add_left hend _

/-- Two slots of a class have nothing in common. -/
theorem disjoint_blockBytes (order : Fin 2) (hne : a ≠ b) :
    Disjoint (blockBytes order (cvt2Addr st order a)) (blockBytes order (cvt2Addr st order b)) := by
  have hbefore : ∀ c d : UInt16, c.toNat < d.toNat → ∀ i ∈ blockBytes order (cvt2Addr st order c),
      i < cvt2Addr st order d := by
    intro c d hlt i hi
    rw [blockBytes, Finset.mem_Ico, cvt2Addr_eq] at hi
    have hle : (c.toNat + 1) * 2 ^ orderLevel order ≤ d.toNat * 2 ^ orderLevel order :=
      Nat.mul_le_mul_right _ hlt
    rw [Nat.add_mul, Nat.one_mul] at hle
    rw [cvt2Addr_eq]
    omega
  have hnat : a.toNat ≠ b.toNat := mt UInt16.toNat_inj.mp hne
  rw [Finset.disjoint_left]
  intro i ha hb
  rcases Nat.lt_or_gt_of_ne hnat with hlt | hlt
  · exact absurd (Finset.mem_Ico.mp hb).1 (Nat.not_le.mpr (hbefore a b hlt i ha))
  · exact absurd (Finset.mem_Ico.mp ha).1 (Nat.not_le.mpr (hbefore b a hlt i hb))

/-! ### One call -/

/-- **The invariant** of a class: its live pointers are the addresses of the slots that are
not on its stack. -/
def ClassInv (st : Storage) (order : Fin 2) (free : List UInt16) (live : List ℕ) : Prop :=
  ∃ liveSlots, live = liveSlots.map (cvt2Addr st order) ∧ Split allSlots free liveSlots

def Inv (st : Storage) (s : State) : Prop :=
  ∀ order, ClassInv st order (s.mFreeSlots order) (s.live order)

/-- The other class is left as it is. -/
theorem Inv.update (h : Inv st s) {free : List UInt16} {live : List ℕ}
    (hclass : ClassInv st order free live) :
    Inv st ⟨Function.update s.mFreeSlots order free, Function.update s.live order live⟩ := by
  intro i
  by_cases hi : i = order
  · subst hi
    simp only [Function.update_self]
    exact hclass
  · simp only [Function.update_of_ne hi]
    exact h i

/-- **`release`** of a live pointer. -/
theorem Inv.release (h : Inv st s) (hptr : ptr ∈ s.live (orderIndex T)) :
    ∃ slot, release st T ptr s.mFreeSlots = some (Function.update s.mFreeSlots (orderIndex T)
        (slot :: s.mFreeSlots (orderIndex T))) ∧
      ClassInv st (orderIndex T) (slot :: s.mFreeSlots (orderIndex T))
        ((s.live (orderIndex T)).erase ptr) := by
  obtain ⟨liveSlots, hlive, hsplit⟩ := h (orderIndex T)
  rw [hlive] at hptr ⊢
  obtain ⟨slot, hslot, rfl⟩ := List.mem_map.mp hptr
  refine ⟨slot, ?_, liveSlots.erase slot, ?_, hsplit.give hslot⟩
  · unfold MemoryRingBuffer.release
    simp only [slotOf_cvt2Addr, if_pos (lt_of_mem_allSlots (hsplit.mem_of_live hslot))]
  · rw [List.map_erase (cvt2Addr_injective _)]

theorem Inv.step (call : Call) (h : Inv st s) (hnext : next st call s = some s') : Inv st s' := by
  cases call with
  | acquire T =>
      obtain ⟨liveSlots, hlive, hsplit⟩ := h (orderIndex T)
      unfold next acquire at hnext
      cases hfree : s.mFreeSlots (orderIndex T) with
      | nil =>
          simp only [hfree] at hnext
          obtain rfl := Option.some.inj hnext
          exact h
      | cons slot rest =>
          simp only [hfree] at hnext
          obtain rfl := Option.some.inj hnext
          rw [hfree] at hsplit
          refine h.update ⟨slot :: liveSlots, ?_, hsplit.take⟩
          rw [hlive, List.map_cons]
  | release T ptr =>
      rw [next] at hnext
      by_cases hptr : ptr ∈ s.live (orderIndex T)
      · obtain ⟨slot, hrelease, hclass⟩ := h.release hptr
        rw [if_pos hptr, hrelease] at hnext
        obtain rfl := Option.some.inj hnext
        exact h.update hclass
      · rw [if_neg hptr] at hnext
        nomatch hnext

theorem inv_reachable (h : (system st).Reachable s) : Inv st s := by
  refine h.invariant ?_ fun s call s' hs _ hstep => hs.step call hstep
  rintro s rfl order
  refine ⟨[], rfl, ?_⟩
  simp only [new_eq]
  exact split_initial _

/-! ### What a client relies on -/

theorem Inv.separate (h : Inv st s) (i j : Fin 2) : ∀ p ∈ s.live i, ∀ q ∈ s.live j,
    (i, p) ≠ (j, q) → Disjoint (blockBytes i p) (blockBytes j q) := by
  intro p hp q hq hne
  obtain ⟨iSlots, hi, hisplit⟩ := h i
  obtain ⟨jSlots, hj, hjsplit⟩ := h j
  rw [hi] at hp
  rw [hj] at hq
  obtain ⟨a, ha, rfl⟩ := List.mem_map.mp hp
  obtain ⟨b, hb, rfl⟩ := List.mem_map.mp hq
  by_cases hij : i = j
  · subst hij
    exact disjoint_blockBytes i fun hab => hne (by rw [hab])
  · exact (st.separate i j hij).mono (blockBytes_subset i (hisplit.mem_of_live ha))
      (blockBytes_subset j (hjsplit.mem_of_live hb))

theorem Inv.nodup_live (h : Inv st s) (i : Fin 2) : (s.live i).Nodup := by
  obtain ⟨liveSlots, hlive, hsplit⟩ := h i
  rw [hlive, List.nodup_map_iff (cvt2Addr_injective i)]
  exact (List.nodup_append.mp (hsplit.nodup nodup_allSlots)).2.1

theorem Inv.sound (h : Inv st s) : Sound st s := by
  refine ⟨?_, h.separate, ?_, ?_, ?_, ?_⟩
  · refine (h.nodup_live 0).append (h.nodup_live 1) fun p hp hq => ?_
    -- a block has its first byte
    have hdisjoint := h.separate 0 1 p hp p hq fun heq => Fin.zero_ne_one (congrArg Prod.fst heq)
    have hfirst : ∀ order, p ∈ blockBytes order p := fun order =>
      Finset.mem_Ico.mpr ⟨le_rfl, Nat.lt_add_of_pos_right (Nat.two_pow_pos _)⟩
    exact Finset.disjoint_left.mp hdisjoint (hfirst 0) (hfirst 1)
  · intro i p hp
    obtain ⟨liveSlots, hlive, hsplit⟩ := h i
    rw [hlive] at hp
    obtain ⟨a, ha, rfl⟩ := List.mem_map.mp hp
    exact blockBytes_subset i (hsplit.mem_of_live ha)
  · intro i
    obtain ⟨liveSlots, hlive, hsplit⟩ := h i
    have hslots : (liveSlots.map (cvt2Addr st i)).map
        (fun p => (p - st.mOrderArray i) / 2 ^ orderLevel i) = liveSlots.map UInt16.toNat := by
      rw [List.map_map]
      exact List.map_congr_left fun a _ => sub_div_cvt2Addr i a
    rw [hlive, hslots, ← List.map_append, ← allSlots_toNat]
    exact hsplit.map _
  · intro T
    obtain ⟨liveSlots, hlive, hsplit⟩ := h (orderIndex T)
    rw [hlive, List.length_map, ← length_allSlots, ← hsplit.free_eq_nil_iff]
    unfold acquire
    cases hfree : s.mFreeSlots (orderIndex T) with
    | nil => simp only [hfree]
    | cons slot rest =>
        simp only [hfree]
        exact iff_of_false (Option.some_ne_none _) (List.cons_ne_nil _ _)
  · intro T p hp
    obtain ⟨slot, hrelease, -⟩ := h.release hp
    rw [hrelease]
    rfl

/-- **The allocator is sound** after every sequence of calls.  The two classes have a stack each,
and a call leaves the other one alone. -/
theorem acquire_release_sound (h : (system st).Reachable s) : Sound st s :=
  (inv_reachable h).sound

/-- Two neighbouring pages. -/
def twoPages : Storage where
  mOrderArray := ![hugepageSize, 2 * hugepageSize]
  nonnull := by decide
  inMemory := by decide
  separate := by
    intro i j hij
    rw [Finset.disjoint_left]
    intro x hi hj
    rw [Finset.mem_Ico] at hi hj
    have hcases : (i = 0 ∧ j = 1) ∨ (i = 1 ∧ j = 0) := by omega
    rcases hcases with ⟨rfl, rfl⟩ | ⟨rfl, rfl⟩
    · simp only [Matrix.cons_val_zero, Matrix.cons_val_one] at hi hj
      omega
    · simp only [Matrix.cons_val_zero, Matrix.cons_val_one] at hi hj
      omega

/-- An `int`. -/
def intType : ObjType := ⟨4, 4, by decide⟩

/-- A record that takes a block of the larger class. -/
def recordType : ObjType := ⟨200, 8, by decide⟩

/-- Blocks of both classes are acquired, and released in another order.  The block that an `int` had
is the next one that is acquired in its class. -/
def bothClasses : List Call :=
  [.acquire intType, .acquire recordType, .acquire intType, .acquire recordType,
    .release intType hugepageSize, .release recordType (2 * hugepageSize + 256),
    .acquire recordType, .acquire intType, .release recordType (2 * hugepageSize)]

set_option maxRecDepth 100000 in
theorem bothClasses_run :
    (bothClasses.foldlM (fun s call => next twoPages call s) ⟨new, fun _ => []⟩).map
      (fun s => (s.live 0, s.live 1)) =
    some ([hugepageSize, hugepageSize + 64], [2 * hugepageSize + 256]) := by
  decide +kernel

theorem acquire_release_sound_int : ∃ s : State,
    (system twoPages).Reachable s ∧ s.live 0 = [hugepageSize, hugepageSize + 64] ∧
      s.live 1 = [2 * hugepageSize + 256] ∧ Sound twoPages s := by
  obtain ⟨s, hrun, hlive⟩ := Option.map_eq_some_iff.mp bothClasses_run
  have hreach : (system twoPages).Reachable s :=
    StepSystem.reachable_foldlM (.init rfl) bothClasses hrun
  exact ⟨s, hreach, congrArg Prod.fst hlive, congrArg Prod.snd hlive,
    acquire_release_sound hreach⟩

end LinuxProgram.MemoryAllocator.MemoryRingBuffer
