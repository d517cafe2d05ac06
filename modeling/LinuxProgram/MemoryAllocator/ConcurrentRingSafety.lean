import LinuxProgram.MemoryAllocator.ConcurrentRing

/-!
# Safety of the ring allocator

`span R D w` lists the offsets from the read index `R` to a write index `w`, in the
order in which they were written: up to `w` if `R ≤ w`, and otherwise up to the
wrap point `D` and then from the start of the storage.  The invariant `Inv` rests
on three observations.

* The bytes that are acquired and not released are `span` from `mReadIndex` to
  `mWriteIndex` (`Inv.live`).
* What the producer may still write to continues that list (`Free`): either right
  behind `mWriteIndex` (`Contiguous`), or from the start of the storage, with the
  wrap point already stored (`Wrapping`).  Neither is harmed by the consumer, whose
  steps only add free space, so it does not matter how old the snapshot is.
* A value of `mWriteIndex` the consumer has loaded ends a prefix of that list until
  it is stored in `mReadIndex` (`Seen`), whatever the producer does in between.
-/

namespace LinuxProgram.MemoryAllocator

open Lib

/-! ### Spans

Both sides compare indices without knowing how often the other side has wrapped.  `span` makes the
comparison one of lists: a write index that was loaded earlier gives a prefix of the span to the
write index of now, as long as it is between the read index and that one. -/

/-- The offsets from the read index to a write index, in writing order. -/
def span (R D w : ℕ) : List ℕ :=
  if R ≤ w then List.range' R (w - R) else List.range' R (D - R) ++ List.range' 0 w

theorem span_of_le {R D w : ℕ} (h : R ≤ w) : span R D w = List.range' R (w - R) := if_pos h

theorem span_of_lt {R D w : ℕ} (h : w < R) :
    span R D w = List.range' R (D - R) ++ List.range' 0 w := if_neg (Nat.not_le.mpr h)

/-- No offset occurs twice in a span. -/
theorem span_nodup (R D w : ℕ) : (span R D w).Nodup := by
  rcases Nat.lt_or_ge w R with h | h
  · rw [span_of_lt h, List.nodup_append]
    refine ⟨List.nodup_range', List.nodup_range', fun a ha b hb => ?_⟩
    rw [List.mem_range'_1] at ha hb
    omega
  · rw [span_of_le h]
    exact List.nodup_range'

/-- Two adjacent ranges. -/
theorem range'_append_range' {a b c m n : ℕ} (hb : b = a + m) (hc : c = m + n) :
    List.range' a m ++ List.range' b n = List.range' a c := by
  subst hb hc
  exact List.range'_append_1

/-- **A loaded write index** `w` is between the read index `R` and the write index
`W`, in writing order. -/
def Seen (R D W w : ℕ) : Prop :=
  (R ≤ w ∧ (R ≤ W → w ≤ W) ∧ (W < R → w ≤ D)) ∨ (w ≤ W ∧ W < R)

/-- A span goes first to a loaded write index and then on from there. -/
theorem Seen.span_eq {R D W w : ℕ} (h : Seen R D W w) :
    span R D W = span R D w ++ span w D W := by
  rcases h with ⟨hR, hle, hlt⟩ | ⟨hw, hW⟩
  · rw [span_of_le hR]
    rcases Nat.lt_or_ge W R with hW | hW
    · have := hlt hW
      rw [span_of_lt hW, span_of_lt (by omega : W < w), ← List.append_assoc,
        range'_append_range' (by omega) (by omega : D - R = w - R + (D - w))]
    · have := hle hW
      rw [span_of_le hW, span_of_le this,
        range'_append_range' (by omega) (by omega : W - R = w - R + (W - w))]
  · have hstart : List.range' 0 w ++ List.range' w (W - w) = List.range' 0 W :=
      range'_append_range' (by omega) (by omega)
    rw [span_of_lt hW, span_of_lt (by omega : w < R), span_of_le hw, List.append_assoc, hstart]

/-- While the write index is not behind the read index, the wrap point is of no
consequence. -/
theorem Seen.of_unwrapped {R D W w : ℕ} (h : Seen R D W w) (hRW : R ≤ W) (D' : ℕ) :
    Seen R D' W w ∧ R ≤ w := by
  rcases h with ⟨h1, h2, -⟩ | ⟨-, h2⟩
  · exact ⟨.inl ⟨h1, h2, fun h => absurd hRW (Nat.not_le.mpr h)⟩, h1⟩
  · exact absurd hRW (Nat.not_le.mpr h2)

namespace Ring

/-! ### The invariant

The producer keeps a snapshot of the read index and the end of what it may write, and the consumer
one of the write index.  Each part of the invariant says of one side what it may conclude from its
snapshot, in a form that the steps of the other side do not break. -/

/-- The region from `p` to `e` continues the bytes behind `mWriteIndex`. -/
structure Contiguous (capacity : ℕ) (s : Ring) (p e : ℕ) : Prop where
  start : p = s.mWriteIndex
  le : p ≤ e
  inside : e ≤ capacity
  behind : s.mWriteIndex < s.mReadIndex → e < s.mReadIndex

/-- The region from `p` to `e` continues them from the start of the storage. -/
structure Wrapping (s : Ring) (p e : ℕ) : Prop where
  start : p = 0
  unwrapped : s.mReadIndex ≤ s.mWriteIndex
  dataEnd : s.mDataEnd = s.mWriteIndex
  behind : e < s.mReadIndex

/-- **The region from `p` to `e` is free** and continues the acquired bytes. -/
def Free (capacity : ℕ) (s : Ring) (p e : ℕ) : Prop :=
  s.Contiguous capacity p e ∨ s.Wrapping p e

/-- What holds where the producer stands.  What it has loaded is still true of its own index, and a
region that it is about to hand out is free. -/
def ProducerInv (capacity : ℕ) (s : Ring) : Prop :=
  match s.producer with
  | .idle => s.Contiguous capacity s.mSnapWritePos s.mSnapWriteEnd
  | .loadWrite _ => True
  | .loadRead _ w => w = s.mWriteIndex
  | .storeDataEnd _ w r => w = s.mWriteIndex ∧ 0 < r ∧ r ≤ s.mReadIndex ∧
      s.mReadIndex ≤ s.mWriteIndex
  | .storeWrite result => s.mSnapWritePos = result.start + result.size ∧
      s.mSnapWritePos ≤ s.mSnapWriteEnd ∧ s.Free capacity result.start s.mSnapWriteEnd

/-- The value of `mWriteIndex` the consumer has loaded. -/
def SeenWrite (s : Ring) : Prop :=
  Seen s.mReadIndex s.mDataEnd s.mWriteIndex s.mSnapReadEnd

/-- What holds where the consumer stands.  The write index that it has loaded is one it has seen,
and between two calls all that was returned is released. -/
def ConsumerInv (s : Ring) : Prop :=
  match s.consumer with
  | .loadWrite => s.returnedBytes.length = s.released
  | .loadRead w => w = s.mSnapReadEnd ∧ s.SeenWrite ∧ s.returnedBytes.length = s.released
  | .loadDataEnd w r => w = s.mSnapReadEnd ∧ r = s.mReadIndex ∧ w < r ∧ s.SeenWrite ∧
      s.returnedBytes.length = s.released
  | .loadDataEndAgain w r => w = s.mSnapReadEnd ∧ r = s.mReadIndex ∧ w < r ∧ s.SeenWrite ∧
      s.returnedBytes.length = s.released
  | .storeRead => s.SeenWrite ∧ s.returnedBytes.length
      = s.released + (span s.mReadIndex s.mDataEnd s.mSnapReadEnd).length

/-- **The invariant of the ring allocator.** The bytes that are acquired and not released lie from
the read index to the write index, the consumer gets them in the order in which they were acquired,
and both threads may rely on what they have loaded. -/
structure Inv (capacity : ℕ) (s : Ring) : Prop where
  writeIndex : s.mWriteIndex ≤ capacity
  dataEnd : s.mWriteIndex < s.mReadIndex → s.mReadIndex ≤ s.mDataEnd ∧ s.mDataEnd ≤ capacity
  live : s.liveBytes = span s.mReadIndex s.mDataEnd s.mWriteIndex
  released : s.released ≤ s.acquiredBytes.length
  inOrder : s.returnedBytes <+: s.acquiredBytes
  inside : ∀ r ∈ s.acquired, r.start + r.size ≤ capacity
  producer : s.ProducerInv capacity
  consumer : s.ConsumerInv

variable {capacity : ℕ} {s : Ring}

theorem inv_init : Inv capacity {} where
  writeIndex := Nat.zero_le _
  dataEnd h := absurd h (lt_irrefl _)
  live := rfl
  released := le_rfl
  inOrder := List.prefix_refl _
  inside r hr := by cases hr
  producer := ⟨rfl, le_rfl, Nat.zero_le _, fun h => h⟩
  consumer := rfl

/-! ### The producer

The order of the stores matters: a region that starts behind a wrap is only handed out when
`mDataEnd` was stored, so that a consumer that sees the new `mWriteIndex` also sees where the old
bytes end.  Each store is a lemma of its own. -/

/-- What the consumer's part of the invariant needs from a step of the producer. -/
theorem ConsumerInv.of_producer {s' : Ring} (h : s.ConsumerInv)
    (hr : s'.mReadIndex = s.mReadIndex) (he : s'.mSnapReadEnd = s.mSnapReadEnd)
    (hc : s'.consumer = s.consumer) (ht : s'.returned = s.returned)
    (hl : s'.released = s.released)
    (hseen : s.SeenWrite → s'.SeenWrite ∧ span s.mReadIndex s'.mDataEnd s.mSnapReadEnd
      = span s.mReadIndex s.mDataEnd s.mSnapReadEnd) : s'.ConsumerInv := by
  rw [ConsumerInv, hc, hl, hr, he, returnedBytes, ht]
  rw [ConsumerInv] at h
  cases hat : s.consumer with
  | loadWrite =>
      simp only [hat] at h ⊢
      exact h
  | loadRead w =>
      simp only [hat] at h ⊢
      exact ⟨h.1, (hseen h.2.1).1, h.2.2⟩
  | loadDataEnd w r =>
      simp only [hat] at h ⊢
      exact ⟨h.1, h.2.1, h.2.2.1, (hseen h.2.2.2.1).1, h.2.2.2.2⟩
  | loadDataEndAgain w r =>
      simp only [hat] at h ⊢
      exact ⟨h.1, h.2.1, h.2.2.1, (hseen h.2.2.2.1).1, h.2.2.2.2⟩
  | storeRead =>
      simp only [hat] at h ⊢
      rw [(hseen h.1).2]
      exact ⟨(hseen h.1).1, h.2⟩

/-- A step of the producer that touches only its own variables. -/
theorem Inv.producer_local {pos e : ℕ} {at' : ProducerAt} (h : Inv capacity s)
    (hp : ({ s with mSnapWritePos := pos, mSnapWriteEnd := e, producer := at' } :
      Ring).ProducerInv capacity) :
    Inv capacity { s with mSnapWritePos := pos, mSnapWriteEnd := e, producer := at' } where
  writeIndex := h.writeIndex
  dataEnd := h.dataEnd
  live := h.live
  released := h.released
  inOrder := h.inOrder
  inside := h.inside
  producer := hp
  consumer := h.consumer.of_producer rfl rfl rfl rfl rfl fun hseen => ⟨hseen, rfl⟩

/-- **`Reserve` on a free snapshot.** -/
theorem Inv.tryReserve {p e : ℕ} (h : Inv capacity s) (hle : p ≤ e) (hf : s.Free capacity p e)
    (size : ℕ) :
    Inv capacity (({ s with mSnapWritePos := p, mSnapWriteEnd := e } : Ring).tryReserve size) := by
  rw [Ring.tryReserve]
  split
  · rename_i hsize
    rw [writeCapacity] at hsize
    refine h.producer_local ⟨rfl, ?_, ?_⟩
    · dsimp only at hsize ⊢
      omega
    · rcases hf with hf | hf
      · exact .inl ⟨hf.start, hf.le, hf.inside, hf.behind⟩
      · exact .inr ⟨hf.start, hf.unwrapped, hf.dataEnd, hf.behind⟩
  · exact h.producer_local trivial

/-- **Writing to the front of a free region continues the acquired bytes.** -/
theorem Free.span_eq {p e size : ℕ} (hf : s.Free capacity p e)
    (hle : p + size ≤ e) :
    span s.mReadIndex s.mDataEnd s.mWriteIndex ++ List.range' p size
      = span s.mReadIndex s.mDataEnd (p + size) := by
  rcases hf with hf | hf
  · rw [hf.start] at hle ⊢
    rcases Nat.lt_or_ge s.mWriteIndex s.mReadIndex with hW | hW
    · have := hf.behind hW
      rw [span_of_lt hW, span_of_lt (by omega), List.append_assoc,
        range'_append_range' (by omega) rfl]
    · rw [span_of_le hW, span_of_le (by omega), range'_append_range' (by omega)
        (by omega : s.mWriteIndex + size - s.mReadIndex = s.mWriteIndex - s.mReadIndex + size)]
  · have := hf.behind
    have := hf.unwrapped
    rw [hf.start, span_of_le hf.unwrapped, span_of_lt (by omega), hf.dataEnd, Nat.zero_add]

/-- The start of a free region is inside the storage with what is written to it. -/
theorem Inv.free_inside (h : Inv capacity s) {p e size : ℕ} (hf : s.Free capacity p e)
    (hle : p + size ≤ e) : p + size ≤ capacity := by
  have := h.writeIndex
  rcases hf with hf | hf
  · exact hle.trans hf.inside
  · have := hf.unwrapped
    have := hf.behind
    omega

/-- A loaded write index stays in place when the producer stores `mWriteIndex`. -/
theorem Seen.store_write (h : s.SeenWrite) {p e size : ℕ} (hf : s.Free capacity p e)
    (hle : p + size ≤ e) : Seen s.mReadIndex s.mDataEnd (p + size) s.mSnapReadEnd := by
  rcases hf with hf | hf
  · have := hf.start
    have := hf.behind
    rcases h with ⟨h1, h2, h3⟩ | ⟨h1, h2⟩
    · refine .inl ⟨h1, fun _ => ?_, fun _ => ?_⟩ <;> omega
    · exact .inr (by omega)
  · have := hf.start
    have := hf.unwrapped
    have := hf.dataEnd
    have := hf.behind
    rcases h with ⟨h1, h2, h3⟩ | ⟨h1, h2⟩
    · refine .inl ⟨h1, fun _ => ?_, fun _ => ?_⟩ <;> omega
    · omega

/-- **The store of `mDataEnd`**, while the contents are not wrapped: whoever reads it
then does so because of a later store of `mWriteIndex`. -/
theorem Inv.storeDataEnd (h : Inv capacity s) {size r : ℕ}
    (hat : s.producer = .storeDataEnd size s.mWriteIndex r) (hr : 0 < r)
    (hrR : r ≤ s.mReadIndex) (hRW : s.mReadIndex ≤ s.mWriteIndex) :
    Inv capacity { s with mDataEnd := s.mWriteIndex } where
  writeIndex := h.writeIndex
  dataEnd hlt := absurd hRW (Nat.not_le.mpr hlt)
  live := h.live.trans (by rw [span_of_le hRW, span_of_le hRW])
  released := h.released
  inOrder := h.inOrder
  inside := h.inside
  producer := by
    simp only [ProducerInv, hat]
    exact ⟨trivial, hr, hrR, hRW⟩
  consumer := h.consumer.of_producer rfl rfl rfl rfl rfl fun hseen => by
    obtain ⟨hseen', hle⟩ := Seen.of_unwrapped hseen hRW s.mWriteIndex
    exact ⟨hseen', by rw [span_of_le hle, span_of_le hle]⟩

/-- What is acquired after a region was handed out. -/
theorem bytes_concat (l : List Region) (result : Region) : (l ++ [result]).flatMap Region.bytes
    = l.flatMap Region.bytes ++ List.range' result.start result.size := by
  simp [Region.bytes]

/-- The region that comes free behind a region the producer hands out. -/
theorem Inv.contiguous_after (h : Inv capacity s) {p e size : ℕ} (hf : s.Free capacity p e) :
    e ≤ capacity ∧ (p + size < s.mReadIndex → e < s.mReadIndex) := by
  have := h.writeIndex
  rcases hf with hf | hf
  · have := hf.start
    have := hf.behind
    exact ⟨hf.inside, fun _ => by omega⟩
  · have := hf.unwrapped
    have := hf.behind
    exact ⟨by omega, fun _ => hf.behind⟩

/-- **The store of `mWriteIndex`** hands the region out. -/
theorem Inv.storeWrite (h : Inv capacity s) {result : Region}
    (hpos : s.mSnapWritePos = result.start + result.size)
    (hle : result.start + result.size ≤ s.mSnapWriteEnd)
    (hf : s.Free capacity result.start s.mSnapWriteEnd) :
    Inv capacity { s with
      mWriteIndex := result.start + result.size
      producer := .idle
      acquired := s.acquired ++ [result] } where
  writeIndex := h.free_inside hf hle
  dataEnd hlt := by
    rcases hf with hf | hf
    · have := hf.start
      exact h.dataEnd (by dsimp only at hlt; omega)
    · have := hf.unwrapped
      have := hf.dataEnd
      have := h.writeIndex
      dsimp only
      omega
  live := by
    rw [← hf.span_eq hle, ← h.live, liveBytes, acquiredBytes, bytes_concat]
    exact List.drop_append_of_le_length h.released
  released := by
    rw [acquiredBytes, bytes_concat, List.length_append]
    exact h.released.trans (Nat.le_add_right _ _)
  inOrder := by
    rw [acquiredBytes, bytes_concat]
    exact h.inOrder.trans (List.prefix_append _ _)
  inside r hr := by
    rcases List.mem_append.mp hr with hr | hr
    · exact h.inside r hr
    · rw [List.mem_singleton.mp hr]
      exact h.free_inside hf hle
  producer := by
    obtain ⟨hinside, hbehind⟩ := h.contiguous_after hf
    exact ⟨hpos, hpos.trans_le hle, hinside, hbehind⟩
  consumer := h.consumer.of_producer rfl rfl rfl rfl rfl fun hseen =>
    ⟨Seen.store_write hseen hf hle, rfl⟩

/-- **The producer keeps the invariant.** -/
theorem Inv.producerStep {s' : Ring} (h : Inv capacity s)
    (hs : s.producerStep capacity = some s') : Inv capacity s' := by
  have hp := h.producer
  rw [Ring.producerStep] at hs
  rw [ProducerInv] at hp
  cases hat : s.producer with
  | idle => simp [hat] at hs
  | loadWrite size =>
      simp only [hat, Option.some.injEq] at hs
      subst hs
      exact h.producer_local rfl
  | loadRead size w =>
      simp only [hat] at hs hp
      subst hp
      by_cases hlt : s.mWriteIndex < s.mReadIndex
      · -- wrapped: free up to the byte before the read index
        rw [if_pos hlt, Option.some.injEq] at hs
        subst hs
        obtain ⟨hD, hcap⟩ := h.dataEnd hlt
        refine h.tryReserve ?_ (.inl ⟨rfl, ?_, ?_, fun _ => ?_⟩) size <;> omega
      · rw [if_neg hlt] at hs
        split at hs
        · -- free to the right
          rw [Option.some.injEq] at hs
          subst hs
          have := h.writeIndex
          refine h.tryReserve ?_ (.inl ⟨rfl, ?_, ?_, fun hlt' => absurd hlt' hlt⟩) size <;> omega
        · rename_i hleft
          rw [Option.some.injEq] at hs
          subst hs
          exact h.producer_local ⟨rfl, by omega, le_rfl, Nat.not_lt.mp hlt⟩
  | storeDataEnd size w r =>
      simp only [hat, Option.some.injEq] at hs hp
      obtain ⟨rfl, hr, hrR, hRW⟩ := hp
      subst hs
      -- free to the left, from the start of the storage
      exact (h.storeDataEnd hat hr hrR hRW).tryReserve (Nat.zero_le _)
        (.inr ⟨rfl, hRW, rfl, by dsimp only; omega⟩) size
  | storeWrite result =>
      simp only [hat, Option.some.injEq] at hs hp
      obtain ⟨hpos, hle, hf⟩ := hp
      subst hs
      rw [hpos] at hle
      have hstore := h.storeWrite hpos hle hf
      rwa [← hpos] at hstore

/-- A call of `acquire` keeps it. -/
theorem Inv.acquire (h : Inv capacity s) (hidle : s.producer = .idle) (size : ℕ) :
    Inv capacity (s.tryReserve size) := by
  have hp := h.producer
  rw [ProducerInv, hidle] at hp
  exact h.tryReserve hp.le (.inl ⟨hp.start, hp.le, hp.inside, hp.behind⟩) size

/-! ### The consumer

Its steps move the read index to a write index that it has loaded before, and so they can only
make free what was acquired.  For the producer this means that a snapshot is never too large,
however old it is. -/

/-- The read index, which moves on to a loaded write index, leaves the region behind
`mWriteIndex` free. -/
theorem Contiguous.of_consumer {s' : Ring} {p e : ℕ} (hf : s.Contiguous capacity p e)
    (hw : s'.mWriteIndex = s.mWriteIndex)
    (hr : Seen s.mReadIndex s.mDataEnd s.mWriteIndex s'.mReadIndex) :
    s'.Contiguous capacity p e := by
  refine ⟨hf.start.trans hw.symm, hf.le, hf.inside, fun hlt => ?_⟩
  rw [hw] at hlt
  rcases hr with ⟨h1, h2, -⟩ | ⟨h1, -⟩
  · rcases Nat.lt_or_ge s.mWriteIndex s.mReadIndex with hW | hW
    · exact (hf.behind hW).trans_le h1
    · exact absurd (h2 hW) (Nat.not_le.mpr hlt)
  · exact absurd h1 (Nat.not_le.mpr hlt)

/-- What is free stays free when the read index moves on to a loaded write index. -/
theorem Free.of_consumer {s' : Ring} {p e : ℕ} (hf : s.Free capacity p e)
    (hw : s'.mWriteIndex = s.mWriteIndex) (hd : s'.mDataEnd = s.mDataEnd)
    (hr : Seen s.mReadIndex s.mDataEnd s.mWriteIndex s'.mReadIndex) :
    s'.Free capacity p e := by
  rcases hf with hf | hf
  · exact .inl (hf.of_consumer hw hr)
  · rcases hr with ⟨h1, h2, -⟩ | ⟨-, h2⟩
    · exact .inr ⟨hf.start, hw ▸ h2 hf.unwrapped, hd.trans (hf.dataEnd.trans hw.symm),
        hf.behind.trans_le h1⟩
    · exact absurd hf.unwrapped (Nat.not_le.mpr h2)

/-- What the producer's part of the invariant needs from a step of the consumer. -/
theorem ProducerInv.of_consumer {s' : Ring} (h : s.ProducerInv capacity)
    (hw : s'.mWriteIndex = s.mWriteIndex) (hd : s'.mDataEnd = s.mDataEnd)
    (hr : Seen s.mReadIndex s.mDataEnd s.mWriteIndex s'.mReadIndex)
    (hpos : s'.mSnapWritePos = s.mSnapWritePos) (hend : s'.mSnapWriteEnd = s.mSnapWriteEnd)
    (hat' : s'.producer = s.producer) : s'.ProducerInv capacity := by
  rw [ProducerInv, hat', hpos, hend]
  rw [ProducerInv] at h
  cases hat : s.producer with
  | idle =>
      simp only [hat] at h ⊢
      exact h.of_consumer hw hr
  | loadWrite size => trivial
  | loadRead size w =>
      simp only [hat] at h ⊢
      exact h.trans hw.symm
  | storeDataEnd size w r =>
      simp only [hat] at h ⊢
      obtain ⟨h1, h2, h3, h4⟩ := h
      rcases hr with ⟨h5, h6, -⟩ | ⟨-, h6⟩
      · exact ⟨h1.trans hw.symm, h2, h3.trans h5, hw ▸ h6 h4⟩
      · exact absurd h4 (Nat.not_le.mpr h6)
  | storeWrite result =>
      simp only [hat] at h ⊢
      exact ⟨h.1, h.2.1, h.2.2.of_consumer hw hd hr⟩

/-- The read index itself is such an index. -/
theorem Inv.seen_read (h : Inv capacity s) :
    Seen s.mReadIndex s.mDataEnd s.mWriteIndex s.mReadIndex :=
  .inl ⟨le_rfl, id, fun hlt => (h.dataEnd hlt).1⟩

/-- And so is the write index. -/
theorem seen_write :
    Seen s.mReadIndex s.mDataEnd s.mWriteIndex s.mWriteIndex := by
  rcases Nat.lt_or_ge s.mWriteIndex s.mReadIndex with hW | hW
  · exact .inr ⟨le_rfl, hW⟩
  · exact .inl ⟨hW, fun _ => le_rfl, fun hlt => absurd hW (Nat.not_le.mpr hlt)⟩

/-- A step of the consumer that loads. -/
theorem Inv.consumer_local {snap : ℕ} {at' : ConsumerAt} (h : Inv capacity s)
    (hc : ({ s with mSnapReadEnd := snap, consumer := at' } : Ring).ConsumerInv) :
    Inv capacity { s with mSnapReadEnd := snap, consumer := at' } where
  writeIndex := h.writeIndex
  dataEnd := h.dataEnd
  live := h.live
  released := h.released
  inOrder := h.inOrder
  inside := h.inside
  producer := h.producer.of_consumer rfl rfl h.seen_read rfl rfl rfl
  consumer := hc

/-- The bytes up to a loaded write index come next in the acquired bytes. -/
theorem Inv.seen_prefix (h : Inv capacity s) (hseen : s.SeenWrite)
    (hlen : s.returnedBytes.length = s.released) :
    s.returnedBytes ++ span s.mReadIndex s.mDataEnd s.mSnapReadEnd <+: s.acquiredBytes := by
  have htake : s.returnedBytes = s.acquiredBytes.take s.released := by
    rw [← hlen]
    exact List.prefix_iff_eq_take.mp h.inOrder
  have hlive : s.acquiredBytes.drop s.released
      = span s.mReadIndex s.mDataEnd s.mSnapReadEnd
        ++ span s.mSnapReadEnd s.mDataEnd s.mWriteIndex := h.live.trans (Seen.span_eq hseen)
  refine ⟨span s.mSnapReadEnd s.mDataEnd s.mWriteIndex, ?_⟩
  rw [List.append_assoc, ← hlive, htake, List.take_append_drop]

/-- **`beginRead` returns what comes next.** -/
theorem Inv.beginReadReturns (h : Inv capacity s) (hseen : s.SeenWrite)
    (hlen : s.returnedBytes.length = s.released) {v : ResultVec}
    (hv : v.bytes = span s.mReadIndex s.mDataEnd s.mSnapReadEnd) :
    Inv capacity (s.beginReadReturns v) := by
  have hbytes : (s.beginReadReturns v).returnedBytes
      = s.returnedBytes ++ span s.mReadIndex s.mDataEnd s.mSnapReadEnd := by
    simp [returnedBytes, Ring.beginReadReturns, hv]
  exact {
    writeIndex := h.writeIndex
    dataEnd := h.dataEnd
    live := h.live
    released := h.released
    inOrder := by
      rw [hbytes]
      exact h.seen_prefix hseen hlen
    inside := h.inside
    producer := h.producer.of_consumer rfl rfl h.seen_read rfl rfl rfl
    consumer := by
      refine ⟨hseen, ?_⟩
      rw [hbytes, List.length_append, hlen]
      rfl }

/-- **`endRead` releases what `beginRead` returned.** -/
theorem Inv.endRead (h : Inv capacity s) (hseen : s.SeenWrite)
    (hlen : s.returnedBytes.length
      = s.released + (span s.mReadIndex s.mDataEnd s.mSnapReadEnd).length) :
    Inv capacity { s with
      mReadIndex := s.mSnapReadEnd
      consumer := .loadWrite
      released := s.returnedBytes.length } where
  writeIndex := h.writeIndex
  dataEnd hlt := by
    dsimp only at hlt ⊢
    rcases hseen with ⟨h1, h2, h3⟩ | ⟨h1, -⟩
    · have hW : s.mWriteIndex < s.mReadIndex := by
        by_contra hW
        exact absurd (h2 (Nat.not_lt.mp hW)) (Nat.not_le.mpr hlt)
      exact ⟨h3 hW, (h.dataEnd hW).2⟩
    · exact absurd h1 (Nat.not_le.mpr hlt)
  live := by
    change s.acquiredBytes.drop s.returnedBytes.length = _
    have hlive : s.acquiredBytes.drop s.released
        = span s.mReadIndex s.mDataEnd s.mSnapReadEnd
          ++ span s.mSnapReadEnd s.mDataEnd s.mWriteIndex := h.live.trans (Seen.span_eq hseen)
    rw [hlen, ← List.drop_drop, hlive, List.drop_left]
  released := h.inOrder.length_le
  inOrder := h.inOrder
  inside := h.inside
  producer := h.producer.of_consumer rfl rfl hseen rfl rfl rfl
  consumer := rfl

/-- **The consumer keeps the invariant.** -/
theorem Inv.consumerStep (h : Inv capacity s) : Inv capacity s.consumerStep := by
  have hc := h.consumer
  rw [Ring.consumerStep]
  rw [ConsumerInv] at hc
  cases hat : s.consumer with
  | loadWrite =>
      simp only [hat] at hc ⊢
      exact h.consumer_local ⟨rfl, seen_write, hc⟩
  | loadRead w =>
      simp only [hat] at hc ⊢
      obtain ⟨rfl, hseen, hlen⟩ := hc
      split
      · rename_i hle
        refine h.beginReadReturns hseen hlen ?_
        rw [span_of_le hle, ResultVec.bytes]
        exact List.append_nil _
      · rename_i hlt
        exact h.consumer_local ⟨rfl, rfl, Nat.not_le.mp hlt, hseen, hlen⟩
  | loadDataEnd w r =>
      simp only [hat] at hc ⊢
      obtain ⟨rfl, rfl, hlt, hseen, hlen⟩ := hc
      split
      · exact h.consumer_local ⟨rfl, rfl, hlt, hseen, hlen⟩
      · -- the wrap point is the read index: there is no first range
        rename_i hD
        refine h.beginReadReturns hseen hlen ?_
        rw [span_of_lt hlt, Nat.sub_eq_zero_of_le (Nat.not_lt.mp hD), ResultVec.bytes]
        exact List.append_nil _
  | loadDataEndAgain w r =>
      simp only [hat] at hc ⊢
      obtain ⟨rfl, rfl, hlt, hseen, hlen⟩ := hc
      refine h.beginReadReturns hseen hlen ?_
      rw [span_of_lt hlt, ResultVec.bytes]
  | storeRead =>
      simp only [hat] at hc ⊢
      exact h.endRead hc.1 hc.2

/-! ### All interleavings

With the two sides separate, a step of the system is a step of one of them, and the invariant
holds in every reachable state.  What a user relies on follows from it without another induction. -/

/-- **Every step keeps the invariant.** -/
theorem Inv.next {s' : Ring} {a : Action} (h : Inv capacity s)
    (hs : Ring.next capacity a s = some s') : Inv capacity s' := by
  cases a with
  | acquire size =>
      rw [Ring.next] at hs
      split at hs
      · rename_i hidle
        cases hs
        exact h.acquire hidle size
      · cases hs
  | producer => exact h.producerStep hs
  | consumer =>
      cases hs
      exact h.consumerStep

/-- The invariant in every state of every interleaving. -/
theorem inv_of_reachable (h : (system capacity).Reachable s) : Inv capacity s :=
  h.invariant (fun _ hs => hs ▸ inv_init) fun _ _ _ hI _ hs => hI.next hs

/-- **The bytes in use are distinct**, those of an `acquire` under way included. -/
theorem Inv.distinct (h : Inv capacity s) :
    (s.liveBytes ++ s.reserved.flatMap Region.bytes).Nodup := by
  have hp := h.producer
  rw [h.live, reserved]
  rw [ProducerInv] at hp
  cases hat : s.producer with
  | storeWrite result =>
      simp only [hat] at hp ⊢
      obtain ⟨hpos, hle, hf⟩ := hp
      rw [hpos] at hle
      rw [List.flatMap_singleton, Region.bytes, hf.span_eq hle]
      exact span_nodup _ _ _
  | idle => simpa using span_nodup _ _ _
  | loadWrite size => simpa using span_nodup _ _ _
  | loadRead size w => simpa using span_nodup _ _ _
  | storeDataEnd size w r => simpa using span_nodup _ _ _

/-- An `acquire` under way is inside the storage. -/
theorem Inv.reserved_inside (h : Inv capacity s) :
    ∀ r ∈ s.reserved, r.start + r.size ≤ capacity := by
  have hp := h.producer
  rw [reserved]
  rw [ProducerInv] at hp
  cases hat : s.producer with
  | storeWrite result =>
      simp only [hat, List.mem_singleton] at hp ⊢
      rintro r rfl
      obtain ⟨hpos, hle, hf⟩ := hp
      exact h.free_inside hf (hpos ▸ hle)
  | idle => simp
  | loadWrite size => simp
  | loadRead size w => simp
  | storeDataEnd size w r => simp

/-- **What a user of the ring relies on.** -/
structure Safe (capacity : ℕ) (s : Ring) : Prop where
  /-- Every region lies inside the storage. -/
  inside : ∀ r ∈ s.acquired ++ s.reserved, r.start + r.size ≤ capacity
  /-- No byte belongs to two regions in use, or twice to one. -/
  distinct : (s.liveBytes ++ s.reserved.flatMap Region.bytes).Nodup
  /-- What the consumer gets is what the producer acquired, in order. -/
  inOrder : s.returnedBytes <+: s.acquiredBytes

/-- **The ring allocator is safe under every interleaving** of the producer and the consumer, with
requests of any size: what is handed out is inside of the storage and used once at a time, and the
consumer gets it in order. -/
theorem acquire_consume_safe (h : (system capacity).Reachable s) : Safe capacity s where
  inside r hr := by
    have hI := inv_of_reachable h
    rcases List.mem_append.mp hr with hr | hr
    · exact hI.inside r hr
    · exact hI.reserved_inside r hr
  distinct := (inv_of_reachable h).distinct
  inOrder := (inv_of_reachable h).inOrder

/-- Behind a wrap: three bytes were consumed, the next two did not fit behind them,
and the consumer has read these and not released them. -/
theorem acquire_consume_safe_wrapped : Safe 4 {
    mWriteIndex := 2, mReadIndex := 3, mDataEnd := 3
    mSnapWritePos := 2, mSnapWriteEnd := 2, mSnapReadEnd := 2
    producer := .idle, consumer := .storeRead
    acquired := [⟨0, 3⟩, ⟨0, 2⟩], returned := [⟨0, 3, 0, 0⟩, ⟨0, 2, 0, 0⟩], released := 3 } :=
  acquire_consume_safe (StepSystem.reachable_foldlM (.init rfl)
    [.acquire 3, .producer, .producer, .producer, .consumer, .consumer, .consumer,
      .acquire 2, .producer, .producer, .producer, .producer, .consumer, .consumer,
      .consumer] (by decide))

end Ring

end LinuxProgram.MemoryAllocator
