import LinuxProgram.Lib.CallSequence
import LinuxProgram.Lib.Pieces

/-!
# proc_read

`proc_read` of `proc_test.c` hands out the buffer `str` of `/proc/test/buf`.  It copies
from the beginning of `str` in every call, and compares the count with all of `MAX_SIZE`
and not with what is left of it.

* `procRead` — one call, and `Session` — an open file with what was read from it.
* `Stream` — reads that go through the buffer.
* `procRead_iff` — they do exactly if every call `Fits`: it does not lead behind the
  buffer, and the bytes it is to hand out are those at the beginning.
* `procRead_bytewise` — two reads of one byte.
-/

namespace LinuxProgram.Kernel.ProcTest

open Lib.CallSequence Lib.Pieces

def maxSize : ℕ := 12

/-- **`str`**, and what the kernel has behind it. -/
structure Buffer where
  str : Vector UInt8 maxSize
  behind : List UInt8

def Buffer.memory (b : Buffer) : List UInt8 := b.str.toList ++ b.behind

/-- An `int`. -/
def toInt (x : ℤ) : ℤ := x.bmod (2 ^ 32)

/-- A `loff_t`, or the difference of two addresses. -/
def toLong (x : ℤ) : ℤ := x.bmod (2 ^ 64)

def EFAULT : ℤ := 14

/-- **An open file**: its position, the bytes that the calls returned, and for each call how
many had been returned before and what it returns. -/
structure Session where
  fPos : ℤ := 0
  returned : List UInt8 := []
  results : List (ℕ × ℤ) := []

/-- **`proc_read`**.  The copy to user space succeeds, unless its length is negative. -/
def procRead (b : Buffer) (s : Session) (count : UInt64) : Session :=
  -- `end-cur`
  let difference := toLong count.toNat
  let retval := if difference > maxSize then toInt (maxSize - s.fPos) else toInt count.toNat
  { fPos := if difference > maxSize then maxSize else toLong (s.fPos + count.toNat)
    returned := s.returned ++ b.memory.take retval.toNat
    results := s.results ++ [(s.returned.length, if retval < 0 then -EFAULT else retval)] }

/-- **Reads as of a stream**: a part of `str` from its beginning, with the position behind
it; no length is negative, and behind the end all lengths are 0. -/
structure Stream (b : Buffer) (s : Session) : Prop where
  front : s.returned <+: b.str.toList
  position : s.fPos = s.returned.length
  bounded : s.fPos ≤ maxSize
  nonneg : ∀ r ∈ s.results, 0 ≤ r.2
  ended : ∀ r ∈ s.results, maxSize ≤ r.1 → r.2 = 0

/-- **A call that fits.**  It is for fewer than `2 ^ 63` bytes; if it is for no more than
`MAX_SIZE`, as many are left; and those it is to hand out are the ones at the beginning. -/
structure Fits (b : Buffer) (s : Session) (count : UInt64) : Prop where
  signed : count.toNat < 2 ^ 63
  inside : count.toNat ≤ maxSize → s.fPos + count.toNat ≤ maxSize
  repeats : piece b.str.toList s.fPos.toNat (min count.toNat (maxSize - s.fPos.toNat)) =
    b.str.toList.take (min count.toNat (maxSize - s.fPos.toNat))

variable {b : Buffer} {s : Session} {count : UInt64} {x : ℤ} {n : ℕ}

theorem toLong_eq (h : 0 ≤ x) (hx : x < 2 ^ 63) : toLong x = x := by
  rw [toLong, Int.bmod_def]
  norm_num
  omega

theorem toLong_neg (h : 2 ^ 63 ≤ x) (hx : x < 2 ^ 64) : toLong x = x - 2 ^ 64 := by
  rw [toLong, Int.bmod_def]
  norm_num
  omega

theorem toInt_eq (h : 0 ≤ x) (hx : x < 2 ^ 31) : toInt x = x := by
  rw [toInt, Int.bmod_def]
  norm_num
  omega

theorem Buffer.take_memory (b : Buffer) (h : n ≤ maxSize) :
    b.memory.take n = b.str.toList.take n := by
  rw [Buffer.memory, List.take_append_of_le_length]
  rw [Vector.length_toList]
  exact h

/-! ### One call -/

/-- What a call goes on by. -/
def handedOut (s : Session) (count : UInt64) : ℕ :=
  if count.toNat ≤ maxSize then count.toNat else maxSize - s.fPos.toNat

theorem handedOut_le (s : Session) (count : UInt64) : handedOut s count ≤ maxSize := by
  unfold handedOut
  split
  · assumption
  · exact Nat.sub_le _ _

/-- The file behind a call that hands out `n` bytes from the beginning. -/
def Session.handOut (b : Buffer) (s : Session) (n : ℕ) : Session where
  fPos := s.fPos + n
  returned := s.returned ++ b.str.toList.take n
  results := s.results ++ [(s.returned.length, (n : ℤ))]

/-- **A call for fewer than `2 ^ 63` bytes.** -/
theorem procRead_eq (hs : Stream b s) (h : count.toNat < 2 ^ 63) :
    procRead b s count = s.handOut b (handedOut s count) := by
  have hle := handedOut_le s count
  have hbounded := hs.bounded
  have hpos : 0 ≤ s.fPos := by
    rw [hs.position]
    exact Int.natCast_nonneg _
  have hdifference : toLong count.toNat = count.toNat :=
    toLong_eq (Int.natCast_nonneg _) (Int.ofNat_lt.mpr h)
  have hretval : (if (count.toNat : ℤ) > maxSize then toInt (maxSize - s.fPos)
      else toInt count.toNat) = handedOut s count := by
    unfold handedOut maxSize at *
    split
    · rw [toInt_eq (by omega) (by omega), if_neg (by omega)]
      omega
    · rw [toInt_eq (by omega) (by omega), if_pos (by omega)]
  have hfPos : (if (count.toNat : ℤ) > maxSize then (maxSize : ℤ)
      else toLong (s.fPos + count.toNat)) = s.fPos + handedOut s count := by
    unfold handedOut maxSize at *
    split
    · rw [if_neg (by omega)]
      omega
    · rw [toLong_eq (by omega) (by omega), if_pos (by omega)]
  unfold procRead Session.handOut
  simp only [hdifference, hretval, hfPos]
  rw [Int.toNat_natCast, b.take_memory hle, if_neg (Int.not_lt.mpr (Int.natCast_nonneg _))]

/-- A call for more sets the position back. -/
theorem not_stream_of_le (hs : Stream b s) (h : 2 ^ 63 ≤ count.toNat) :
    ¬ Stream b (procRead b s count) := by
  intro hnext
  have hbounded := hs.bounded
  have hpos := hs.position
  have hlt : (count.toNat : ℤ) < 2 ^ 64 := by exact_mod_cast count.toNat_lt
  have hge : (2 : ℤ) ^ 63 ≤ count.toNat := by exact_mod_cast h
  have hdifference := toLong_neg hge hlt
  have hposition := hnext.position
  unfold maxSize at hbounded
  have hback : toLong (s.fPos + count.toNat) < s.fPos := by
    rw [toLong, Int.bmod_def]
    norm_num
    omega
  have hlength : (s.returned.length : ℤ) ≤ (procRead b s count).returned.length := by
    rw [procRead, List.length_append]
    omega
  have hfPos : (procRead b s count).fPos = toLong (s.fPos + count.toNat) := by
    simp only [procRead, hdifference]
    rw [if_neg]
    unfold maxSize
    omega
  omega

/-- The bytes at the beginning go on behind those that were returned exactly if the next ones
are the same. -/
theorem handOut_iff (hs : Stream b s) (hn : n ≤ maxSize) : Stream b (s.handOut b n) ↔
    s.fPos.toNat + n ≤ maxSize ∧ piece b.str.toList s.fPos.toNat n = b.str.toList.take n := by
  obtain ⟨k, hk⟩ : ∃ k : ℕ, s.fPos = k := ⟨_, hs.position⟩
  have hlength : s.returned.length = k := Int.ofNat_inj.mp (hs.position.symm.trans hk)
  have hfront : s.returned = b.str.toList.take k := by
    rw [← hlength]
    exact List.prefix_iff_eq_take.mp hs.front
  rw [hk, Int.toNat_natCast]
  constructor
  · rintro ⟨hnext, -, hinside, -, -⟩
    have hfits : k + n ≤ maxSize := by
      rw [← Int.ofNat_le, Nat.cast_add, ← hk]
      exact hinside
    refine ⟨hfits, ?_⟩
    rw [← append_take_iff (by rwa [Vector.length_toList]), ← hfront]
    exact hnext
  · rintro ⟨hfits, hrepeats⟩
    unfold Session.handOut
    refine ⟨?_, ?_, ?_, ?_, ?_⟩
    · rw [hfront, append_take_iff (by rwa [Vector.length_toList])]
      exact hrepeats
    · rw [hs.position, List.length_append, List.length_take, Vector.length_toList,
        Nat.min_eq_left hn, Nat.cast_add]
    · rw [hk, ← Nat.cast_add]
      exact Int.ofNat_le.mpr hfits
    · rw [List.forall_mem_append, List.forall_mem_singleton]
      exact ⟨hs.nonneg, Int.natCast_nonneg _⟩
    · rw [List.forall_mem_append, List.forall_mem_singleton]
      refine ⟨hs.ended, fun hend => ?_⟩
      rw [hlength] at hend
      exact Int.natCast_eq_zero.mpr (by omega)

/-- **A call** goes on in `str` exactly if it fits. -/
theorem procRead_step (hs : Stream b s) : Stream b (procRead b s count) ↔ Fits b s count := by
  rcases Nat.lt_or_ge count.toNat (2 ^ 63) with hsigned | hsigned
  · have hpos : 0 ≤ s.fPos := by
      rw [hs.position]
      exact Int.natCast_nonneg _
    have hbounded := hs.bounded
    -- one byte more than the buffer has is as good as all of them
    have hsize : s.fPos.toNat + handedOut s count ≤ maxSize ↔
        (count.toNat ≤ maxSize → s.fPos + count.toNat ≤ maxSize) := by
      unfold handedOut
      split <;> omega
    have hmin : s.fPos.toNat + handedOut s count ≤ maxSize →
        min count.toNat (maxSize - s.fPos.toNat) = handedOut s count := by
      unfold handedOut
      split <;> omega
    rw [procRead_eq hs hsigned, handOut_iff hs (handedOut_le s count)]
    constructor
    · rintro ⟨hfits, hrepeats⟩
      refine ⟨hsigned, hsize.mp hfits, ?_⟩
      rw [hmin hfits]
      exact hrepeats
    · rintro ⟨-, hinside, hrepeats⟩
      have hfits := hsize.mpr hinside
      rw [hmin hfits] at hrepeats
      exact ⟨hfits, hrepeats⟩
  · constructor
    · exact fun hnext => absurd hnext (not_stream_of_le hs hsigned)
    · exact fun hfits => absurd hfits.signed (Nat.not_lt.mpr hsigned)

/-! ### All calls -/

/-- **The reads of an open file** go through `str` exactly if all calls fit.  `proc_read` copies
from the beginning of `str` at every position, so that apart from the first call only few do. -/
theorem procRead_iff (b : Buffer) (counts : List UInt64) :
    (∀ t ∈ states (procRead b) counts {}, Stream b t) ↔
      ∀ call ∈ calls (procRead b) counts {}, Fits b call.1 call.2 := by
  have hstart : Stream b {} := by
    refine ⟨List.nil_prefix, rfl, Int.natCast_nonneg _, ?_, ?_⟩
    · exact List.forall_mem_nil _
    · exact List.forall_mem_nil _
  apply forall_states_iff (I := fun _ => True)
  · exact fun _ _ _ => trivial
  · exact fun _ _ _ hs => procRead_step hs
  · trivial
  · exact hstart

/-- **Two reads of one byte** return the first byte twice. -/
theorem procRead_bytewise : ¬ ∀ (b : Buffer) (counts : List UInt64),
    ∀ t ∈ states (procRead b) counts {}, Stream b t := by
  intro h
  have htwo := (h ⟨#v[1, 2, 3, 4, 5, 6, 7, 8, 9, 10, 11, 12], []⟩ [1, 1] _
    (.tail _ (.tail _ (.head _)))).front
  exact absurd htwo (by decide)

end LinuxProgram.Kernel.ProcTest
