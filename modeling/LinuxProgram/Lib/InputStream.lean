import Mathlib

/-!
# Input streams

`std::istream::getline` reads up to a delimiter into a buffer of `n` characters, the last
of which ends the string.  Where the line does not fit, it stops in the middle of the line
and sets `failbit`, and from then on nothing is read.

* `IStream`, `getline` — a stream and the call.
* `getline_line`, `getline_long` — a line that fits and one that does not.
* `getline_rest_lt` — what does not fail has read something.
-/

namespace LinuxProgram.Lib

/-- **An input stream**: what has not been read yet, and two bits of its state. -/
@[ext] structure IStream where
  rest : List Char
  eofbit : Bool
  failbit : Bool
  deriving DecidableEq, Repr

namespace IStream

/-- A stream that has just been opened. -/
def ofString (s : List Char) : IStream := { rest := s, eofbit := false, failbit := false }

/-- What `getline` stores and leaves of a stream that is in order.  The end of the stream
and the delimiter are looked for before the room in the buffer. -/
def readUpTo (rest : List Char) (n : ℕ) (delim : Char) : List Char × IStream :=
  let stored := (rest.takeWhile (· ≠ delim)).take (n - 1)
  match rest.drop stored.length with
  | [] => (stored, { rest := [], eofbit := true, failbit := stored.isEmpty })
  | c :: rest =>
      if c = delim then (stored, ofString rest)
      else (stored, { rest := c :: rest, eofbit := false, failbit := true })

/-- **`getline(s, n, delim)`**: what is stored, and the stream behind it. -/
def getline (s : IStream) (n : ℕ) (delim : Char) : List Char × IStream :=
  if s.eofbit || s.failbit then ([], { s with failbit := true }) else readUpTo s.rest n delim

variable {s : IStream} {n : ℕ} {delim : Char} {text rest : List Char}

theorem getline_failed (h : s.failbit = true) : (s.getline n delim).2.failbit = true := by
  rw [getline, if_pos (by rw [h, Bool.or_true])]

theorem not_failbit_ofString (text : List Char) : ¬ (ofString text).failbit = true :=
  Bool.false_ne_true

theorem getline_ofString (text : List Char) :
    (ofString text).getline n delim = readUpTo text n delim := rfl

/-- At the end of a stream. -/
theorem getline_nil : ((ofString []).getline n delim).2.failbit = true := by
  rw [getline_ofString, readUpTo, List.takeWhile_nil, List.take_nil]
  rfl

/-- **What is stored**, whether the line fits or not. -/
theorem getline_fst (text : List Char) :
    ((ofString text).getline n delim).1 = (text.takeWhile (· ≠ delim)).take (n - 1) := by
  rw [getline_ofString, readUpTo]
  split
  · rfl
  · split <;> rfl

theorem takeWhile_end (h : delim ∉ text) : text.takeWhile (· ≠ delim) = text := by
  rw [List.takeWhile_eq_self_iff]
  intro c hc
  rw [decide_eq_true_eq]
  rintro rfl
  exact h hc

theorem takeWhile_line (h : delim ∉ text) :
    (text ++ delim :: rest).takeWhile (· ≠ delim) = text := by
  have hall : ∀ c ∈ text, decide (c ≠ delim) = true :=
    List.takeWhile_eq_self_iff.mp (takeWhile_end h)
  rw [List.takeWhile_append_of_pos hall, List.takeWhile_cons_of_neg, List.append_nil]
  rw [decide_eq_true_eq]
  exact fun hne => hne rfl

/-- **A line that fits.** -/
theorem getline_line (h : delim ∉ text) (hn : text.length < n) :
    (ofString (text ++ delim :: rest)).getline n delim = (text, ofString rest) := by
  have hstored : text.take (n - 1) = text := List.take_of_length_le (by omega)
  rw [getline_ofString, readUpTo]
  simp only [takeWhile_line h, hstored, List.drop_left, if_true]

/-- **A line that does not fit.** -/
theorem getline_long (h : delim ∉ text) (hn : n ≤ text.length) (hpos : 0 < n) :
    ((ofString (text ++ delim :: rest)).getline n delim).2.failbit = true := by
  have hlt : n - 1 < text.length := by omega
  have hne : text[n - 1] ≠ delim := fun heq => h (heq ▸ List.getElem_mem hlt)
  rw [getline_ofString, readUpTo]
  simp only [takeWhile_line h, List.length_take, Nat.min_eq_left hlt.le,
    List.drop_append_of_le_length hlt.le, List.drop_eq_getElem_cons hlt, List.cons_append,
    if_neg hne]

/-- What is read is not read again. -/
theorem getline_rest_le : (s.getline n delim).2.rest.length ≤ s.rest.length := by
  unfold getline
  split
  · exact le_rfl
  · unfold readUpTo
    dsimp only
    have hdrop := List.length_drop (l := s.rest)
      (i := ((s.rest.takeWhile (· ≠ delim)).take (n - 1)).length)
    split
    · exact Nat.zero_le _
    · rename_i c tail hcons
      rw [hcons, List.length_cons] at hdrop
      split
      · dsimp only [ofString]
        omega
      · dsimp only [List.length_cons]
        omega

theorem readUpTo_rest_lt (h : (readUpTo rest n delim).2.failbit = false) :
    (readUpTo rest n delim).2.rest.length < rest.length := by
  unfold readUpTo at h ⊢
  dsimp only at h ⊢
  generalize hstored : (rest.takeWhile (· ≠ delim)).take (n - 1) = stored at h ⊢
  have hle : stored.length ≤ rest.length := by
    rw [← hstored]
    exact ((List.take_sublist _ _).trans (List.takeWhile_sublist _)).length_le
  have hdrop := List.length_drop (i := stored.length) (l := rest)
  split at h
  · -- the end of the stream, with something in front of it
    rename_i hnil
    rw [hnil, List.length_nil] at hdrop
    have hpos : 0 < stored.length := by
      rw [List.length_pos_iff]
      rintro rfl
      nomatch h
    dsimp only [List.length_nil]
    omega
  · rename_i c tail hcons
    rw [hcons, List.length_cons] at hdrop
    split at h
    · rename_i hc
      rw [if_pos hc]
      dsimp only [ofString]
      omega
    · nomatch h

/-- **What does not fail has read something.** -/
theorem getline_rest_lt (h : (s.getline n delim).2.failbit = false) :
    (s.getline n delim).2.rest.length < s.rest.length := by
  unfold getline at h ⊢
  split at h
  · nomatch h
  · rename_i hgood
    rw [if_neg hgood]
    exact readUpTo_rest_lt h

end IStream

end LinuxProgram.Lib
