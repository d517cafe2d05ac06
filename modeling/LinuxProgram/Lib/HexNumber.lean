import Mathlib

/-!
# Hexadecimal numbers

`std::stoull(s, 0, 16)` skips blanks, reads a sign, `0x` and as many hexadecimal digits as
there are, and throws if there are none or the number has more than 64 bits.

* `stoull` — the call, `none` if it throws.
* `stoull_eq` — what it makes of digits between blanks.
* `value_take_pos_iff`, `le_value_take` — decimal digits that are read as hexadecimal ones.
-/

namespace LinuxProgram.Lib.HexNumber

/-- **The digits**, each at its value. -/
def hexDigits : List Char :=
  ['0', '1', '2', '3', '4', '5', '6', '7', '8', '9', 'a', 'b', 'c', 'd', 'e', 'f']

def isHexDigit (c : Char) : Bool := c.toLower ∈ hexDigits

def digitVal (c : Char) : ℕ := hexDigits.idxOf c.toLower

/-- **The number** that digits stand for. -/
def value (ds : List Char) : ℕ := Nat.ofDigits 16 (ds.reverse.map digitVal)

/-- What `std::isspace` holds of. -/
def spaces : List Char := [' ', '\t', '\n', Char.ofNat 11, Char.ofNat 12, '\r']

def isSpace (c : Char) : Bool := c ∈ spaces

/-- A sign, and what is behind it.  `std::stoull` takes a minus too, and negates. -/
def skipSign : List Char → Bool × List Char
  | '-' :: s => (true, s)
  | '+' :: s => (false, s)
  | s => (false, s)

/-- `0x` in front of a digit is skipped. -/
def skipPrefix (s : List Char) : List Char :=
  match s with
  | '0' :: x :: c :: s' => if (x = 'x' || x = 'X') && isHexDigit c then c :: s' else s
  | s => s

/-- **`std::stoull(s, 0, 16)`**, or nothing where it throws: if there is no digit, and if the number
does not fit. -/
def stoull (s : List Char) : Option ℕ :=
  let (neg, s) := skipSign (s.dropWhile isSpace)
  let ds := (skipPrefix s).takeWhile isHexDigit
  if ds = [] then none
  else if 2 ^ 64 ≤ value ds then none
  else some (if neg then (2 ^ 64 - value ds) % 2 ^ 64 else value ds)

variable {ds pad post s : List Char} {c : Char} {m n : ℕ}

/-! ### Values -/

theorem digitVal_lt (h : isHexDigit c = true) : digitVal c < 16 :=
  List.idxOf_lt_length_of_mem (of_decide_eq_true h)

theorem value_cons (c : Char) (ds : List Char) :
    value (c :: ds) = value ds + 16 ^ ds.length * digitVal c := by
  rw [value, List.reverse_cons, List.map_append, Nat.ofDigits_append, List.length_map,
    List.length_reverse, List.map_singleton, Nat.ofDigits_singleton, value]

theorem value_lt (h : ∀ c ∈ ds, isHexDigit c = true) : value ds < 16 ^ ds.length := by
  have hdigits : ∀ v ∈ ds.reverse.map digitVal, v < 16 := by
    intro v hv
    obtain ⟨c, hc, rfl⟩ := List.mem_map.mp hv
    exact digitVal_lt (h c (List.mem_reverse.mp hc))
  have hlt := Nat.ofDigits_lt_base_pow_length (by decide) hdigits
  rwa [List.length_map, List.length_reverse] at hlt

/-! ### Reading -/

theorem not_isHexDigit_of_isSpace (h : isSpace c = true) : isHexDigit c = false := by
  have hall : (spaces.all fun c => !isHexDigit c) = true := by decide
  have hc := List.all_eq_true.mp hall c (of_decide_eq_true h)
  rwa [Bool.not_eq_true'] at hc

theorem skipSign_eq (hminus : '-' ∉ s) (hplus : '+' ∉ s) : skipSign s = (false, s) := by
  unfold skipSign
  split
  · exact absurd (.head _) hminus
  · exact absurd (.head _) hplus
  · rfl

theorem skipPrefix_eq (hx : 'x' ∉ s) (hX : 'X' ∉ s) : skipPrefix s = s := by
  unfold skipPrefix
  split
  · rename_i x c s'
    rw [if_neg]
    rw [Bool.and_eq_true, Bool.or_eq_true, decide_eq_true_eq, decide_eq_true_eq]
    rintro ⟨rfl | rfl, -⟩
    · exact hx (.tail _ (.head _))
    · exact hX (.tail _ (.head _))
  · rfl

theorem notMem_of_forall (hds : ∀ c ∈ ds, isHexDigit c = true)
    (hpost : ∀ c ∈ post, isSpace c = true) (hhex : isHexDigit c = false)
    (hspace : isSpace c = false) : c ∉ ds ++ post := by
  intro hc
  rcases List.mem_append.mp hc with hc | hc
  · exact Bool.false_ne_true (hhex.symm.trans (hds c hc))
  · exact Bool.false_ne_true (hspace.symm.trans (hpost c hc))

theorem takeWhile_isHexDigit (hds : ∀ c ∈ ds, isHexDigit c = true)
    (hpost : ∀ c ∈ post, isSpace c = true) : (ds ++ post).takeWhile isHexDigit = ds := by
  rw [List.takeWhile_append_of_pos hds]
  cases post with
  | nil => rw [List.takeWhile_nil, List.append_nil]
  | cons c post =>
      have hc := not_isHexDigit_of_isSpace (hpost c (.head _))
      rw [List.takeWhile_cons_of_neg (by rw [hc]; exact Bool.false_ne_true), List.append_nil]

/-- The blanks in front are skipped, and no sign or prefix follows. -/
theorem dropWhile_isSpace (hpad : ∀ c ∈ pad, isSpace c = true)
    (hds : ∀ c ∈ ds, isHexDigit c = true) (hne : ds ≠ []) :
    (pad ++ ds ++ post).dropWhile isSpace = ds ++ post := by
  obtain ⟨c, cs, rfl⟩ := List.exists_cons_of_ne_nil hne
  have hc : ¬ isSpace c = true := fun h =>
    Bool.false_ne_true ((not_isHexDigit_of_isSpace h).symm.trans (hds c (.head _)))
  rw [List.append_assoc, List.dropWhile_append_of_pos hpad, List.cons_append,
    List.dropWhile_cons_of_neg hc]

/-- **Digits between blanks** are read as the number they stand for, if it fits. -/
theorem stoull_eq (hpad : ∀ c ∈ pad, isSpace c = true) (hds : ∀ c ∈ ds, isHexDigit c = true)
    (hpost : ∀ c ∈ post, isSpace c = true) :
    stoull (pad ++ ds ++ post) =
      if ds = [] ∨ 2 ^ 64 ≤ value ds then none else some (value ds) := by
  unfold stoull
  by_cases hnil : ds = []
  · have hdrop : (pad ++ ds ++ post).dropWhile isSpace = [] := by
      rw [List.dropWhile_eq_nil_iff, hnil, List.append_nil]
      exact List.forall_mem_append.mpr ⟨hpad, hpost⟩
    rw [hdrop, if_pos (.inl hnil)]
    rfl
  · have hsign : skipSign (ds ++ post) = (false, ds ++ post) :=
      skipSign_eq (notMem_of_forall hds hpost (by decide) (by decide))
        (notMem_of_forall hds hpost (by decide) (by decide))
    have hskip : skipPrefix (ds ++ post) = ds ++ post :=
      skipPrefix_eq (notMem_of_forall hds hpost (by decide) (by decide))
        (notMem_of_forall hds hpost (by decide) (by decide))
    rw [dropWhile_isSpace hpad hds hnil, hsign]
    simp only [hskip, takeWhile_isHexDigit hds hpost, hnil, if_false, false_or,
      Bool.false_eq_true]

/-! ### Decimal digits -/

theorem isHexDigit_digitChar (h : n < 10) :
    isHexDigit n.digitChar = true ∧ digitVal n.digitChar = n := by
  have hall : ∀ n < 10, isHexDigit (Nat.digitChar n) = true ∧ digitVal (Nat.digitChar n) = n := by
    decide
  exact hall n h

theorem isHexDigit_of_mem_toDigits (n : ℕ) : ∀ c ∈ Nat.toDigits 10 n, isHexDigit c = true := by
  induction n using Nat.strong_induction_on with
  | _ n ih =>
      rw [Nat.toDigits_eq_if (by decide)]
      split
      · rename_i hlt
        rw [List.forall_mem_singleton]
        exact (isHexDigit_digitChar hlt).1
      · rename_i hge
        rw [List.forall_mem_append, List.forall_mem_singleton]
        exact ⟨ih (n / 10) (by omega), (isHexDigit_digitChar (Nat.mod_lt n (by decide))).1⟩

/-- The first digit is 0 only for the number 0. -/
theorem exists_toDigits_eq_cons (n : ℕ) :
    ∃ c cs, Nat.toDigits 10 n = c :: cs ∧ (n = 0 → cs = []) ∧ (0 < digitVal c ↔ 0 < n) := by
  induction n using Nat.strong_induction_on with
  | _ n ih =>
      rw [Nat.toDigits_eq_if (by decide)]
      split
      · rename_i hlt
        exact ⟨n.digitChar, [], rfl, fun _ => rfl, by rw [(isHexDigit_digitChar hlt).2]⟩
      · rename_i hge
        obtain ⟨c, cs, hdigits, -, hpos⟩ := ih (n / 10) (by omega)
        rw [hdigits]
        exact ⟨c, cs ++ [(n % 10).digitChar], rfl, by omega, by rw [hpos]; omega⟩

/-- **The first digits of a decimal number** stand for more than 0 exactly if it is more
than 0. -/
theorem value_take_pos_iff (hm : 0 < m) : 0 < value ((Nat.toDigits 10 n).take m) ↔ 0 < n := by
  obtain ⟨c, cs, hdigits, hnil, hpos⟩ := exists_toDigits_eq_cons n
  obtain ⟨m, rfl⟩ := Nat.exists_eq_add_of_lt hm
  rw [hdigits, Nat.zero_add, List.take_succ_cons, value_cons, ← hpos]
  constructor
  · intro h
    by_contra hzero
    have hn : n = 0 := by
      rw [hpos] at hzero
      omega
    rw [hnil hn, List.take_nil, Nat.eq_zero_of_not_pos hzero] at h
    exact absurd h (by decide)
  · intro h
    exact Nat.add_pos_right _ (Nat.mul_pos (Nat.pow_pos (by decide)) h)

/-- **More than 16 digits** are more than 64 bits. -/
theorem le_value_take (h : 16 < ((Nat.toDigits 10 n).take m).length) :
    2 ^ 64 ≤ value ((Nat.toDigits 10 n).take m) := by
  obtain ⟨c, cs, hdigits, hnil, hpos⟩ := exists_toDigits_eq_cons n
  cases m with
  | zero =>
      rw [List.take_zero] at h
      nomatch h
  | succ m =>
      rw [hdigits, List.take_succ_cons, List.length_cons] at h
      rw [hdigits, List.take_succ_cons, value_cons]
      have hn : 0 < n := by
        by_contra hzero
        rw [hnil (Nat.eq_zero_of_not_pos hzero), List.take_nil] at h
        exact absurd h (by decide)
      have hpow : 16 ^ 16 ≤ 16 ^ (cs.take m).length :=
        Nat.pow_le_pow_right (by decide) (by omega)
      have hmul := Nat.mul_le_mul hpow (hpos.mpr hn)
      have hbits : 2 ^ 64 = 16 ^ 16 * 1 := by decide
      rw [hbits]
      exact hmul.trans (Nat.le_add_left _ _)

/-- **Up to 16 digits** have room. -/
theorem value_lt_two_pow (hds : ∀ c ∈ ds, isHexDigit c = true) (h : ds.length ≤ 16) :
    value ds < 2 ^ 64 := by
  have hpow : 16 ^ ds.length ≤ 16 ^ 16 := Nat.pow_le_pow_right (by decide) h
  have hbits : 2 ^ 64 = 16 ^ 16 := by decide
  rw [hbits]
  exact (value_lt hds).trans_le hpow

end LinuxProgram.Lib.HexNumber
