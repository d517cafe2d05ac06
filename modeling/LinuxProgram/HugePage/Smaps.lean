import LinuxProgram.HugePage.IsHugePageMapping

/-!
# The text of smaps

A mapping is a block of lines: the range with what else is said of the file, fields with a
name and a value, and the flags.  This file says what `isHugePageMapping` makes of each
kind of line.

* `Block`, `smapsText` — the format.
* `readRange_header`, `parseLine_anonHugePages`, `parseLine_other`, `parseLine_vmFlags` —
  the lines, as they are read.

A number is read as long as up to 16 of its digits are among the first 127 characters of
its value, and of the flags those among the first 127 characters are seen, which are 42.
-/

namespace LinuxProgram.HugePage

open Lib Lib.HexNumber

/-! ### The format -/

/-- A part of a line. -/
def Plain (s : List Char) : Prop := '\n' ∉ s ∧ Char.ofNat 0 ∉ s

instance (s : List Char) : Decidable (Plain s) :=
  inferInstanceAs (Decidable ('\n' ∉ s ∧ Char.ofNat 0 ∉ s))

/-- **An address**, in hexadecimal digits. -/
structure Address where
  digits : List Char
  hex : ∀ c ∈ digits, isHexDigit c = true
  ne_nil : digits ≠ []
  length_le : digits.length ≤ 16

def Address.addr (a : Address) : ℕ := value a.digits

/-- **A field** below the range: the one that is looked for, with blanks in front of its
number, or another one. -/
inductive Field
  | anonHugePages (pad : List Char) (hpad : ∀ c ∈ pad, c = ' ' ∨ c = '\t') (kB : ℕ)
  | other (name value : List Char) (hname : Plain name) (hcolon : ':' ∉ name)
      (hvalue : Plain value) (hanon : name ≠ anonHPField) (hend : name ≠ endField)

/-- **A flag** has two letters. -/
@[ext] structure Flag where
  fst : Char
  snd : Char
  plain : Plain [fst, snd]
  notBlank : ' ' ∉ [fst, snd]
  deriving DecidableEq

/-- The flag of mappings with huge pages. -/
def Flag.ht : Flag := { fst := 'h', snd := 't', plain := by decide, notBlank := by decide }

/-- **A line.** -/
inductive Line
  | header (lo hi : Address) (rest : List Char) (hrest : Plain rest)
  | field (f : Field)
  | vmFlags (flags : List Flag) (blanks : ℕ)

/-- The flags, with a blank in front of each. -/
def flagsText (flags : List Flag) (blanks : ℕ) : List Char :=
  (flags.flatMap fun f => [' ', f.fst, f.snd]) ++ List.replicate blanks ' '

def Field.text : Field → List Char
  | .anonHugePages pad _ kB => anonHPField ++ ':' :: (pad ++ Nat.toDigits 10 kB ++ [' ', 'k', 'B'])
  | .other name value .. => name ++ ':' :: value

def Line.text : Line → List Char
  | .header lo hi rest _ => lo.digits ++ '-' :: (hi.digits ++ ' ' :: rest)
  | .field f => f.text
  | .vmFlags flags blanks => endField ++ ':' :: flagsText flags blanks

/-- **A block.** -/
structure Block where
  lo : Address
  hi : Address
  rest : List Char
  hrest : Plain rest
  fields : List Field
  flags : List Flag
  blanks : ℕ

/-- The lines below the first one. -/
def Block.below (b : Block) : List Line := b.fields.map .field ++ [.vmFlags b.flags b.blanks]

def Block.lines (b : Block) : List Line := .header b.lo b.hi b.rest b.hrest :: b.below

/-- Lines as they are in a file. -/
def linesText (ls : List Line) : List Char := ls.flatMap fun l => l.text ++ ['\n']

/-- **The text.** -/
def smapsText (blocks : List Block) : List Char := linesText (blocks.flatMap Block.lines)

/-! ### Lines have no end in the middle -/

theorem Plain.append {s t : List Char} (hs : Plain s) (ht : Plain t) : Plain (s ++ t) :=
  ⟨fun h => (List.mem_append.mp h).elim hs.1 ht.1, fun h => (List.mem_append.mp h).elim hs.2 ht.2⟩

theorem Plain.cons {c : Char} {s : List Char} (hc : Plain [c]) (hs : Plain s) : Plain (c :: s) :=
  hc.append hs

theorem plain_of_isHexDigit {ds : List Char} (h : ∀ c ∈ ds, isHexDigit c = true) : Plain ds :=
  ⟨fun hc => absurd (h _ hc) (by decide), fun hc => absurd (h _ hc) (by decide)⟩

theorem plain_replicate {c : Char} (hc : Plain [c]) (n : ℕ) : Plain (List.replicate n c) :=
  ⟨fun h => hc.1 (List.eq_of_mem_replicate h ▸ .head _),
    fun h => hc.2 (List.eq_of_mem_replicate h ▸ .head _)⟩

theorem plain_flagsText (flags : List Flag) (blanks : ℕ) : Plain (flagsText flags blanks) := by
  induction flags with
  | nil => exact plain_replicate (by decide) blanks
  | cons f flags ih => exact Plain.cons (by decide) (f.plain.append ih)

theorem Line.plain : ∀ l : Line, Plain l.text
  | .header lo hi _ hrest =>
      (plain_of_isHexDigit lo.hex).append
        (.cons (by decide) ((plain_of_isHexDigit hi.hex).append (.cons (by decide) hrest)))
  | .field (.anonHugePages pad hpad kB) => by
      have hblanks : Plain pad :=
        ⟨fun h => absurd (hpad _ h) (by decide), fun h => absurd (hpad _ h) (by decide)⟩
      exact Plain.append (by decide) (.cons (by decide) ((hblanks.append
        (plain_of_isHexDigit (isHexDigit_of_mem_toDigits kB))).append (by decide)))
  | .field (.other _ _ hname _ hvalue _ _) => hname.append (.cons (by decide) hvalue)
  | .vmFlags flags blanks =>
      Plain.append (by decide) (.cons (by decide) (plain_flagsText flags blanks))

theorem stringStream_text (l : Line) : stringStream l.text = .ofString l.text :=
  congrArg IStream.ofString (IStream.takeWhile_end l.plain.2)

/-! ### The first line -/

theorem stoull_address (a : Address) : stoull a.digits = some a.addr := by
  have hnil : ∀ c ∈ ([] : List Char), isSpace c = true := List.forall_mem_nil _
  have h := stoull_eq hnil a.hex hnil
  have hlt := value_lt_two_pow a.hex a.length_le
  rw [List.nil_append, List.append_nil, if_neg (by rw [not_or, not_le]; exact ⟨a.ne_nil, hlt⟩)] at h
  exact h

theorem readRange_header (lo hi : Address) (rest : List Char) (hrest : Plain rest) :
    readRange (Line.header lo hi rest hrest).text = some (lo.addr, hi.addr) := by
  have hdash : '-' ∉ lo.digits := fun h => absurd (lo.hex _ h) (by decide)
  have hblank : ' ' ∉ hi.digits := fun h => absurd (hi.hex _ h) (by decide)
  have hlo := lo.length_le
  have hhi := hi.length_le
  rw [readRange, stringStream_text, Line.text]
  simp only [IStream.getline_line hdash (show lo.digits.length < 32 by omega),
    IStream.getline_line hblank (show hi.digits.length < 32 by omega), stoull_address,
    Option.bind_eq_bind, Option.bind_some]

/-! ### The lines below -/

variable {rangeL rangeR start stop : ℕ}

theorem getline_name {name value : List Char} (hcolon : ':' ∉ name) :
    ((IStream.ofString (name ++ ':' :: value)).getline 128 ':').1 = name.take 127 := by
  rw [IStream.getline_fst, IStream.takeWhile_line hcolon]

/-- A name that is cut off is too long for a name that is looked for. -/
theorem take_ne {name field : List Char} (hne : name ≠ field) (hlength : field.length < 127) :
    name.take 127 ≠ field := by
  intro heq
  have hle := congrArg List.length heq
  rw [List.length_take] at hle
  exact hne ((List.take_of_length_le (by omega)).symm.trans heq)

theorem parseLine_other {name value : List Char} (hname : Plain name) (hcolon : ':' ∉ name)
    (hvalue : Plain value) (hanon : name ≠ anonHPField) (hend : name ≠ endField) :
    parseLine rangeL rangeR start stop
      (Line.field (.other name value hname hcolon hvalue hanon hend)).text = some .next := by
  rw [parseLine, stringStream_text]
  simp only [Line.text, Field.text, getline_name hcolon, take_ne hanon (by decide),
    take_ne hend (by decide), if_false]

/-- **The digits of a number that are read.** -/
def digitsRead (pad : List Char) (kB : ℕ) : List Char :=
  (Nat.toDigits 10 kB).take (127 - pad.length)

theorem stoull_number {pad : List Char} (hpad : ∀ c ∈ pad, c = ' ' ∨ c = '\t') (kB : ℕ) :
    stoull ((pad ++ Nat.toDigits 10 kB ++ [' ']).take 127) =
      if digitsRead pad kB = [] ∨ 16 < (digitsRead pad kB).length then none
      else some (value (digitsRead pad kB)) := by
  have hhex : ∀ c ∈ digitsRead pad kB, isHexDigit c = true := fun c hc =>
    isHexDigit_of_mem_toDigits kB c (List.mem_of_mem_take hc)
  have hspace : ∀ c ∈ pad.take 127, isSpace c = true := by
    intro c hc
    rcases hpad c (List.mem_of_mem_take hc) with rfl | rfl <;> decide
  have hpost : ∀ n, ∀ c ∈ [' '].take n, isSpace c = true := by
    intro n c hc
    rw [List.mem_singleton.mp (List.mem_of_mem_take hc)]
    decide
  have hbits : 2 ^ 64 ≤ value (digitsRead pad kB) ↔ 16 < (digitsRead pad kB).length := by
    constructor
    · intro h
      by_contra hle
      exact absurd h (not_le.mpr (value_lt_two_pow hhex (not_lt.mp hle)))
    · exact le_value_take
  rw [List.take_append, List.take_append, ← digitsRead, stoull_eq hspace hhex (hpost _)]
  simp only [hbits]

/-- **The field that is looked for.** -/
theorem parseLine_anonHugePages {pad : List Char} (hpad : ∀ c ∈ pad, c = ' ' ∨ c = '\t')
    (kB : ℕ) :
    parseLine rangeL rangeR start stop (Line.field (.anonHugePages pad hpad kB)).text =
      if digitsRead pad kB = [] ∨ 16 < (digitsRead pad kB).length then none
      else some (if rangeL ≤ start ∧ stop ≤ rangeR ∧ 0 < kB then .found else .next) := by
  have hk : 'k' ∉ pad ++ Nat.toDigits 10 kB ++ [' '] := by
    rw [List.append_assoc, List.mem_append, List.mem_append, not_or, not_or]
    refine ⟨fun h => absurd (hpad _ h) (by decide), fun h => ?_, by decide⟩
    exact absurd (isHexDigit_of_mem_toDigits kB _ h) (by decide)
  have hvalue : ((IStream.ofString (pad ++ Nat.toDigits 10 kB ++ [' ', 'k', 'B'])).getline 128
      'k').1 = (pad ++ Nat.toDigits 10 kB ++ [' ']).take 127 := by
    have hsplit : pad ++ Nat.toDigits 10 kB ++ [' ', 'k', 'B'] =
        pad ++ Nat.toDigits 10 kB ++ [' '] ++ 'k' :: ['B'] := by
      rw [List.append_assoc (pad ++ Nat.toDigits 10 kB)]
      rfl
    rw [IStream.getline_fst, hsplit, IStream.takeWhile_line hk]
  rw [parseLine, stringStream_text, Line.text, Field.text,
    IStream.getline_line (by decide) (by decide)]
  simp only [if_true, hvalue, stoull_number hpad]
  by_cases hread : digitsRead pad kB = [] ∨ 16 < (digitsRead pad kB).length
  · rw [if_pos hread, if_pos hread, Option.map_none]
  · have hroom : 0 < 127 - pad.length := by
      rw [Nat.pos_iff_ne_zero]
      intro hzero
      exact hread (.inl (by rw [digitsRead, hzero, List.take_zero]))
    rw [if_neg hread, if_neg hread, Option.map_some]
    simp only [digitsRead, value_take_pos_iff hroom]

/-! ### The flags -/

/-- Up to the room of the buffer there are whole flags, and blanks. -/
theorem take_flagsText (flags : List Flag) (blanks n : ℕ) :
    ∃ blanks', (flagsText flags blanks).take (3 * n + 1) = flagsText (flags.take n) blanks' := by
  induction n generalizing flags with
  | zero =>
      cases flags with
      | nil => exact ⟨min 1 blanks, List.take_replicate⟩
      | cons f flags => exact ⟨1, rfl⟩
  | succ n ih =>
      cases flags with
      | nil => exact ⟨min (3 * (n + 1) + 1) blanks, List.take_replicate⟩
      | cons f flags =>
          obtain ⟨blanks', hrest⟩ := ih flags
          refine ⟨blanks', ?_⟩
          have hthree : 3 * (n + 1) + 1 = 3 * n + 1 + 1 + 1 + 1 := by omega
          have hcons : flagsText (f :: flags) blanks =
              ' ' :: f.fst :: f.snd :: flagsText flags blanks := rfl
          rw [hcons, hthree, List.take_succ_cons, List.take_succ_cons, List.take_succ_cons, hrest]
          rfl

/-- **`find(" ht")`** finds the flag. -/
theorem infix_flagsText (flags : List Flag) (blanks : ℕ) :
    [' ', 'h', 't'] <:+: flagsText flags blanks ↔ Flag.ht ∈ flags := by
  induction flags with
  | nil =>
      refine iff_of_false (fun h => ?_) List.not_mem_nil
      have hmem : 'h' ∈ List.replicate blanks ' ' := h.subset (.tail _ (.head _))
      exact absurd (List.eq_of_mem_replicate hmem) (by decide)
  | cons f flags ih =>
      have hfst : ' ' ≠ f.fst := fun h => f.notBlank (h ▸ .head _)
      have hsnd : ' ' ≠ f.snd := fun h => f.notBlank (h ▸ .tail _ (.head _))
      have hcons : flagsText (f :: flags) blanks =
          ' ' :: f.fst :: f.snd :: flagsText flags blanks := rfl
      have heq : Flag.ht = f ↔ 'h' = f.fst ∧ 't' = f.snd := Flag.ext_iff
      rw [hcons, List.infix_cons_iff, List.infix_cons_iff, List.infix_cons_iff]
      simp only [List.cons_prefix_cons, hfst, hsnd, false_and, false_or, true_and,
        List.nil_prefix, and_true, ih, List.mem_cons, heq]

/-- **The flags**, of which 42 are seen. -/
theorem parseLine_vmFlags (flags : List Flag) (blanks : ℕ) :
    parseLine rangeL rangeR start stop (Line.vmFlags flags blanks).text =
      some (if rangeL ≤ start ∧ stop ≤ rangeR ∧ Flag.ht ∈ flags.take 42 then .found
        else .leave) := by
  have hvalue : ((IStream.ofString (flagsText flags blanks)).getline 128 '\n').1 =
      (flagsText flags blanks).take (3 * 42 + 1) := by
    rw [IStream.getline_fst, IStream.takeWhile_end (plain_flagsText flags blanks).1]
  obtain ⟨blanks', htake⟩ := take_flagsText flags blanks 42
  have hdiff : endField ≠ anonHPField := by decide
  rw [parseLine, stringStream_text, Line.text, IStream.getline_line (by decide) (by decide)]
  simp only [hdiff, if_false, if_true, hvalue, htake, infix_flagsText]

end LinuxProgram.HugePage
