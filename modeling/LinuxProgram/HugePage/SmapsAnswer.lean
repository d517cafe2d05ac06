import LinuxProgram.HugePage.Smaps
import LinuxProgram.Lib.Loops

/-!
# The answer for a text of smaps

The loops stop at the first line that decides, does not fit the buffer, or holds a number
that cannot be read.  A line that does not fit sets `failbit`, and both loops end: the rest
of the text is lost.

* `stopAt` — whether the loops stop at a line.
* `parseBlocks_smapsText` — the first such line gives the answer.
* `isHugePageMapping_iff` — the answer is right exactly if a line that decides, where there
  is one, comes before all that stop the loops otherwise.
* `isHugePageMapping_longPath` — a file with a long path.
-/

namespace LinuxProgram.HugePage

open Lib Lib.HexNumber

/-- The line fits the buffer. -/
def Line.Short (l : Line) : Prop := l.text.length < 2048

instance (l : Line) : Decidable l.Short := inferInstanceAs (Decidable (l.text.length < 2048))

/-- A number of the line can be read. -/
def Line.Readable : Line → Prop
  | .field (.anonHugePages pad _ kB) => digitsRead pad kB ≠ [] ∧ (digitsRead pad kB).length ≤ 16
  | .field (.other ..) => True
  | .header .. => True
  | .vmFlags .. => True

instance : ∀ l : Line, Decidable l.Readable
  | .field (.anonHugePages pad _ kB) =>
      inferInstanceAs (Decidable (digitsRead pad kB ≠ [] ∧ (digitsRead pad kB).length ≤ 16))
  | .field (.other ..) => .isTrue trivial
  | .header .. => .isTrue trivial
  | .vmFlags .. => .isTrue trivial

/-- The line says that there are huge pages, and it is seen. -/
def Line.Decides : Line → Prop
  | .field (.anonHugePages _ _ kB) => 0 < kB
  | .field (.other ..) => False
  | .header .. => False
  | .vmFlags flags _ => Flag.ht ∈ flags.take 42

instance : ∀ l : Line, Decidable l.Decides
  | .field (.anonHugePages _ _ kB) => inferInstanceAs (Decidable (0 < kB))
  | .field (.other ..) => .isFalse id
  | .header .. => .isFalse id
  | .vmFlags flags _ => inferInstanceAs (Decidable (Flag.ht ∈ flags.take 42))

/-- The range of the mapping covers the one that is looked for. -/
def Block.Covers (b : Block) (start stop : ℕ) : Prop := b.lo.addr ≤ start ∧ stop ≤ b.hi.addr

instance (b : Block) (start stop : ℕ) : Decidable (b.Covers start stop) :=
  inferInstanceAs (Decidable (_ ∧ _))

/-- Why the loops stop. -/
inductive Stop
  | long
  | unreadable
  | found

/-- **Whether the loops stop at a line.** -/
def stopAt (start stop : ℕ) (b : Block) (l : Line) : Option Stop :=
  if ¬ l.Short then some .long
  else if ¬ l.Readable then some .unreadable
  else if b.Covers start stop ∧ l.Decides then some .found
  else none

variable {start stop : ℕ} {b : Block} {blocks : List Block} {l : Line} {rest : List Char}

/-! ### The inner loop

A pass reads one line and looks for two keys in it.  It ends the loop at a line that decides, at a
number that throws, or at the next header, and otherwise goes on; a line that does not fit the
buffer leaves the stream in a state in which every further read fails. -/

/-- How a pass ends that does not stop the loops. -/
def Line.pass : Line → Pass
  | .vmFlags .. => .leave
  | _ => .next

theorem parseLine_field (b : Block) (f : Field) :
    parseLine b.lo.addr b.hi.addr start stop (Line.field f).text =
      if ¬ (Line.field f).Readable then none
      else some (if b.Covers start stop ∧ (Line.field f).Decides then .found else .next) := by
  cases f with
  | anonHugePages pad hpad kB =>
      have hread : ¬ (digitsRead pad kB ≠ [] ∧ (digitsRead pad kB).length ≤ 16) ↔
          digitsRead pad kB = [] ∨ 16 < (digitsRead pad kB).length := by
        rw [not_and_or, not_not, not_le]
      rw [parseLine_anonHugePages]
      simp only [Line.Readable, Line.Decides, Block.Covers, hread, and_assoc]
  | other name value hname hcolon hvalue hanon hend =>
      rw [parseLine_other]
      simp only [Line.Readable, Line.Decides, not_true_eq_false, and_false, if_false]

theorem parseLine_below (hl : l ∈ b.below) :
    parseLine b.lo.addr b.hi.addr start stop l.text =
      if ¬ l.Readable then none
      else some (if b.Covers start stop ∧ l.Decides then .found else l.pass) := by
  rcases List.mem_append.mp hl with hl | hl
  · obtain ⟨f, -, rfl⟩ := List.mem_map.mp hl
    exact parseLine_field b f
  · rw [List.mem_singleton.mp hl, parseLine_vmFlags]
    simp only [Line.Readable, Line.Decides, Line.pass, Block.Covers, not_true_eq_false, if_false,
      and_assoc]

/-- A line that fits is read. -/
theorem getline_text (h : l.Short) (rest : List Char) :
    (IStream.ofString (l.text ++ '\n' :: rest)).getline 2048 '\n' = (l.text, .ofString rest) :=
  IStream.getline_line l.plain.1 h

/-- A line that does not fit ends everything. -/
theorem getline_text_failbit (h : ¬ l.Short) (rest : List Char) :
    ((IStream.ofString (l.text ++ '\n' :: rest)).getline 2048 '\n').2.failbit = true :=
  IStream.getline_long l.plain.1 (not_lt.mp h) (by decide)

/-- **How the inner loop ends**, depending on why it stops. -/
def Ends (rest : List Char) : Option Stop → Option Inner → Prop
  | none, r => r = some (.left (.ofString rest))
  | some .long, r => ∃ s, r = some (.left s) ∧ s.failbit = true
  | some .unreadable, r => r = none
  | some .found, r => r = some .found

theorem linesText_cons (l : Line) (ls : List Line) (rest : List Char) :
    linesText (l :: ls) ++ rest = l.text ++ '\n' :: (linesText ls ++ rest) := by
  rw [linesText, List.flatMap_cons, List.append_assoc, List.append_assoc]
  rfl

/-- **A pass** of the inner loop stops it, or leads to the next line or behind the block. -/
theorem parseLines_cons {ls : List Line} (hl : l ∈ b.below)
    (hnext : l.pass = .next → Ends rest (ls.findSome? (stopAt start stop b))
      (parseLines b.lo.addr b.hi.addr start stop (.ofString (linesText ls ++ rest))))
    (hleave : l.pass = .leave → ls = []) :
    Ends rest ((l :: ls).findSome? (stopAt start stop b))
      (parseLines b.lo.addr b.hi.addr start stop (.ofString (linesText (l :: ls) ++ rest))) := by
  rw [linesText_cons, List.findSome?_cons, stopAt]
  by_cases hshort : l.Short
  · rw [if_neg (not_not.mpr hshort), parseLines_eq (getline_text hshort _),
      if_neg (IStream.not_failbit_ofString _), parseLine_below hl]
    by_cases hread : l.Readable
    · rw [if_neg (not_not.mpr hread), if_neg (not_not.mpr hread)]
      by_cases hfound : b.Covers start stop ∧ l.Decides
      · rw [if_pos hfound, if_pos hfound]
        rfl
      · rw [if_neg hfound, if_neg hfound]
        cases hpass : l.pass with
        | next => exact hnext hpass
        | leave =>
            rw [hleave hpass]
            rfl
        | found => cases l <;> nomatch hpass
    · rw [if_pos hread, if_pos hread]
      rfl
  · have hfail := getline_text_failbit hshort (linesText ls ++ rest)
    rw [if_pos hshort, parseLines_eq (Prod.eta _).symm, if_pos hfail]
    exact ⟨_, rfl, hfail⟩

theorem parseLines_fields (b : Block) (rest : List Char) {fs : List Field}
    (hfs : ∀ f ∈ fs, f ∈ b.fields) :
    Ends rest ((fs.map Line.field ++ [Line.vmFlags b.flags b.blanks]).findSome?
        (stopAt start stop b))
      (parseLines b.lo.addr b.hi.addr start stop
        (.ofString
          (linesText (fs.map Line.field ++ [Line.vmFlags b.flags b.blanks]) ++ rest))) := by
  induction fs with
  | nil =>
      exact parseLines_cons (List.mem_append_right _ (.head _)) (fun h => nomatch h) fun _ => rfl
  | cons f fs ih =>
      rw [List.forall_mem_cons] at hfs
      exact parseLines_cons (List.mem_append_left _ (List.mem_map_of_mem hfs.1))
        (fun _ => ih hfs.2) fun h => nomatch h

/-- **The inner loop** stops at the first line that stops it, or behind the block. -/
theorem parseLines_block (start stop : ℕ) (b : Block) (rest : List Char) :
    Ends rest (b.below.findSome? (stopAt start stop b))
      (parseLines b.lo.addr b.hi.addr start stop (.ofString (linesText b.below ++ rest))) :=
  parseLines_fields b rest fun _ hf => hf

/-! ### The outer loop -/

/-- The lines of a text, each with its block. -/
def entries (blocks : List Block) : List (Block × Line) :=
  blocks.flatMap fun b => b.lines.map fun l => (b, l)

/-- Why the loops stop. -/
def firstStop (start stop : ℕ) (blocks : List Block) : Option Stop :=
  (entries blocks).findSome? fun e => stopAt start stop e.1 e.2

/-- What is returned then. -/
def answer : Option Stop → Option Bool
  | none => some false
  | some .long => some false
  | some .unreadable => none
  | some .found => some true

theorem firstStop_cons (b : Block) (blocks : List Block) :
    firstStop start stop (b :: blocks) =
      (b.lines.findSome? (stopAt start stop b)).or (firstStop start stop blocks) := by
  rw [firstStop, entries, List.flatMap_cons, List.findSome?_append, List.findSome?_map]
  rfl

theorem stopAt_header (b b' : Block) :
    stopAt start stop b (.header b'.lo b'.hi b'.rest b'.hrest) =
      if (Line.header b'.lo b'.hi b'.rest b'.hrest).Short then none else some .long := by
  rw [stopAt, ite_not]
  simp only [Line.Readable, Line.Decides, not_true_eq_false, and_false, if_false]

theorem smapsText_cons (b : Block) (blocks : List Block) :
    smapsText (b :: blocks) = (Line.header b.lo b.hi b.rest b.hrest).text ++
      '\n' :: (linesText b.below ++ smapsText blocks) := by
  have hlines : (b :: blocks).flatMap Block.lines =
      Line.header b.lo b.hi b.rest b.hrest :: (b.below ++ blocks.flatMap Block.lines) := rfl
  rw [smapsText, hlines, ← List.append_nil (linesText _), linesText_cons, List.append_nil,
    linesText, List.flatMap_append]
  rfl

/-- A stream that has failed. -/
theorem parseBlocks_failbit {s : IStream} (h : s.failbit = true) :
    parseBlocks start stop s = some false := by
  rw [parseBlocks_eq (Prod.eta _).symm, if_pos (IStream.getline_failed h)]

/-- **The first line that stops the loops** gives the answer. -/
theorem parseBlocks_smapsText (blocks : List Block) :
    parseBlocks start stop (.ofString (smapsText blocks)) =
      answer (firstStop start stop blocks) := by
  induction blocks with
  | nil =>
      rw [parseBlocks_eq (Prod.eta _).symm]
      exact if_pos IStream.getline_nil
  | cons b blocks ih =>
      rw [smapsText_cons, firstStop_cons, Block.lines, List.findSome?_cons, stopAt_header]
      by_cases hshort : (Line.header b.lo b.hi b.rest b.hrest).Short
      · rw [if_pos hshort, parseBlocks_eq (getline_text hshort _),
          if_neg (IStream.not_failbit_ofString _), readRange_header]
        have hends := parseLines_block start stop b (smapsText blocks)
        dsimp only
        cases hstop : b.below.findSome? (stopAt start stop b) with
        | none =>
            rw [hstop, Ends] at hends
            rw [hends, Option.none_or]
            exact ih
        | some why =>
            rw [hstop] at hends
            rw [Option.some_or]
            cases why with
            | long =>
                obtain ⟨s, hs, hfail⟩ := hends
                rw [hs]
                exact parseBlocks_failbit hfail
            | unreadable =>
                rw [Ends] at hends
                rw [hends]
                rfl
            | found =>
                rw [Ends] at hends
                rw [hends]
                rfl
      · rw [if_neg hshort, parseBlocks_eq (Prod.eta _).symm, if_pos (getline_text_failbit hshort _)]
        rfl

/-! ### What stops the loops

The answer depends on the first line that stops the loops, and what is asked for on whether there
is a line that decides at all.  The difference is made by the lines in front of it: one that is
too long, or a number that throws. -/

theorem stopAt_eq_none (h : stopAt start stop b l = none) : l.Short ∧ l.Readable := by
  unfold stopAt at h
  split_ifs at h with hshort hread
  exact ⟨hshort, hread⟩

theorem stopAt_eq_unreadable_iff :
    stopAt start stop b l = some .unreadable ↔ l.Short ∧ ¬ l.Readable := by
  unfold stopAt
  split_ifs with hshort hread hfound
  · exact iff_of_false (fun h => nomatch h) fun h => h.2 hread
  · exact iff_of_false (fun h => nomatch h) fun h => h.2 hread
  · exact iff_of_true rfl ⟨hshort, hread⟩
  · exact iff_of_false (fun h => nomatch h) fun h => hshort h.1

theorem stopAt_eq_found_iff : stopAt start stop b l = some .found ↔
    (l.Short ∧ l.Readable) ∧ b.Covers start stop ∧ l.Decides := by
  unfold stopAt
  split_ifs with hshort hread hfound
  · exact iff_of_true rfl ⟨⟨hshort, hread⟩, hfound⟩
  · exact iff_of_false (fun h => nomatch h) fun h => hfound h.2
  · exact iff_of_false (fun h => nomatch h) fun h => hread h.1.2
  · exact iff_of_false (fun h => nomatch h) fun h => hshort h.1.1

/-- **There are huge pages** in a mapping. -/
def Block.HugePages (b : Block) : Prop :=
  (∃ pad hpad kB, Field.anonHugePages pad hpad kB ∈ b.fields ∧ 0 < kB) ∨ Flag.ht ∈ b.flags

/-- **What is asked for**: a mapping with huge pages around the range. -/
def Mapped (blocks : List Block) (start stop : ℕ) : Prop :=
  ∃ b ∈ blocks, b.Covers start stop ∧ b.HugePages

/-- A line that decides is reached, and all lines up to it are read. -/
def SeenInTime (blocks : List Block) (start stop : ℕ) : Prop :=
  ∃ pre e post, entries blocks = pre ++ e :: post ∧
    ((e.2.Short ∧ e.2.Readable) ∧ e.1.Covers start stop ∧ e.2.Decides) ∧
    ∀ e' ∈ pre, e'.2.Short ∧ e'.2.Readable

/-- A number that cannot be read is reached. -/
def ThrowsInTime (blocks : List Block) : Prop :=
  ∃ pre e post, entries blocks = pre ++ e :: post ∧ (e.2.Short ∧ ¬ e.2.Readable) ∧
    ∀ e' ∈ pre, e'.2.Short

theorem hugePages_of_decides (hl : l ∈ b.lines) (h : l.Decides) : b.HugePages := by
  rcases List.mem_cons.mp hl with rfl | hl
  · exact h.elim
  · rcases List.mem_append.mp hl with hl | hl
    · obtain ⟨f, hf, rfl⟩ := List.mem_map.mp hl
      cases f with
      | anonHugePages pad hpad kB => exact .inl ⟨pad, hpad, kB, hf, h⟩
      | other => exact h.elim
    · rw [List.mem_singleton.mp hl] at h
      exact .inr (List.mem_of_mem_take h)

theorem mapped_of_decides {e : Block × Line} (he : e ∈ entries blocks)
    (h : e.1.Covers start stop ∧ e.2.Decides) : Mapped blocks start stop := by
  obtain ⟨b, hb, he⟩ := List.mem_flatMap.mp he
  obtain ⟨l, hl, rfl⟩ := List.mem_map.mp he
  exact ⟨b, hb, h.1, hugePages_of_decides hl h.2⟩

theorem firstStop_eq_found_iff :
    firstStop start stop blocks = some .found ↔ SeenInTime blocks start stop := by
  rw [firstStop, findSome?_eq_some_iff_or, SeenInTime]
  constructor
  · rintro ⟨pre, e, post, hsplit, he, hpre⟩
    refine ⟨pre, e, post, hsplit, stopAt_eq_found_iff.mp he, fun e' he' => ?_⟩
    rcases hpre e' he' with hnone | hfound
    · exact stopAt_eq_none hnone
    · exact (stopAt_eq_found_iff.mp hfound).1
  · rintro ⟨pre, e, post, hsplit, he, hpre⟩
    refine ⟨pre, e, post, hsplit, stopAt_eq_found_iff.mpr he, fun e' he' => ?_⟩
    have hread := hpre e' he'
    by_cases hfound : e'.1.Covers start stop ∧ e'.2.Decides
    · exact .inr (stopAt_eq_found_iff.mpr ⟨hread, hfound⟩)
    · refine .inl ?_
      rw [stopAt, if_neg (not_not.mpr hread.1), if_neg (not_not.mpr hread.2), if_neg hfound]

theorem firstStop_eq_unreadable_iff (hnot : ¬ Mapped blocks start stop) :
    firstStop start stop blocks = some .unreadable ↔ ThrowsInTime blocks := by
  rw [firstStop, findSome?_eq_some_iff_or, ThrowsInTime]
  constructor
  · rintro ⟨pre, e, post, hsplit, he, hpre⟩
    refine ⟨pre, e, post, hsplit, stopAt_eq_unreadable_iff.mp he, fun e' he' => ?_⟩
    rcases hpre e' he' with hnone | hunreadable
    · exact (stopAt_eq_none hnone).1
    · exact (stopAt_eq_unreadable_iff.mp hunreadable).1
  · rintro ⟨pre, e, post, hsplit, he, hpre⟩
    refine ⟨pre, e, post, hsplit, stopAt_eq_unreadable_iff.mpr he, fun e' he' => ?_⟩
    have hshort := hpre e' he'
    by_cases hread : e'.2.Readable
    · refine .inl ?_
      have hmem : e' ∈ entries blocks := by
        rw [hsplit]
        exact List.mem_append_left _ he'
      rw [stopAt, if_neg (not_not.mpr hshort), if_neg (not_not.mpr hread),
        if_neg fun hfound => hnot (mapped_of_decides hmem hfound)]
    · exact .inr (stopAt_eq_unreadable_iff.mpr ⟨hshort, hread⟩)

theorem mapped_of_firstStop (h : firstStop start stop blocks = some .found) :
    Mapped blocks start stop := by
  obtain ⟨pre, e, post, hsplit, he, -⟩ := firstStop_eq_found_iff.mp h
  refine mapped_of_decides ?_ he.2
  rw [hsplit]
  exact List.mem_append_right _ (.head _)

/-! ### The answer -/

theorem answer_eq_true_iff (why : Option Stop) : answer why = some true ↔ why = some .found := by
  rcases why with _ | _ | _ | _
  · exact iff_of_false (fun h => nomatch h) fun h => nomatch h
  · exact iff_of_false (fun h => nomatch h) fun h => nomatch h
  · exact iff_of_false (fun h => nomatch h) fun h => nomatch h
  · exact iff_of_true rfl rfl

theorem answer_eq_false_iff {why : Option Stop} (hnot : why ≠ some .found) :
    answer why = some false ↔ ¬ why = some .unreadable := by
  rcases why with _ | _ | _ | _
  · exact iff_of_true rfl fun h => nomatch h
  · exact iff_of_true rfl fun h => nomatch h
  · exact iff_of_false (fun h => nomatch h) fun h => h rfl
  · exact absurd rfl hnot

/-- **The answer is right** exactly if a line that decides is seen in time where there are
huge pages, and no number that cannot be read is met where there are none. -/
theorem isHugePageMapping_iff (blocks : List Block) (start stop : ℕ) :
    (∃ r, isHugePageMapping (some (smapsText blocks)) start stop = some r ∧
        (r = true ↔ Mapped blocks start stop)) ↔
      (Mapped blocks start stop → SeenInTime blocks start stop) ∧
        (ThrowsInTime blocks → Mapped blocks start stop) := by
  have hanswer : isHugePageMapping (some (smapsText blocks)) start stop =
      answer (firstStop start stop blocks) := parseBlocks_smapsText blocks
  rw [hanswer]
  by_cases hmapped : Mapped blocks start stop
  · rw [and_iff_left fun _ => hmapped, forall_prop_of_true hmapped, ← firstStop_eq_found_iff,
      ← answer_eq_true_iff]
    simp only [hmapped, iff_true, exists_eq_right]
  · rw [and_iff_right fun h => absurd h hmapped, ← firstStop_eq_unreadable_iff hmapped]
    have hnot : firstStop start stop blocks ≠ some .found := mt mapped_of_firstStop hmapped
    simp only [hmapped, iff_false, Bool.not_eq_true, exists_eq_right]
    exact answer_eq_false_iff hnot

/-- An address of a single digit. -/
def Address.ofDigit (c : Char) (hc : isHexDigit c = true) : Address where
  digits := [c]
  hex := List.forall_mem_singleton.mpr hc
  ne_nil := List.cons_ne_nil c []
  length_le := (by decide : 1 ≤ 16)

/-- A file with a path of 2044 letters, whose pages are huge. -/
def longPath : Block where
  lo := .ofDigit '0' (by decide)
  hi := .ofDigit '1' (by decide)
  rest := List.replicate 2044 'a'
  hrest := plain_replicate (by decide) 2044
  fields := []
  flags := [Flag.ht]
  blanks := 0

/-- **A file with a long path**: its line has 2048 characters, and the answer is `false`. -/
theorem isHugePageMapping_longPath : ¬ ∀ (blocks : List Block) (start stop : ℕ), start ≤ stop →
    ∃ r, isHugePageMapping (some (smapsText blocks)) start stop = some r ∧
      (r = true ↔ Mapped blocks start stop) := by
  intro h
  obtain ⟨r, hr, hiff⟩ := h [longPath] 0 1 (by decide)
  have hmapped : Mapped [longPath] 0 1 :=
    ⟨longPath, .head _, by decide, .inr (.head _)⟩
  have hlength : (Line.header longPath.lo longPath.hi longPath.rest longPath.hrest).text.length =
      2048 := by
    rw [Line.text, List.length_append, List.length_cons, List.length_append, List.length_cons,
      longPath, List.length_replicate]
    rfl
  have hlong : ¬ (Line.header longPath.lo longPath.hi longPath.rest longPath.hrest).Short := by
    rw [Line.Short, hlength]
    exact Nat.lt_irrefl 2048
  have hstop : firstStop 0 1 [longPath] = some .long := by
    rw [firstStop_cons, Block.lines, List.findSome?_cons, stopAt_header, if_neg hlong]
    rfl
  have hfalse : isHugePageMapping (some (smapsText [longPath])) 0 1 = some false := by
    rw [isHugePageMapping, parseBlocks_smapsText, hstop]
    rfl
  rw [hfalse, Option.some_inj] at hr
  rw [← hr] at hiff
  exact Bool.false_ne_true (hiff.mpr hmapped)

end LinuxProgram.HugePage
