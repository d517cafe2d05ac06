import LinuxProgram.Lib.HexNumber
import LinuxProgram.Lib.InputStream

/-!
# isHugePageMapping

The function looks for a range of addresses in the text of `/proc/self/smaps`.  An outer
loop reads the first line of each mapping, and an inner one the lines below, up to
`VmFlags`, where the mapping ends.  All lines go through buffers of a fixed size.

* `readRange` — the first line of a mapping.
* `parseLine` — a line below, and `parseLines` the inner loop.
* `parseBlocks` — the outer loop.
* `isHugePageMapping` — the function.

An exception is `none`, and `stop` is the `end` of the source.  `hugepage.cpp` has the
function once more under the name `isHugePageMapped`, with other output.
-/

namespace LinuxProgram.HugePage

open Lib Lib.HexNumber

def anonHPField : List Char := ['A', 'n', 'o', 'n', 'H', 'u', 'g', 'e', 'P', 'a', 'g', 'e', 's']

def endField : List Char := ['V', 'm', 'F', 'l', 'a', 'g', 's']

/-- `std::istringstream(&line[0])`, which ends at the first zero. -/
def stringStream (line : List Char) : IStream :=
  .ofString (line.takeWhile (· ≠ Char.ofNat 0))

/-- **The range** in the first line of a mapping. -/
def readRange (line : List Char) : Option (ℕ × ℕ) := do
  let (rangeL, vmBuf) := (stringStream line).getline 32 '-'
  let (rangeR, _) := vmBuf.getline 32 ' '
  let rangeLPtr ← stoull rangeL
  let rangeRPtr ← stoull rangeR
  some (rangeLPtr, rangeRPtr)

/-- How a pass of the inner loop ends: with the next line, `break` or `return true`. -/
inductive Pass
  | next
  | leave
  | found
  deriving DecidableEq, Repr

/-- **A pass of the inner loop.**  The two names it looks for differ. -/
def parseLine (rangeL rangeR start stop : ℕ) (line : List Char) : Option Pass :=
  let (FieldName, inbuf) := (stringStream line).getline 128 ':'
  if FieldName = anonHPField then
    let (value, _) := inbuf.getline 128 'k'
    (stoull value).map fun AnonHugePagesSize =>
      if rangeL ≤ start ∧ stop ≤ rangeR ∧ 0 < AnonHugePagesSize then .found else .next
  else if FieldName = endField then
    let (value, _) := inbuf.getline 128 '\n'
    some (if rangeL ≤ start ∧ stop ≤ rangeR ∧ [' ', 'h', 't'] <:+: value then .found else .leave)
  else some .next

/-- How the inner loop ends: at the end of the text, behind a mapping, or with the answer. -/
inductive Inner
  | found
  | left (smapsStream : IStream)

/-- **The inner loop** over the lines of a mapping, up to the one with its flags. -/
def parseLines (rangeL rangeR start stop : ℕ) (smapsStream : IStream) : Option Inner :=
  let read := smapsStream.getline 2048 '\n'
  if _h : read.2.failbit = true then some (.left read.2)
  else
    match parseLine rangeL rangeR start stop read.1 with
    | none => none
    | some .next => parseLines rangeL rangeR start stop read.2
    | some .leave => some (.left read.2)
    | some .found => some .found
termination_by smapsStream.rest.length
decreasing_by exact IStream.getline_rest_lt (Bool.eq_false_iff.mpr _h)

/-- A pass of the inner loop. -/
theorem parseLines_eq {rangeL rangeR start stop : ℕ} {s s' : IStream} {line : List Char}
    (hread : s.getline 2048 '\n' = (line, s')) :
    parseLines rangeL rangeR start stop s =
      if s'.failbit = true then some (.left s')
      else
        match parseLine rangeL rangeR start stop line with
        | none => none
        | some .next => parseLines rangeL rangeR start stop s'
        | some .leave => some (.left s')
        | some .found => some .found := by
  rw [parseLines]
  simp only [hread, dite_eq_ite]

theorem parseLines_rest_le {rangeL rangeR start stop : ℕ} {s s' : IStream}
    (h : parseLines rangeL rangeR start stop s = some (.left s')) :
    s'.rest.length ≤ s.rest.length := by
  induction s using parseLines.induct rangeL rangeR start stop with
  | case1 s read hfail =>
      rw [parseLines, dif_pos hfail] at h
      cases h
      exact IStream.getline_rest_le
  | case2 s read hgood hline =>
      rw [parseLines, dif_neg hgood, hline] at h
      nomatch h
  | case3 s read hgood hline ih =>
      rw [parseLines, dif_neg hgood, hline] at h
      exact (ih h).trans IStream.getline_rest_le
  | case4 s read hgood hline =>
      rw [parseLines, dif_neg hgood, hline] at h
      cases h
      exact IStream.getline_rest_le
  | case5 s read hgood hline =>
      rw [parseLines, dif_neg hgood, hline] at h
      nomatch h

/-- **The outer loop** over the mappings, which stops at the first one that gives the answer. -/
def parseBlocks (start stop : ℕ) (smapsStream : IStream) : Option Bool :=
  let read := smapsStream.getline 2048 '\n'
  if _h : read.2.failbit = true then some false
  else
    match readRange read.1 with
    | none => none
    | some (rangeL, rangeR) =>
        match _hlines : parseLines rangeL rangeR start stop read.2 with
        | none => none
        | some .found => some true
        | some (.left smapsStream') => parseBlocks start stop smapsStream'
termination_by smapsStream.rest.length
decreasing_by
  exact (parseLines_rest_le _hlines).trans_lt (IStream.getline_rest_lt (Bool.eq_false_iff.mpr _h))

/-- A pass of the outer loop. -/
theorem parseBlocks_eq {start stop : ℕ} {s s' : IStream} {line : List Char}
    (hread : s.getline 2048 '\n' = (line, s')) :
    parseBlocks start stop s =
      if s'.failbit = true then some false
      else
        match readRange line with
        | none => none
        | some (rangeL, rangeR) =>
            match parseLines rangeL rangeR start stop s' with
            | none => none
            | some .found => some true
            | some (.left s'') => parseBlocks start stop s'' := by
  obtain rfl : (s.getline 2048 '\n').1 = line := congrArg Prod.fst hread
  obtain rfl : (s.getline 2048 '\n').2 = s' := congrArg Prod.snd hread
  rw [parseBlocks]
  split
  · rfl
  · split
    · rfl
    · split
      all_goals
        rename_i hlines
        rw [hlines]

/-- **`isHugePageMapping`**, given the text of the file, if it can be opened. -/
def isHugePageMapping (smaps : Option (List Char)) (start stop : ℕ) : Option Bool :=
  match smaps with
  | none => some false
  | some text => parseBlocks start stop (.ofString text)

end LinuxProgram.HugePage
