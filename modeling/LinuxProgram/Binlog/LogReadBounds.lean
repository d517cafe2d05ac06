import LinuxProgram.Binlog.LogRead

/-!
# LogRead on any file

Nothing is assumed of the bytes of the file, and it may be another one at every call.

* `logReads` — the words that a call reads; what it returns depends on no others
  (`logRead_congr`).
* `CallSafe` — a safe call: it reads below `st_size`, and an entry that it returns is there and
  moves the reader forward.
* `CallFits` — what a call needs: the loop over the descriptions ends at a word that is
  complete, for it does not compare with the size, and the length of the entry does not
  wrap, for it is added before it is compared.
* `callSafe_iff` — that is what decides.
* `runSafe_iff` — so it does for whole sequences of calls, which then return no entry twice.
-/

namespace LinuxProgram.Binlog

/-! ### What is read -/

/-- The words that the loop reads: those of the descriptions, and the one behind them. -/
def descReads (f : File) (cur : ℕ) : List ℕ :=
  if h : f.isEventDesc cur then cur :: descReads f (cur + 560) else [cur]
termination_by f.size - cur
decreasing_by
  have := File.isEventDesc_lt h
  omega

/-- **The offsets of the words that a call reads.** -/
def logReads (f : File) (s : Reader) : List ℕ :=
  if s.mCurBinLogSize + 8 > f.size then []
  else
    let cur := (readDescs f s.mCurBinLogSize s.mEventDescMap).1
    descReads f s.mCurBinLogSize ++
      if cur + 32 > f.size then []
      else
        -- `mBufferLength`, and `mEventID` for the map
        (cur + 8) :: if (cur + 32 + f.word (cur + 8)) % 2 ^ 64 > f.size then [] else [cur]

/-- **A safe call** of `LogRead`: it reads only what is mapped, and what it returns is complete and
behind everything it has returned before. -/
structure CallSafe (f : File) (s : Reader) : Prop where
  /-- Every byte it reads is below `st_size`. -/
  reads : ∀ offset ∈ logReads f s, offset + 8 ≤ f.size
  /-- Unless it returns null, it moves forward by at least `sizeof(LogEntryHead)`. -/
  forward : ∀ buffer, (logRead f s).2 = some buffer →
    s.mCurBinLogSize + 32 ≤ (logRead f s).1.mCurBinLogSize
  /-- And the entry is below `st_size`, its payload included. -/
  inside : ∀ buffer, (logRead f s).2 = some buffer → ∃ entry,
    (logRead f s).1.mCurEntry = some entry ∧ entry + 32 ≤ f.size ∧
      buffer + f.word (entry + 8) ≤ f.size

/-- **What a call needs of the file**, from where the reader stands.  Behind `k` descriptions
is a word that is complete and is none, and if there is a head, its length does not wrap. -/
def CallFits (f : File) (s : Reader) : Prop :=
  s.mCurBinLogSize + 8 ≤ f.size → ∃ k,
    (∀ i < k, f.isEventDesc (s.mCurBinLogSize + 560 * i) = true) ∧
    f.isEventDesc (s.mCurBinLogSize + 560 * k) = false ∧
    s.mCurBinLogSize + 560 * k + 8 ≤ f.size ∧
    (s.mCurBinLogSize + 560 * k + 32 ≤ f.size →
      s.mCurBinLogSize + 560 * k + 32 + f.word (s.mCurBinLogSize + 560 * k + 8) < 2 ^ 64)

/-! ### The loop -/

/-- **Where the loop ends**, and what it has read. -/
theorem readDescs_end (f : File) (cur : ℕ) (descMap : ℕ → Option ℕ) : ∃ k,
    (readDescs f cur descMap).1 = cur + 560 * k ∧
    (∀ i < k, f.isEventDesc (cur + 560 * i) = true) ∧
    f.isEventDesc (cur + 560 * k) = false ∧
    descReads f cur = (List.range (k + 1)).map fun i => cur + 560 * i := by
  induction cur, descMap using readDescs.induct f with
  | case1 cur descMap hdesc ih =>
      obtain ⟨k, hend, hall, hlast, hreads⟩ := ih
      have hshift : ∀ i, cur + 560 + 560 * i = cur + 560 * (i + 1) := fun i => by ring
      refine ⟨k + 1, ?_, fun i hi => ?_, ?_, ?_⟩
      · rw [readDescs, dif_pos hdesc, hend, hshift]
      · cases i with
        | zero => exact hdesc
        | succ i =>
            rw [← hshift]
            exact hall i (by omega)
      · rw [← hshift]
        exact hlast
      · rw [descReads, dif_pos hdesc, hreads, List.range_succ_eq_map (n := k + 1),
          List.map_cons, List.map_map]
        simp only [hshift, Function.comp_def, Nat.mul_zero, Nat.add_zero, Nat.succ_eq_add_one]
  | case2 cur descMap hdesc =>
      refine ⟨0, ?_, fun i hi => absurd hi (Nat.not_lt_zero i), ?_, ?_⟩
      · rw [readDescs, dif_neg hdesc, Nat.mul_zero, Nat.add_zero]
      · simpa using hdesc
      · rw [descReads, dif_neg hdesc]
        rfl

/-- The descriptions that it passes are the only ones. -/
theorem descs_unique {f : File} {cur k l : ℕ}
    (hk : ∀ i < k, f.isEventDesc (cur + 560 * i) = true)
    (hk' : f.isEventDesc (cur + 560 * k) = false)
    (hl : ∀ i < l, f.isEventDesc (cur + 560 * i) = true)
    (hl' : f.isEventDesc (cur + 560 * l) = false) : k = l := by
  rcases Nat.lt_trichotomy k l with hlt | heq | hlt
  · rw [hl k hlt] at hk'
    cases hk'
  · exact heq
  · rw [hk l hlt] at hl'
    cases hl'

/-! ### A call -/

/-- **The tests of `LogRead`**, when the loop has ended at `cur`. -/
def Returned (f : File) (s : Reader) (cur : ℕ) : Prop :=
  s.mCurBinLogSize + 8 ≤ f.size ∧ cur + 32 ≤ f.size ∧
    (cur + 32 + f.word (cur + 8)) % 2 ^ 64 ≤ f.size

/-- **What a call does.** -/
theorem logRead_cases (f : File) (s : Reader) {cur : ℕ}
    (hcur : (readDescs f s.mCurBinLogSize s.mEventDescMap).1 = cur) :
    (Returned f s cur ∧ (logRead f s).2 = some (cur + 32) ∧
      (logRead f s).1.mCurEntry = some cur ∧
      (logRead f s).1.mCurBinLogSize = (cur + 32 + f.word (cur + 8)) % 2 ^ 64) ∨
    (¬ Returned f s cur ∧ (logRead f s).2 = none ∧
      ((logRead f s).1.mCurBinLogSize = s.mCurBinLogSize ∨
        (logRead f s).1.mCurBinLogSize = cur)) := by
  rcases hdescs : readDescs f s.mCurBinLogSize s.mEventDescMap with ⟨cur', descMap⟩
  rw [hdescs] at hcur
  obtain rfl : cur' = cur := hcur
  unfold logRead Returned
  simp only [hdescs]
  split
  · rename_i h8
    exact .inr ⟨fun h => absurd h.1 (by omega), rfl, .inl rfl⟩
  · rename_i h8
    split
    · rename_i h32
      exact .inr ⟨fun h => absurd h.2.1 (by omega), rfl, .inr rfl⟩
    · rename_i h32
      split
      · rename_i hlen
        exact .inr ⟨fun h => absurd h.2.2 (Nat.not_le.mpr hlen), rfl, .inr rfl⟩
      · rename_i hlen
        exact .inl ⟨⟨by omega, by omega, Nat.not_lt.mp hlen⟩, rfl, rfl, rfl⟩

/-- A length that wraps passes the test. -/
theorem wraps_le {f : File} {cur : ℕ} (h32 : cur + 32 ≤ f.size)
    (hwrap : 2 ^ 64 ≤ cur + 32 + f.word (cur + 8)) :
    (cur + 32 + f.word (cur + 8)) % 2 ^ 64 ≤ f.size := by
  have hword := f.word_lt (cur + 8)
  have hfits : f.size < 2 ^ 63 := f.fits
  omega

/-- **What a call needs**: a word behind the descriptions, and a length that does not wrap. -/
theorem CallSafe.fits {f : File} {s : Reader} (h : CallSafe f s) : CallFits f s := by
  intro h8
  obtain ⟨k, hend, hall, hlast, hreads⟩ := readDescs_end f s.mCurBinLogSize s.mEventDescMap
  refine ⟨k, hall, hlast, ?_, fun h32 => ?_⟩
  · apply h.reads
    rw [logReads, if_neg (Nat.not_lt.mpr h8), hreads]
    apply List.mem_append_left
    exact List.mem_map.mpr ⟨k, List.mem_range.mpr (Nat.lt_succ_self k), rfl⟩
  · by_contra hwrap
    have hfits : f.size < 2 ^ 63 := f.fits
    have hreturned : Returned f s (s.mCurBinLogSize + 560 * k) :=
      ⟨h8, h32, wraps_le h32 (Nat.not_lt.mp hwrap)⟩
    rcases logRead_cases f s hend with ⟨-, hsome, hentry, -⟩ | ⟨hnone, -⟩
    · obtain ⟨entry, hentry', -, hinside⟩ := h.inside _ hsome
      obtain rfl := Option.some.inj (hentry.symm.trans hentry')
      omega
    · exact hnone hreturned

/-- **And that is enough.** -/
theorem CallFits.safe {f : File} {s : Reader} (h : CallFits f s) : CallSafe f s := by
  obtain ⟨k, hend, hall, hlast, hreads⟩ := readDescs_end f s.mCurBinLogSize s.mEventDescMap
  have hfits : f.size < 2 ^ 63 := f.fits
  -- where the loop ends, in a call that gets there
  have hneeds : s.mCurBinLogSize + 8 ≤ f.size → s.mCurBinLogSize + 560 * k + 8 ≤ f.size ∧
      (s.mCurBinLogSize + 560 * k + 32 ≤ f.size → s.mCurBinLogSize + 560 * k + 32
        + f.word (s.mCurBinLogSize + 560 * k + 8) < 2 ^ 64) := by
    intro h8
    obtain ⟨l, hall', hlast', hcomplete, hlength⟩ := h h8
    obtain rfl := descs_unique hall hlast hall' hlast'
    exact ⟨hcomplete, hlength⟩
  refine ⟨?_, ?_, ?_⟩
  · intro offset hoffset
    rw [logReads] at hoffset
    split at hoffset
    · cases hoffset
    · rename_i h8
      obtain ⟨hcomplete, -⟩ := hneeds (Nat.not_lt.mp h8)
      rw [hreads, hend] at hoffset
      rcases List.mem_append.mp hoffset with hdesc | hhead
      · obtain ⟨i, hi, rfl⟩ := List.mem_map.mp hdesc
        rw [List.mem_range] at hi
        omega
      · split at hhead
        · cases hhead
        · rcases List.mem_cons.mp hhead with rfl | hentry
          · omega
          · split at hentry
            · cases hentry
            · rw [List.mem_singleton.mp hentry]
              omega
  · intro buffer hbuffer
    rcases logRead_cases f s hend with ⟨⟨h8, h32, hlen⟩, -, -, hmove⟩ | ⟨-, hnone, -⟩
    · have hword := (hneeds h8).2 h32
      rw [hmove, Nat.mod_eq_of_lt hword]
      omega
    · rw [hnone] at hbuffer
      cases hbuffer
  · intro buffer hbuffer
    rcases logRead_cases f s hend with ⟨⟨h8, h32, hlen⟩, hsome, hentry, -⟩ | ⟨-, hnone, -⟩
    · obtain rfl := Option.some.inj (hsome.symm.trans hbuffer)
      rw [Nat.mod_eq_of_lt ((hneeds h8).2 h32)] at hlen
      exact ⟨_, hentry, h32, hlen⟩
    · rw [hnone] at hbuffer
      cases hbuffer

/-- **What decides whether a call is safe.** -/
theorem callSafe_iff {f : File} {s : Reader} : CallSafe f s ↔ CallFits f s :=
  ⟨CallSafe.fits, CallFits.safe⟩

/-! ### Sequences of calls -/

/-- **The calls on some files**, one after the other, each with the reader before it. -/
def calls : List File → Reader → List (File × Reader)
  | [], _ => []
  | f :: fs, s => (f, s) :: calls fs (logRead f s).1

/-- What they return, unless it is null. -/
def returns (fs : List File) (s : Reader) : List ℕ :=
  (calls fs s).filterMap fun call => (logRead call.1 call.2).2

theorem returns_cons_none {f : File} {s : Reader} (fs : List File)
    (h : (logRead f s).2 = none) : returns (f :: fs) s = returns fs (logRead f s).1 :=
  List.filterMap_cons_none h

theorem returns_cons_some {f : File} {s : Reader} {buffer : ℕ} (fs : List File)
    (h : (logRead f s).2 = some buffer) :
    returns (f :: fs) s = buffer :: returns fs (logRead f s).1 :=
  List.filterMap_cons_some h

/-- **A safe reader**, that has opened the file and calls `LogRead` again and again while the file
may change: every call is safe. -/
structure RunSafe (fs : List File) : Prop where
  each : ∀ call ∈ calls fs .opened, CallSafe call.1 call.2
  /-- No entry is returned twice. -/
  once : (returns fs .opened).Pairwise (· < ·)

/-- **A call that is safe moves forward**, to behind the head of what it returns. -/
theorem CallSafe.moves {f : File} {s : Reader} (h : CallSafe f s) :
    s.mCurBinLogSize ≤ (logRead f s).1.mCurBinLogSize ∧
    ∀ buffer, (logRead f s).2 = some buffer →
      s.mCurBinLogSize < buffer ∧ buffer ≤ (logRead f s).1.mCurBinLogSize := by
  obtain ⟨k, hend, -⟩ := readDescs_end f s.mCurBinLogSize s.mEventDescMap
  have hfits : f.size < 2 ^ 63 := f.fits
  rcases logRead_cases f s hend with ⟨-, hsome, hentry, hmove⟩ | ⟨-, hnone, hmove⟩
  · obtain ⟨entry, hentry', -, hinside⟩ := h.inside _ hsome
    obtain rfl := Option.some.inj (hentry.symm.trans hentry')
    rw [hmove, Nat.mod_eq_of_lt (by omega)]
    refine ⟨by omega, fun buffer hbuffer => ?_⟩
    obtain rfl := Option.some.inj (hsome.symm.trans hbuffer)
    omega
  · refine ⟨?_, fun buffer hbuffer => ?_⟩
    · rcases hmove with hmove | hmove <;> omega
    · rw [hnone] at hbuffer
      cases hbuffer

/-- **What safe calls return**: entries in the order of the file, behind the reader. -/
theorem returns_increasing (fs : List File) : ∀ {s : Reader},
    (∀ call ∈ calls fs s, CallSafe call.1 call.2) →
      (∀ buffer ∈ returns fs s, s.mCurBinLogSize < buffer) ∧
      (returns fs s).Pairwise (· < ·) := by
  induction fs with
  | nil =>
      intro s _
      refine ⟨fun buffer hbuffer => ?_, .nil⟩
      cases hbuffer
  | cons f fs ih =>
      intro s hsafe
      obtain ⟨hmove, hbuffer⟩ := (hsafe (f, s) (.head _)).moves
      obtain ⟨hbehind, hpairwise⟩ := ih fun call hcall => hsafe call (.tail _ hcall)
      cases hresult : (logRead f s).2 with
      | none =>
          rw [returns_cons_none fs hresult]
          exact ⟨fun b hb => hmove.trans_lt (hbehind b hb), hpairwise⟩
      | some buffer =>
          obtain ⟨hlt, hle⟩ := hbuffer buffer hresult
          rw [returns_cons_some fs hresult]
          refine ⟨fun b hb => ?_, .cons (fun b hb => hle.trans_lt (hbehind b hb)) hpairwise⟩
          rcases List.mem_cons.mp hb with rfl | hb
          · exact hlt
          · exact hmove.trans_lt (hbehind b hb)

/-- **The calls of a reader are safe** exactly if the file is as each of them needs it. -/
theorem runSafe_iff (fs : List File) :
    RunSafe fs ↔ ∀ call ∈ calls fs .opened, CallFits call.1 call.2 := by
  constructor
  · exact fun h call hcall => (h.each call hcall).fits
  · intro h
    have heach : ∀ call ∈ calls fs .opened, CallSafe call.1 call.2 :=
      fun call hcall => (h call hcall).safe
    exact ⟨heach, (returns_increasing fs heach).2⟩

/-! ### What a call does not read -/

/-- The loop depends on what it reads. -/
theorem readDescs_congr {f f' : File} (cur : ℕ) (descMap : ℕ → Option ℕ)
    (h : ∀ offset ∈ descReads f cur, f'.word offset = f.word offset) :
    readDescs f' cur descMap = readDescs f cur descMap := by
  induction cur, descMap using readDescs.induct f with
  | case1 cur descMap hdesc ih =>
      rw [descReads, dif_pos hdesc] at h
      have hword := h cur (.head _)
      have hdesc' : f'.isEventDesc cur = true := by
        rw [File.isEventDesc, hword]
        exact hdesc
      have hindex : f'.index cur = f.index cur := by
        rw [File.index, File.index, hword]
      rw [readDescs.eq_def f' cur, dif_pos hdesc', readDescs.eq_def f cur, dif_pos hdesc, hindex]
      exact ih fun offset hoffset => h offset (.tail _ hoffset)
  | case2 cur descMap hdesc =>
      rw [descReads, dif_neg hdesc] at h
      have hdesc' : ¬ f'.isEventDesc cur = true := by
        rw [File.isEventDesc, h cur (.head _)]
        exact hdesc
      rw [readDescs, dif_neg hdesc', readDescs, dif_neg hdesc]

/-- **A call depends on what it reads**, and on the size of the file. -/
theorem logRead_congr {f f' : File} (s : Reader) (hsize : f'.size = f.size)
    (h : ∀ offset ∈ logReads f s, f'.word offset = f.word offset) :
    logRead f' s = logRead f s := by
  unfold logReads at h
  unfold logRead
  simp only [hsize]
  split
  · rfl
  · rename_i h8
    simp only [if_neg h8] at h
    have hdescs : readDescs f' s.mCurBinLogSize s.mEventDescMap
        = readDescs f s.mCurBinLogSize s.mEventDescMap :=
      readDescs_congr _ _ fun offset hoffset => h offset (List.mem_append_left _ hoffset)
    rw [hdescs]
    rcases hcur : readDescs f s.mCurBinLogSize s.mEventDescMap with ⟨cur, descMap⟩
    simp only [hcur] at h ⊢
    split
    · rfl
    · rename_i h32
      simp only [if_neg h32] at h
      have hlength := h (cur + 8) (List.mem_append_right _ (.head _))
      rw [hlength]
      split
      · rfl
      · rename_i hlen
        simp only [if_neg hlen] at h
        rw [h cur (List.mem_append_right _ (.tail _ (.head _)))]

/-! ### Two files -/

/-- A log that ends with a description: 560 bytes of `0xFF`, as the event id of the end of
the event section. -/
def endFile : File where
  bytes := List.replicate 560 0xFF
  fits := by
    rw [List.length_replicate]
    decide

theorem size_endFile : endFile.size = 560 := List.length_replicate

theorem byte_endFile (i : ℕ) : endFile.byte i = if i < 560 then 0xFF else 0 := by
  rw [File.byte, endFile, List.getElem?_replicate]
  split <;> rfl

/-- It is one description, and behind it is none. -/
theorem isEventDesc_endFile :
    endFile.isEventDesc 0 = true ∧ ¬ endFile.isEventDesc 560 = true := by
  simp only [File.isEventDesc_iff, File.word_eq, byte_endFile]
  decide

/-- An entry whose length is `2^64 - 32`. -/
def loopFile : File where
  bytes := le64 0 ++ le64 (2 ^ 64 - 32) ++ le64 0 ++ le64 0
  fits := by decide

/-- The reader is where it was, and the entry is returned. -/
theorem logRead_loopFile {s : Reader} (hs : s.mCurBinLogSize = 0) :
    (logRead loopFile s).2 = some 32 ∧ (logRead loopFile s).1.mCurBinLogSize = 0 := by
  have hdesc : ¬ loopFile.isEventDesc s.mCurBinLogSize = true := by
    rw [hs]
    decide
  have hend : (readDescs loopFile s.mCurBinLogSize s.mEventDescMap).1 = 0 := by
    rw [readDescs, dif_neg hdesc, hs]
  have hreturned : Returned loopFile s 0 := by
    unfold Returned
    rw [hs]
    decide
  rcases logRead_cases loopFile s hend with ⟨-, hsome, -, hmove⟩ | ⟨hnull, -⟩
  · refine ⟨hsome, ?_⟩
    rw [hmove]
    decide
  · exact absurd hreturned hnull

/-- It is the same one for ever. -/
theorem returns_loopFile (n : ℕ) {s : Reader} (hs : s.mCurBinLogSize = 0) :
    returns (List.replicate n loopFile) s = List.replicate n 32 := by
  induction n generalizing s with
  | zero => rfl
  | succ n ih =>
      obtain ⟨hsome, hmove⟩ := logRead_loopFile hs
      rw [List.replicate_succ, List.replicate_succ, returns_cons_some _ hsome, ih hmove]

/-- **Neither is read safely**: the first is read behind its end, and the second gives the
same entry over and over. -/
theorem run_unsafe : (560 ∈ logReads endFile .opened ∧ endFile.size = 560) ∧
    (∀ n, returns (List.replicate n loopFile) .opened = List.replicate n 32) ∧
    ¬ RunSafe [endFile] ∧ ¬ RunSafe [loopFile, loopFile] := by
  have hread : 560 ∈ logReads endFile .opened := by
    obtain ⟨hdesc, hend⟩ := isEventDesc_endFile
    unfold logReads
    rw [if_neg (by rw [size_endFile]; decide)]
    apply List.mem_append_left
    change 560 ∈ descReads endFile 0
    rw [descReads, dif_pos hdesc, descReads, dif_neg hend]
    decide
  refine ⟨⟨hread, size_endFile⟩, fun n => returns_loopFile n rfl, fun h => ?_, fun h => ?_⟩
  · have hbound := (h.each _ (.head _)).reads 560 hread
    rw [size_endFile] at hbound
    exact absurd hbound (by decide)
  · have htwice : returns [loopFile, loopFile] .opened = [32, 32] := returns_loopFile 2 rfl
    have honce := h.once
    rw [htwice] at honce
    exact absurd honce (by decide)

end LinuxProgram.Binlog
