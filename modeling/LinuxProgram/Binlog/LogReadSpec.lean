import LinuxProgram.Binlog.LogRead

/-!
# LogRead on a log that grows

A call sees the first `n` bytes of a log (`Log.file`).  The reader stands between two
records, `pre` and `post`, and its map leads to the latest description of each event
in `pre` (`MapInv`).  That this is kept by a call that returns null is the point: the
loop may pass a description that is not complete, and then its place is behind the
end of the file, where the tests of the next calls fail until the file has grown.

* `readDescs_spec` — the loop passes descriptions only, and it stops in front of an
  entry, at the end, or where the next word is not complete.
* `read_spec` — a call returns the next entry exactly if it is complete, so the
  reader is simulated by `Polling.poll` over the entries of the log.
* `results_eq` and `logRead_recovers` — what holds for all sequences of calls.
-/

namespace LinuxProgram.Binlog

open Lib

/-! ### Bytes of a prefix

A call sees the log up to some byte, and reads words and arrays at offsets of its own.  As long as
these end in front of that byte they are those of the whole log, which is all that is used about
the length. -/

section Prefix

variable {f : File} {S A B C : Bytes} {n x : ℕ}

theorem File.byte_take (hf : f.bytes = S.take n) (hS : S = A ++ B) {i : ℕ}
    (hn : A.length + i < n) : f.byte (A.length + i) = B[i]?.getD 0 := by
  rw [byte, hf, List.getElem?_take_of_lt hn, hS, List.getElem?_append_right (Nat.le_add_right _ _),
    Nat.add_sub_cancel_left]

/-- **A word that is complete.** -/
theorem File.word_take (hf : f.bytes = S.take n) (hS : S = A ++ (le64 x ++ B))
    (hn : A.length + 8 ≤ n) (hx : x < 2 ^ 64) : f.word A.length = x := by
  have hbyte : ∀ i < 8, (f.byte (A.length + i)).toNat = x / 256 ^ i % 256 := by
    intro i hi
    have hi' : i < (le64 x).length := hi
    rw [byte_take hf hS (by omega), List.getElem?_append_left hi', List.getElem?_eq_getElem hi',
      Option.getD_some]
    simp [le64]
  have hstep : ∀ i, x / 256 ^ i % 256 + 256 * (x / 256 ^ (i + 1)) = x / 256 ^ i := by
    intro i
    rw [pow_succ, ← Nat.div_div_eq_div_mul, Nat.mod_add_div]
  have hlast : x / 256 ^ 7 % 256 + 0 = x / 256 ^ 7 := by
    rw [Nat.add_zero, Nat.mod_eq_of_lt]
    exact Nat.div_lt_of_lt_mul hx
  rw [word_eq]
  have h0 := hbyte 0 (by decide)
  rw [Nat.add_zero] at h0
  rw [h0, hbyte 1 (by decide), hbyte 2 (by decide), hbyte 3 (by decide), hbyte 4 (by decide),
    hbyte 5 (by decide), hbyte 6 (by decide), hbyte 7 (by decide), hlast, hstep 6, hstep 5,
    hstep 4, hstep 3, hstep 2, hstep 1, hstep 0, pow_zero, Nat.div_one]

/-- **An array that is complete.** -/
theorem File.range_take (hf : f.bytes = S.take n) (hS : S = A ++ (B ++ C))
    (hn : A.length + B.length ≤ n) : f.range A.length B.length = B := by
  apply List.ext_getElem
  · simp [range]
  · intro i hi hi'
    have hget : (f.range A.length B.length)[i] = f.byte (A.length + i) := by simp [range]
    rw [hget, byte_take hf hS (by omega), List.getElem?_append_left hi',
      List.getElem?_eq_getElem hi', Option.getD_some]

end Prefix

/-- **What a call sees** when the file has `n` bytes. -/
def Log.file (log : Log) (n : ℕ) : File where
  bytes := (contents log.records).take n
  fits := (List.length_take_le' _ _).trans_lt log.fits

/-! ### The map -/

/-- A pointer to a description in `pre`, or null. -/
def PointsTo (pre : List Record) (ptr : Option ℕ) : Option EventDescDump → Prop
  | none => ptr = none
  | some d => ∃ rs rs', pre = rs ++ .desc d :: rs' ∧ ptr = some (contents rs).length

theorem PointsTo.concat {pre : List Record} {ptr : Option ℕ} {desc : Option EventDescDump}
    (h : PointsTo pre ptr desc) (r : Record) : PointsTo (pre ++ [r]) ptr desc := by
  cases desc with
  | none => exact h
  | some d =>
      obtain ⟨rs, rs', rfl, hptr⟩ := h
      exact ⟨rs, rs' ++ [r], by simp, hptr⟩

/-- **The map leads to the latest description of each event.** -/
def MapInv (pre : List Record) (descMap : ℕ → Option ℕ) : Prop :=
  ∀ eventID, PointsTo pre (descMap eventID) (latest (descs pre) eventID)

theorem mapInv_nil : MapInv [] fun _ => none := fun _ => rfl

theorem descs_concat_desc (pre : List Record) (d : EventDescDump) :
    descs (pre ++ [.desc d]) = d :: descs pre := by
  simp [descs]

theorem descs_concat_entry (pre : List Record) (e : LogEntry) :
    descs (pre ++ [.entry e]) = descs pre := by
  simp [descs]

/-- An entry leaves the map as it is. -/
theorem MapInv.concat_entry {pre : List Record} {descMap : ℕ → Option ℕ}
    (h : MapInv pre descMap) (e : LogEntry) : MapInv (pre ++ [.entry e]) descMap := by
  intro eventID
  rw [descs_concat_entry]
  exact (h eventID).concat _

/-- A description becomes the latest one of its event. -/
theorem MapInv.concat_desc {pre : List Record} {descMap : ℕ → Option ℕ}
    (h : MapInv pre descMap) (d : EventDescDump) :
    MapInv (pre ++ [.desc d])
      (Function.update descMap d.index (some (contents pre).length)) := by
  intro eventID
  rw [descs_concat_desc]
  by_cases heq : d.index = eventID
  · have hlatest : latest (d :: descs pre) eventID = some d :=
      List.find?_cons_of_pos (by simpa using heq)
    rw [hlatest, ← heq, Function.update_self]
    exact ⟨pre, [], rfl, rfl⟩
  · have hlatest : latest (d :: descs pre) eventID = latest (descs pre) eventID :=
      List.find?_cons_of_neg (by simpa using heq)
    rw [hlatest, Function.update_of_ne (Ne.symm heq)]
    exact (h eventID).concat _

/-! ### The records a reader stands between -/

/-- **What a reader sees** that stands behind `pre`. -/
structure Sees (f : File) (n : ℕ) (pre post : List Record) : Prop where
  bytes : f.bytes = (contents (pre ++ post)).take n
  fits : (contents (pre ++ post)).length < 2 ^ 63

theorem Sees.size {f : File} {n : ℕ} {pre post : List Record} (h : Sees f n pre post) :
    f.size = min n ((contents pre).length + (contents post).length) := by
  rw [File.size, h.bytes, List.length_take, contents_append, List.length_append]

variable {f : File} {n : ℕ} {pre post : List Record}

/-- **The first word of a record.** -/
theorem Sees.word {r : Record} {x : ℕ} {rest : Bytes} (h : Sees f n pre (r :: post))
    (hr : r.bytes = le64 x ++ rest) (hx : x < 2 ^ 64) (hn : (contents pre).length + 8 ≤ n) :
    f.word (contents pre).length = x := by
  refine File.word_take (B := rest ++ contents post) h.bytes ?_ hn hx
  rw [contents_append, contents_cons, hr, List.append_assoc]

/-- The test on a description. -/
theorem Sees.isEventDesc_desc {d : EventDescDump} (h : Sees f n pre (.desc d :: post))
    (hn : (contents pre).length + 8 ≤ n) :
    f.isEventDesc (contents pre).length = true ∧ f.index (contents pre).length = d.index := by
  have hword := h.word d.bytes_eq d.lt hn
  rw [File.isEventDesc_iff, File.index, hword]
  exact ⟨d.flag, rfl⟩

/-- The test on an entry. -/
theorem Sees.isEventDesc_entry {e : LogEntry} (h : Sees f n pre (.entry e :: post)) :
    f.isEventDesc (contents pre).length = false := by
  by_contra htest
  rw [Bool.not_eq_false] at htest
  have hlt := File.isEventDesc_lt htest
  rw [h.size] at hlt
  have hflag := e.flag
  rw [File.isEventDesc_iff, h.word e.bytes_eq (hflag.trans (by decide)) (by omega)] at htest
  exact absurd hflag (Nat.not_lt.mpr htest)

/-- The test where the log ends. -/
theorem Sees.isEventDesc_nil (h : Sees f n pre []) :
    f.isEventDesc (contents pre).length = false := by
  by_contra htest
  rw [Bool.not_eq_false] at htest
  have hlt := File.isEventDesc_lt htest
  rw [h.size, contents_nil, List.length_nil] at hlt
  omega

/-! ### The loop -/

/-- **The loop passes descriptions**, and stops in front of an entry, at the end, or
where the next word is not complete. -/
theorem readDescs_spec (post : List Record) : ∀ {pre : List Record} {descMap : ℕ → Option ℕ},
    Sees f n pre post → MapInv pre descMap →
    ∃ pre' post' descMap', readDescs f (contents pre).length descMap
        = ((contents pre').length, descMap') ∧
      pre' ++ post' = pre ++ post ∧ MapInv pre' descMap' ∧
      entriesFrom (contents pre').length (descs pre') post'
        = entriesFrom (contents pre).length (descs pre) post ∧
      (post' = [] ∨ (∃ e rs, post' = .entry e :: rs) ∨ n < (contents pre').length + 8) := by
  induction post with
  | nil =>
      intro pre descMap h hmap
      refine ⟨pre, [], descMap, ?_, rfl, hmap, rfl, .inl rfl⟩
      rw [readDescs, dif_neg (by rw [h.isEventDesc_nil]; decide)]
  | cons r post ih =>
      intro pre descMap h hmap
      cases r with
      | entry e =>
          refine ⟨pre, .entry e :: post, descMap, ?_, rfl, hmap, rfl, .inr (.inl ⟨e, post, rfl⟩)⟩
          rw [readDescs, dif_neg (by rw [h.isEventDesc_entry]; decide)]
      | desc d =>
          rcases Nat.lt_or_ge n ((contents pre).length + 8) with hn | hn
          · -- the word is not complete, so the test fails
            refine ⟨pre, .desc d :: post, descMap, ?_, rfl, hmap, rfl, .inr (.inr hn)⟩
            rw [readDescs, dif_neg]
            intro htest
            have hlt := File.isEventDesc_lt htest
            rw [h.size] at hlt
            omega
          · obtain ⟨htest, hindex⟩ := h.isEventDesc_desc hn
            have hlen : (contents (pre ++ [.desc d])).length = (contents pre).length + 560 := by
              rw [contents_append, List.length_append, contents_cons, contents_nil,
                List.append_nil, Record.bytes, d.length_bytes]
            have h' : Sees f n (pre ++ [.desc d]) post :=
              ⟨by rw [List.append_assoc]; exact h.bytes, by rw [List.append_assoc]; exact h.fits⟩
            obtain ⟨pre', post', descMap', hread, hrecords, hmap', hentries, hstop⟩ :=
              ih h' (hmap.concat_desc d)
            refine ⟨pre', post', descMap', ?_, ?_, hmap', ?_, hstop⟩
            · rw [readDescs, dif_pos htest, hindex, ← hlen]
              exact hread
            · rw [hrecords, List.append_assoc]
              rfl
            · rw [hentries, descs_concat_desc, hlen, entriesFrom, d.length_bytes]

/-! ### A call

The reader passes the descriptions that are complete, also if the entry behind them is not, and
returns null then.  The next call goes on where this one has stopped; the map and the position
have moved, but the entries that are left for it have not. -/

/-- A word that is complete, at some distance from the start of a record. -/
theorem Sees.word_at {r : Record} {x : ℕ} (h : Sees f n pre (r :: post)) (front rest : Bytes)
    (hr : r.bytes = front ++ (le64 x ++ rest)) (hx : x < 2 ^ 64)
    (hn : (contents pre).length + front.length + 8 ≤ n) :
    f.word ((contents pre).length + front.length) = x := by
  rw [← List.length_append]
  refine File.word_take (B := rest ++ contents post) h.bytes ?_ ?_ hx
  · rw [contents_append, contents_cons, hr]
    simp only [List.append_assoc]
  · rwa [List.length_append]

/-- An array that is complete. -/
theorem Sees.range_at {r : Record} (h : Sees f n pre (r :: post)) (front array rest : Bytes)
    (hr : r.bytes = front ++ (array ++ rest))
    (hn : (contents pre).length + front.length + array.length ≤ n) :
    f.range ((contents pre).length + front.length) array.length = array := by
  rw [← List.length_append]
  refine File.range_take (C := rest ++ contents post) h.bytes ?_ ?_
  · rw [contents_append, contents_cons, hr]
    simp only [List.append_assoc]
  · rwa [List.length_append]

theorem Sees.length_lt {r : Record} (h : Sees f n pre (r :: post)) :
    (contents pre).length + r.bytes.length < 2 ^ 63 := by
  have hfits := h.fits
  rw [contents_append, contents_cons, List.length_append, List.length_append] at hfits
  omega

/-- **The head of an entry**, once it is complete. -/
theorem Sees.head {e : LogEntry} (h : Sees f n pre (.entry e :: post))
    (hn : (contents pre).length + 32 ≤ n) :
    f.word (contents pre).length = e.mEventID ∧
    f.word ((contents pre).length + 8) = e.mBuffer.length ∧
    f.word ((contents pre).length + 16) = e.mTsc ∧
    f.word ((contents pre).length + 24) = e.mTID := by
  have hlt := h.length_lt
  rw [Record.bytes, e.length_bytes] at hlt
  refine ⟨h.word e.bytes_eq (e.flag.trans (by decide)) (by omega), ?_, ?_, ?_⟩
  · exact h.word_at (le64 e.mEventID) _ e.bytes_eq (by omega) (by rw [length_le64]; omega)
  · refine h.word_at (le64 e.mEventID ++ le64 e.mBuffer.length)
      (le64 e.mTID ++ e.mBuffer) ?_ e.tsc_lt ?_
    · rw [Record.bytes, e.bytes_eq, List.append_assoc]
    · rw [List.length_append, length_le64, length_le64]
      omega
  · refine h.word_at (le64 e.mEventID ++ le64 e.mBuffer.length ++ le64 e.mTsc)
      e.mBuffer ?_ e.tid_lt ?_
    · rw [Record.bytes, e.bytes_eq]
      simp only [List.append_assoc]
    · rw [List.length_append, List.length_append, length_le64, length_le64, length_le64]
      omega

/-- **The class tag of a description** in front of what a reader has reached. -/
theorem Sees.tag {rs rs' : List Record} {d : EventDescDump}
    (h : Sees f n (rs ++ .desc d :: rs') post) (hn : (contents (rs ++ .desc d :: rs')).length ≤ n) :
    f.range ((contents rs).length + 432) 128 = d.mClassTag.toList := by
  have h' : Sees f n rs (.desc d :: (rs' ++ post)) :=
    ⟨by rw [h.bytes, List.append_assoc, List.cons_append],
      by rw [← List.cons_append, ← List.append_assoc]; exact h.fits⟩
  have hlen : d.mClassTag.toList.length = 128 := Vector.length_toList
  rw [contents_append, contents_cons, List.length_append, List.length_append, Record.bytes,
    d.length_bytes] at hn
  have := h'.range_at d.header d.mClassTag.toList []
    (by rw [List.append_nil]; rfl) (by rw [d.length_header, hlen]; omega)
  rwa [d.length_header, hlen] at this

/-- What a caller reads of an entry that is complete. -/
theorem Sees.item_eq {e : LogEntry} {descMap : ℕ → Option ℕ}
    (h : Sees f n pre (.entry e :: post)) (hmap : MapInv pre descMap)
    (hn : (contents pre).length + e.bytes.length ≤ n) :
    f.item (contents pre).length ((contents pre).length + 32)
      ((descMap (f.word (contents pre).length)).map (· + 432)) = e.item (descs pre) := by
  have hlen := e.length_bytes
  obtain ⟨h0, h8, h16, h24⟩ := h.head (by omega)
  have hbuffer : f.range ((contents pre).length + 32) e.mBuffer.length = e.mBuffer :=
    h.range_at e.head _ [] (by rw [List.append_nil]; rfl)
      (by rw [e.length_head]; omega)
  have htag : ((descMap e.mEventID).map (· + 432)).map (fun tag => f.range tag 128)
      = (latest (descs pre) e.mEventID).map fun d => d.mClassTag.toList := by
    have hptr := hmap e.mEventID
    cases hlatest : latest (descs pre) e.mEventID with
    | none =>
        rw [hlatest] at hptr
        rw [hptr]
        rfl
    | some d =>
        rw [hlatest] at hptr
        obtain ⟨rs, rs', rfl, hptr⟩ := hptr
        rw [hptr]
        exact congrArg some (h.tag (by omega))
  rw [File.item, h0, h8, h16, h24, hbuffer, htag]
  rfl

/-- **Where a reader stands**, by the entries that are left for it. -/
def Reading (log : Log) (s : Reader) (items : List (ℕ × LogItem)) : Prop :=
  ∃ pre post, log.records = pre ++ post ∧ s.mCurBinLogSize = (contents pre).length ∧
    MapInv pre s.mEventDescMap ∧ items = entriesFrom (contents pre).length (descs pre) post

theorem reading_opened (log : Log) : Reading log .opened log.entries :=
  ⟨[], log.records, rfl, rfl, mapInv_nil, rfl⟩

theorem sees_file (log : Log) (n : ℕ) (h : log.records = pre ++ post) :
    Sees (log.file n) n pre post :=
  ⟨by rw [← h]; rfl, by rw [← h]; exact log.fits⟩

/-- A poll where not even the head of the next entry is complete. -/
theorem Sees.poll_null (h : Sees f n pre post)
    (hsize : f.size < (contents pre).length + 32 ∨
      ∃ e rs, post = .entry e :: rs ∧ f.size < (contents pre).length + e.bytes.length) :
    Polling.poll n (entriesFrom (contents pre).length (descs pre) post)
      = (none, entriesFrom (contents pre).length (descs pre) post) := by
  have hnull : (Polling.poll n (entriesFrom (contents pre).length (descs pre) post)).1 = none := by
    rw [Polling.poll_null_iff]
    intro item hitem
    have hend := entriesFrom_end (List.mem_of_mem_head? hitem)
    rw [h.size] at hsize
    rcases hsize with hsize | ⟨e, rs, rfl, hsize⟩
    · omega
    · rw [entriesFrom, List.head?_cons, Option.mem_some_iff] at hitem
      rw [← hitem] at hend ⊢
      dsimp only at hend ⊢
      omega
  exact Prod.ext hnull (Polling.poll_null hnull)

/-- **A call returns the next entry exactly if it is complete**, and a call that
returns null leaves the same entries. -/
theorem read_spec (log : Log) (n : ℕ) {s : Reader} {items : List (ℕ × LogItem)}
    (h : Reading log s items) : (read (log.file n) s).1 = (Polling.poll n items).1 ∧
      Reading log (read (log.file n) s).2 (Polling.poll n items).2 := by
  obtain ⟨pre, post, hrec, hcur, hmap, rfl⟩ := h
  have hsees := sees_file log n hrec
  rw [read, logRead]
  dsimp only
  rw [hcur]
  split
  · rw [hsees.poll_null (.inl (by omega))]
    exact ⟨rfl, pre, post, hrec, rfl, hmap, rfl⟩
  · obtain ⟨pre', post', descMap', hread, hrecords, hmap', hentries, hstop⟩ :=
      readDescs_spec post hsees hmap
    have hrec' : log.records = pre' ++ post' := hrec.trans hrecords.symm
    have hsees' := sees_file log n hrec'
    rw [hread, ← hentries]
    dsimp only
    split
    · rw [hsees'.poll_null (.inl (by omega))]
      exact ⟨rfl, pre', post', hrec', rfl, hmap', rfl⟩
    · rename_i hhead
      have hsize := hsees'.size
      rcases hstop with rfl | ⟨e, rs, rfl⟩ | hn
      · rw [contents_nil, List.length_nil] at hsize
        omega
      · -- an entry whose head is complete
        have hend := hsees'.length_lt
        rw [Record.bytes, e.length_bytes] at hend
        rw [(hsees'.head (by omega)).2.1, Nat.mod_eq_of_lt (by omega)]
        have hbytes := e.length_bytes
        split
        · rw [hsees'.poll_null (.inr ⟨e, rs, rfl, by omega⟩)]
          exact ⟨rfl, pre', _, hrec', rfl, hmap', rfl⟩
        · rw [entriesFrom, Polling.poll, if_pos (by omega)]
          have hlen : (contents (pre' ++ [.entry e])).length
              = (contents pre').length + 32 + e.mBuffer.length := by
            rw [contents_append, List.length_append, contents_cons, contents_nil,
              List.append_nil, Record.bytes, hbytes]
            omega
          refine ⟨?_, pre' ++ [.entry e], rs, ?_, hlen.symm, hmap'.concat_entry e, ?_⟩
          · exact congrArg some (hsees'.item_eq hmap' (by omega))
          · rw [hrec', List.append_assoc]
            rfl
          · rw [descs_concat_entry, hlen, hbytes, Nat.add_assoc]
      · omega

/-! ### Sequences of calls -/

/-- **The results of calls** that see the given lengths of a log. -/
def Log.results (log : Log) (lengths : List ℕ) : List (Option LogItem) :=
  Polling.run (fun n s => read (log.file n) s) lengths .opened

/-- **LogRead refines the reader that is meant.** -/
theorem results_eq (log : Log) (lengths : List ℕ) :
    log.results lengths = Polling.run Polling.poll lengths log.entries :=
  Polling.run_eq_of_simulation (fun n _ _ h => read_spec log n h) lengths (reading_opened log)

/-- **What LogRead recovers.** -/
structure Recovers (log : Log) (lengths : List ℕ) : Prop where
  /-- The entries in order, none skipped or repeated. -/
  inOrder : (log.results lengths).reduceOption <+: log.entries.map Prod.snd
  /-- A call returns null only if the next entry is not complete. -/
  complete : ∀ before n after, lengths = before ++ n :: after →
    (log.results lengths)[before.length]? = some none →
    ∀ item ∈ log.entries[(log.results before).reduceOption.length]?, n < item.1
  /-- A call that returned null might as well not have been made. -/
  null : ∀ before n after, lengths = before ++ n :: after →
    (log.results lengths)[before.length]? = some none →
    log.results (before ++ after) = (log.results lengths).eraseIdx before.length
  /-- As many calls on the whole log as there are entries return all of them. -/
  all : log.entries.length ≤ lengths.count (contents log.records).length →
    (log.results lengths).reduceOption = log.entries.map Prod.snd

/-- **LogRead recovers the log**, whatever lengths of it the calls see.  A reader is one that polls
a list of entries (`Lib.Polling`): a call that finds a record cut off returns null, and a later one
takes up where it stood. -/
theorem logRead_recovers (log : Log) (lengths : List ℕ) : Recovers log lengths where
  inOrder := by
    rw [results_eq]
    exact Polling.run_poll_prefix lengths log.entries
  complete := by
    rintro before n after rfl h
    rw [results_eq] at h
    rw [results_eq]
    exact Polling.run_poll_complete h
  null := by
    rintro before n after rfl h
    rw [results_eq] at h ⊢
    rw [results_eq]
    exact Polling.run_poll_null h
  all := by
    intro hcount
    rw [results_eq]
    refine Polling.run_poll_all (fun item hitem => ?_) hcount
    have := (entriesFrom_end hitem).2
    rwa [Nat.zero_add] at this

end LinuxProgram.Binlog
