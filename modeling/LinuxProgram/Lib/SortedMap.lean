import Mathlib

/-!
# Ordered associative containers

`std::map<K, V, CMP>` as a list of entries in strictly increasing `CMP` order.
The order is a field of the container, so no operation can produce a map whose
keys repeat or run backwards, and no proof about a program that uses one has to
carry sortedness as an invariant of its own.

* `ComparatorLaws` — what the container asks of its comparator: a strict total
  order, given as a `Bool`-valued function.
* `SortedMap` — the container; an iterator is a position `i : ℕ`, and `end()` is
  the position `entries.length`.
* `upsert` — `f(m[key])`, where `operator[]` inserts a default when the key is
  absent.  `upsert_cases` says once everything it can do.
* `modifyAt`, `eraseAt` — mutation and `erase` through an iterator.  Both are
  stated by splitting the entries around the iterator (`SortedMap.Split`).
* `upperBound` — position of the first entry whose key is strictly after `key`.
* `sumWhere` — the sum of a weight over the entries whose key meets a condition;
  the operations change it in the obvious way.
-/

namespace LinuxProgram.Lib

universe u v

/-- **The comparator of an ordered container**: a strict total order. -/
class ComparatorLaws {κ : Type u} (cmp : κ → κ → Bool) : Prop where
  irrefl : ∀ a, cmp a a = false
  trans : ∀ {a b c}, cmp a b = true → cmp b c = true → cmp a c = true
  total : ∀ {a b}, cmp a b = false → cmp b a = false → a = b

namespace ComparatorLaws

variable {κ : Type u} {cmp : κ → κ → Bool} [ComparatorLaws cmp]

variable (cmp) in
/-- `irrefl`, with the comparator given. -/
theorem cmp_self (a : κ) : cmp a a = false := irrefl a

theorem asymm {a b : κ} (h : cmp a b = true) : cmp b a = false := by
  by_contra hba
  have := trans h (by simpa using hba)
  simp [cmp_self cmp a] at this

theorem ne_of_cmp {a b : κ} (h : cmp a b = true) : a ≠ b := by
  rintro rfl
  simp [cmp_self cmp a] at h

/-- Negative transitivity: "not after" composes. -/
theorem trans_not {a b c : κ} (hab : cmp b a = false) (hbc : cmp c b = false) :
    cmp c a = false := by
  by_contra hca
  have hca : cmp c a = true := by simpa using hca
  by_cases h : a = b
  · subst h
    simp [hca] at hbc
  · have hab' : cmp a b = true := by
      by_contra hn
      exact h (total (by simpa using hn) hab)
    simp [trans hca hab'] at hbc

/-- A key that is not after `b` comes before everything `b` comes before. -/
theorem trans_right {a b c : κ} (hba : cmp b a = false) (hbc : cmp b c = true) :
    cmp a c = true := by
  by_contra hac
  have := trans_not (by simpa using hac) hba
  simp [hbc] at this

end ComparatorLaws

open ComparatorLaws

/-- **An ordered map**: entries in strictly increasing key order. -/
@[ext] structure SortedMap {κ : Type u} (cmp : κ → κ → Bool) (β : Type v) where
  entries : List (κ × β)
  sorted : entries.Pairwise fun x y => cmp x.1 y.1 = true

namespace SortedMap

variable {κ : Type u} {β : Type v} {cmp : κ → κ → Bool}

/-- The empty map. -/
def empty : SortedMap cmp β := ⟨[], List.Pairwise.nil⟩

instance : Inhabited (SortedMap cmp β) := ⟨empty⟩

@[simp] theorem entries_empty : (empty : SortedMap cmp β).entries = [] := rfl

/-- **The entries split around an iterator** that points at `(key, value)`. -/
def Split (m : SortedMap cmp β) (pre : List (κ × β)) (key : κ) (value : β)
    (post : List (κ × β)) : Prop :=
  m.entries = pre ++ (key, value) :: post

theorem exists_split {m : SortedMap cmp β} {i : ℕ} {e : κ × β}
    (h : m.entries[i]? = some e) :
    ∃ pre post, m.Split pre e.1 e.2 post ∧ pre.length = i := by
  obtain ⟨hi, rfl⟩ := List.getElem?_eq_some_iff.mp h
  refine ⟨m.entries.take i, m.entries.drop (i + 1), ?_, by simp; omega⟩
  simp [Split]

section Split

variable {m : SortedMap cmp β} {pre post : List (κ × β)} {key : κ} {value : β}

theorem Split.before (h : m.Split pre key value post) {e : κ × β} (he : e ∈ pre) :
    cmp e.1 key = true := by
  have hs := m.sorted
  rw [h, List.pairwise_append] at hs
  exact hs.2.2 e he _ List.mem_cons_self

theorem Split.after (h : m.Split pre key value post) {e : κ × β} (he : e ∈ post) :
    cmp key e.1 = true := by
  have hs := m.sorted
  rw [h, List.pairwise_append, List.pairwise_cons] at hs
  exact hs.2.1.1 e he

theorem Split.mem (h : m.Split pre key value post) : (key, value) ∈ m.entries := by
  rw [h]
  simp

end Split

/-! ### Mutation through an iterator -/

/-- `it->second = f(it->second)` at the iterator `i`. -/
def modifyAt (m : SortedMap cmp β) (i : ℕ) (f : β → β) : SortedMap cmp β where
  entries := m.entries.modify i fun e => (e.1, f e.2)
  sorted := by
    have hmap : (m.entries.modify i fun e => (e.1, f e.2)).map Prod.fst
        = m.entries.map Prod.fst := by
      refine List.ext_getElem? fun j => ?_
      rw [List.getElem?_map, List.getElem?_map, List.getElem?_modify]
      cases m.entries[j]? <;> simp
      split <;> rfl
    have hs := m.sorted
    rw [← List.pairwise_map (f := Prod.fst) (R := fun x y => cmp x y = true)] at hs ⊢
    rwa [hmap]

/-- `it = m.erase(it)` at the iterator `i`; the returned iterator is `i` again. -/
def eraseAt (m : SortedMap cmp β) (i : ℕ) : SortedMap cmp β where
  entries := m.entries.eraseIdx i
  sorted := m.sorted.sublist (List.eraseIdx_sublist _ _)

theorem Split.modifyAt {m : SortedMap cmp β} {pre post : List (κ × β)} {key : κ}
    {value : β} (h : m.Split pre key value post) (f : β → β) :
    (m.modifyAt pre.length f).Split pre key (f value) post := by
  have hm : m.entries = pre ++ (key, value) :: post := h
  simp only [SortedMap.Split, SortedMap.modifyAt, hm]
  refine List.ext_getElem? fun j => ?_
  rw [List.getElem?_modify]
  rcases lt_trichotomy j pre.length with hj | hj | hj
  · simp [List.getElem?_append_left hj, show ¬ pre.length = j by omega]
  · subst hj
    simp
  · have hne : ¬ pre.length = j := by omega
    rw [List.getElem?_append_right hj.le, List.getElem?_append_right hj.le]
    obtain ⟨k, hk⟩ : ∃ k, j - pre.length = k + 1 := ⟨j - pre.length - 1, by omega⟩
    simp [hne, hk]

theorem Split.eraseAt {m : SortedMap cmp β} {pre post : List (κ × β)} {key : κ}
    {value : β} (h : m.Split pre key value post) :
    (m.eraseAt pre.length).entries = pre ++ post := by
  have hm : m.entries = pre ++ (key, value) :: post := h
  simp only [SortedMap.eraseAt, hm]
  rw [List.eraseIdx_append_of_length_le le_rfl]
  simp

/-! ### Loops over all entries -/

/-- The list operation behind `scan`. -/
def scanList {σ : Type*} (f : β → σ → β × σ) : σ → List (κ × β) → List (κ × β)
  | _, [] => []
  | acc, e :: rest => (e.1, (f e.2 acc).1) :: scanList f (f e.2 acc).2 rest

theorem scanList_keys {σ : Type*} (f : β → σ → β × σ) (acc : σ) (l : List (κ × β)) :
    (scanList f acc l).map Prod.fst = l.map Prod.fst := by
  induction l generalizing acc with
  | nil => rfl
  | cons e l ih => simp [scanList, ih]

/-- `for (auto& e : m)`, updating each value and threading an accumulator. -/
def scan {σ : Type*} (m : SortedMap cmp β) (f : β → σ → β × σ) (acc : σ) :
    SortedMap cmp β where
  entries := scanList f acc m.entries
  sorted := by
    have hs := m.sorted
    rw [← List.pairwise_map (f := Prod.fst) (R := fun x y => cmp x y = true)] at hs ⊢
    rwa [scanList_keys]

/-! ### `operator[]` -/

/-- The list operation behind `upsert`. -/
def upsertList (cmp : κ → κ → Bool) (key : κ) (dflt : β) (f : β → β) :
    List (κ × β) → List (κ × β)
  | [] => [(key, f dflt)]
  | e :: rest =>
      if cmp key e.1 then (key, f dflt) :: e :: rest
      else if cmp e.1 key then e :: upsertList cmp key dflt f rest
      else (e.1, f e.2) :: rest

/-- Everything `upsertList` can do: update the entry that is there, or insert a
new one at its place. -/
theorem upsertList_cases [ComparatorLaws cmp] (key : κ) (dflt : β) (f : β → β) :
    ∀ l : List (κ × β), (l.Pairwise fun x y => cmp x.1 y.1 = true) →
      (∃ pre value post, l = pre ++ (key, value) :: post ∧
          upsertList cmp key dflt f l = pre ++ (key, f value) :: post) ∨
      (∃ pre post, l = pre ++ post ∧ (∀ e ∈ pre, cmp e.1 key = true) ∧
          (∀ e ∈ post, cmp key e.1 = true) ∧
          upsertList cmp key dflt f l = pre ++ (key, f dflt) :: post) := by
  intro l
  induction l with
  | nil => intro _; exact Or.inr ⟨[], [], by simp [upsertList]⟩
  | cons e rest ih =>
      intro hs
      rw [List.pairwise_cons] at hs
      by_cases hlt : cmp key e.1 = true
      · refine Or.inr ⟨[], e :: rest, rfl, by simp, ?_, by simp [upsertList, hlt]⟩
        intro x hx
        rcases List.mem_cons.mp hx with rfl | hx
        · exact hlt
        · exact ComparatorLaws.trans hlt (hs.1 x hx)
      · by_cases hgt : cmp e.1 key = true
        · rcases ih hs.2 with ⟨pre, value, post, hl, hu⟩ | ⟨pre, post, hl, hpre, hpost, hu⟩
          · exact Or.inl ⟨e :: pre, value, post, by simp [hl],
              by simp [upsertList, hlt, hgt, hu]⟩
          · refine Or.inr ⟨e :: pre, post, by simp [hl], ?_, hpost,
              by simp [upsertList, hlt, hgt, hu]⟩
            intro x hx
            rcases List.mem_cons.mp hx with rfl | hx
            · exact hgt
            · exact hpre x hx
        · have hkey : key = e.1 := total (by simpa using hlt) (by simpa using hgt)
          exact Or.inl ⟨[], e.2, rest, by simp [hkey],
            by simp [upsertList, hkey, cmp_self cmp e.1]⟩

theorem upsertList_sorted [ComparatorLaws cmp] (key : κ) (dflt : β) (f : β → β)
    {l : List (κ × β)} (hs : l.Pairwise fun x y => cmp x.1 y.1 = true) :
    (upsertList cmp key dflt f l).Pairwise fun x y => cmp x.1 y.1 = true := by
  rcases upsertList_cases key dflt f l hs with
    ⟨pre, value, post, hl, hu⟩ | ⟨pre, post, hl, hpre, hpost, hu⟩
  · rw [hu]
    rw [hl] at hs
    simpa [List.pairwise_append] using hs
  · rw [hu]
    rw [hl, List.pairwise_append] at hs
    rw [List.pairwise_append, List.pairwise_cons]
    refine ⟨hs.1, ⟨hpost, hs.2.1⟩, fun a ha b hb => ?_⟩
    rcases List.mem_cons.mp hb with rfl | hb
    · exact hpre a ha
    · exact hs.2.2 a ha b hb

/-- `m[key]` updated by `f`, `operator[]` inserting `dflt` when `key` is absent. -/
def upsert [ComparatorLaws cmp] (m : SortedMap cmp β) (key : κ) (dflt : β) (f : β → β) :
    SortedMap cmp β where
  entries := upsertList cmp key dflt f m.entries
  sorted := upsertList_sorted key dflt f m.sorted

/-- **What `upsert` does**, on the container. -/
theorem upsert_cases [ComparatorLaws cmp] (m : SortedMap cmp β) (key : κ) (dflt : β)
    (f : β → β) :
    (∃ pre value post, m.Split pre key value post ∧
        (m.upsert key dflt f).Split pre key (f value) post) ∨
    (∃ pre post, m.entries = pre ++ post ∧ (∀ e ∈ pre, cmp e.1 key = true) ∧
        (∀ e ∈ post, cmp key e.1 = true) ∧
        (m.upsert key dflt f).Split pre key (f dflt) post) :=
  upsertList_cases key dflt f m.entries m.sorted

/-! ### `upper_bound` -/

/-- Position of the first entry whose key is strictly after `key`. -/
def upperBound (m : SortedMap cmp β) (key : κ) : ℕ :=
  m.entries.findIdx fun e => cmp key e.1

/-- The entries before `upper_bound` are the ones not after `key`, those from it
on are the ones after `key`. -/
theorem upperBound_split [ComparatorLaws cmp] (m : SortedMap cmp β) (key : κ) :
    ∃ pre post, m.entries = pre ++ post ∧ m.upperBound key = pre.length ∧
      (∀ e ∈ pre, cmp key e.1 = false) ∧ ∀ e ∈ post, cmp key e.1 = true := by
  obtain ⟨l, hs⟩ := m
  simp only [upperBound]
  induction l with
  | nil => exact ⟨[], [], by simp⟩
  | cons e rest ih =>
      rw [List.pairwise_cons] at hs
      by_cases h : cmp key e.1 = true
      · refine ⟨[], e :: rest, rfl, by simp [List.findIdx_cons, h], by simp, ?_⟩
        intro x hx
        rcases List.mem_cons.mp hx with rfl | hx
        · exact h
        · exact ComparatorLaws.trans h (hs.1 x hx)
      · obtain ⟨pre, post, hl, hi, hpre, hpost⟩ := ih hs.2
        refine ⟨e :: pre, post, by simp [hl], by simp [List.findIdx_cons, h, hi], ?_, hpost⟩
        intro x hx
        rcases List.mem_cons.mp hx with rfl | hx
        · simpa using h
        · exact hpre x hx

/-! ### Weighted sums over the entries -/

/-- The sum of `weight` over the entries whose key satisfies `φ`. -/
def sumWhere (φ : κ → Bool) (weight : β → ℕ) (l : List (κ × β)) : ℕ :=
  ((l.filter fun e => φ e.1).map fun e => weight e.2).sum

section SumWhere

variable (φ : κ → Bool) (weight : β → ℕ)

@[simp] theorem sumWhere_nil : sumWhere φ weight ([] : List (κ × β)) = 0 := rfl

@[simp] theorem sumWhere_cons (e : κ × β) (l : List (κ × β)) :
    sumWhere φ weight (e :: l) = (if φ e.1 then weight e.2 else 0) + sumWhere φ weight l := by
  by_cases h : φ e.1 = true <;> simp [sumWhere, h]

@[simp] theorem sumWhere_append (l₁ l₂ : List (κ × β)) :
    sumWhere φ weight (l₁ ++ l₂) = sumWhere φ weight l₁ + sumWhere φ weight l₂ := by
  simp [sumWhere]

theorem sumWhere_congr {weight' : β → ℕ} {l : List (κ × β)}
    (h : ∀ e ∈ l, φ e.1 = true → weight e.2 = weight' e.2) :
    sumWhere φ weight l = sumWhere φ weight' l := by
  induction l with
  | nil => rfl
  | cons e l ih =>
      rw [sumWhere_cons, sumWhere_cons, ih fun x hx => h x (List.mem_cons_of_mem _ hx)]
      by_cases hφ : φ e.1 = true
      · simp [hφ, h e List.mem_cons_self hφ]
      · simp [hφ]

theorem sumWhere_eq_zero {l : List (κ × β)}
    (h : ∀ e ∈ l, φ e.1 = true → weight e.2 = 0) : sumWhere φ weight l = 0 := by
  have hzero : sumWhere φ weight l = sumWhere φ (fun _ => 0) l := sumWhere_congr φ weight h
  rw [hzero]
  simp [sumWhere]

theorem sumWhere_all {l : List (κ × β)} (h : ∀ e ∈ l, φ e.1 = true) :
    sumWhere φ weight l = (l.map fun e => weight e.2).sum := by
  rw [sumWhere, List.filter_eq_self.mpr h]

/-- A condition that holds on a prefix selects the prefix. -/
theorem sumWhere_prefix {pre post : List (κ × β)} (hpre : ∀ e ∈ pre, φ e.1 = true)
    (hpost : ∀ e ∈ post, φ e.1 = false) :
    sumWhere φ weight (pre ++ post) = (pre.map fun e => weight e.2).sum := by
  rw [sumWhere_append, sumWhere_all φ weight hpre,
    sumWhere_eq_zero φ weight fun e he hφ => absurd hφ (by simp [hpost e he]), Nat.add_zero]

theorem le_sumWhere {l : List (κ × β)} {e : κ × β} (he : e ∈ l) (hφ : φ e.1 = true) :
    weight e.2 ≤ sumWhere φ weight l := by
  refine List.single_le_sum (fun x _ => Nat.zero_le x) _ ?_
  exact List.mem_map.mpr ⟨e, List.mem_filter.mpr ⟨he, hφ⟩, rfl⟩

/-- The entries not after an iterator's key are those up to the iterator. -/
theorem Split.sumWhere_notAfter [ComparatorLaws cmp] {m : SortedMap cmp β}
    {pre post : List (κ × β)} {key : κ} {value : β} (h : m.Split pre key value post) :
    sumWhere (fun k => !cmp key k) weight m.entries
      = (pre.map fun e => weight e.2).sum + weight value := by
  rw [show m.entries = _ from h, List.append_cons,
    sumWhere_prefix _ _ (fun e he => ?_) fun e he => ?_]
  · simp
  · rcases List.mem_append.mp he with he | he
    · simp [asymm (h.before he)]
    · rw [List.mem_singleton.mp he]
      simp [cmp_self cmp key]
  · simp [h.after he]

/-- The entries before an iterator's key are those in front of the iterator. -/
theorem Split.sumWhere_before [ComparatorLaws cmp] {m : SortedMap cmp β}
    {pre post : List (κ × β)} {key : κ} {value : β} (h : m.Split pre key value post) :
    sumWhere (fun k => cmp k key) weight m.entries = (pre.map fun e => weight e.2).sum := by
  rw [show m.entries = _ from h, sumWhere_prefix _ _ (fun e he => h.before he) fun e he => ?_]
  rcases List.mem_cons.mp he with rfl | he
  · exact cmp_self cmp key
  · exact asymm (h.after he)

/-- `upsert` adds to the sum what `f` adds to the entry it touches. -/
theorem sumWhere_upsert [ComparatorLaws cmp] (m : SortedMap cmp β) (key : κ) (dflt : β)
    (f : β → β) (hdflt : weight dflt = 0) {x : ℕ} (hf : ∀ b, weight (f b) = weight b + x) :
    sumWhere φ weight (m.upsert key dflt f).entries =
      sumWhere φ weight m.entries + if φ key then x else 0 := by
  rcases m.upsert_cases key dflt f with ⟨pre, value, post, hm, hu⟩ | ⟨pre, post, hm, -, -, hu⟩
  · rw [hu, show m.entries = _ from hm]
    by_cases h : φ key = true
    · simp [h, hf]
      omega
    · simp [h]
  · rw [hu, hm]
    by_cases h : φ key = true
    · simp [h, hf, hdflt]
      omega
    · simp [h]

end SumWhere

end SortedMap

end LinuxProgram.Lib
