import LinuxProgram.Lib.Agents

/-!
# Agents that wait to be woken

Some agents sleep until a condition holds.  One that makes it hold wakes the sleepers, but later:
in between a wake-up is due.

* `NoLostWakeUp` — an agent sleeps only if the condition does not hold, or if a wake-up is due.
* `set`, `map`, `of_due`, `of_awake` — it is kept by an agent that leaves the condition, by one that
  will wake the others, and by waking them.
-/

namespace LinuxProgram.Lib

variable {α : Type*}

/-- **No wake-up is lost**: if `wait` does not hold, so that nobody has to wait, the agents that
are `asleep` will be woken. -/
def NoLostWakeUp (asleep due : α → Prop) (wait : Prop) (xs : List α) : Prop :=
  (∃ x ∈ xs, asleep x) → wait ∨ ∃ x ∈ xs, due x

namespace NoLostWakeUp

variable {asleep due : α → Prop} {wait wait' : Prop} {xs : List α} {i : ℕ} {x y : α}

/-- Who is there behind a step. -/
theorem mem_set (hx : xs[i]? = some x) {z : α} (hz : z ∈ xs) : z = x ∨ z ∈ xs.set i y := by
  obtain ⟨j, hj⟩ := List.mem_iff_getElem?.mp hz
  by_cases hij : j = i
  · rw [hij, hx] at hj
    exact .inl (Option.some.inj hj).symm
  · refine .inr (List.mem_iff_getElem?.mpr ⟨j, ?_⟩)
    rw [Agents.getElem?_set hx, if_neg hij, hj]

/-- **A step of an agent** that is not to wake anybody, and goes to sleep only if it has to. -/
theorem set (h : NoLostWakeUp asleep due wait xs) (hx : xs[i]? = some x)
    (hdue : due x → due y) (hasleep : asleep y → asleep x ∨ wait')
    (hwait : wait → wait' ∨ due y) : NoLostWakeUp asleep due wait' (xs.set i y) := by
  have hmem := Agents.mem_set_self hx y
  have hkeep : (∃ z ∈ xs, asleep z) → wait' ∨ ∃ z ∈ xs.set i y, due z := fun hsleep => by
    rcases h hsleep with hw | ⟨z, hz, hzdue⟩
    · exact (hwait hw).imp_right fun hy => ⟨y, hmem, hy⟩
    · rcases mem_set hx hz with rfl | hz'
      · exact .inr ⟨y, hmem, hdue hzdue⟩
      · exact .inr ⟨z, hz', hzdue⟩
  rintro ⟨z, hz, hzasleep⟩
  rcases List.mem_or_eq_of_mem_set hz with hz | rfl
  · exact hkeep ⟨z, hz, hzasleep⟩
  · rcases hasleep hzasleep with hxasleep | hw
    · exact hkeep ⟨x, List.mem_of_getElem? hx, hxasleep⟩
    · exact .inl hw

/-- The condition may change as long as a wake-up is due. -/
theorem of_due (hy : y ∈ xs) (hdue : due y) : NoLostWakeUp asleep due wait xs :=
  fun _ => .inr ⟨y, hy, hdue⟩

/-- Only the condition changes. -/
theorem imp (h : NoLostWakeUp asleep due wait xs) (hwait : wait → wait') :
    NoLostWakeUp asleep due wait' xs := fun hsleep => (h hsleep).imp_left hwait

/-- All agents may change, if none goes to sleep and the wake-ups stay due. -/
theorem map (h : NoLostWakeUp asleep due wait xs) {f : α → α}
    (hasleep : ∀ x, asleep (f x) → asleep x) (hdue : ∀ x, due x → due (f x)) :
    NoLostWakeUp asleep due wait (xs.map f) := by
  rintro ⟨y, hy, hyasleep⟩
  obtain ⟨x, hx, rfl⟩ := List.mem_map.mp hy
  refine (h ⟨x, hx, hasleep x hyasleep⟩).imp_right ?_
  rintro ⟨z, hz, hzdue⟩
  exact ⟨f z, List.mem_map_of_mem hz, hdue z hzdue⟩

/-- **Everybody is woken.** -/
theorem of_awake (h : ∀ x ∈ xs, ¬asleep x) : NoLostWakeUp asleep due wait xs :=
  fun ⟨x, hx, hasleep⟩ => absurd hasleep (h x hx)

end NoLostWakeUp

end LinuxProgram.Lib
