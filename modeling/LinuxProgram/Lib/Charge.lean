import Mathlib

/-!
# Counting by charging

A log is bounded by the number of accounts its entries can be charged to, if every
entry settles an account and a settled account is in no later entry.

* `Charged` — such a log.
* `Charged.length_le` — it has no more entries than there are accounts.
* `Charged.append` — two logs, if the accounts the first settles are not in the second.
-/

namespace LinuxProgram.Lib

universe u

variable {α : Type u} {settles names : α → ℕ → Prop} {bound : ℕ} {log log' : List α}

/-- **A charged log**: every entry settles an account below `bound`, and no later entry
names that account. -/
structure Charged (settles names : α → ℕ → Prop) (bound : ℕ) (log : List α) : Prop where
  settled : ∀ a ∈ log, ∃ n < bound, settles a n
  once : log.Pairwise fun a b => ∀ n, settles a n → ¬ names b n

namespace Charged

theorem nil : Charged settles names bound [] := ⟨nofun, .nil⟩

theorem mono (h : Charged settles names bound log) {bound' : ℕ} (hle : bound ≤ bound') :
    Charged settles names bound' log where
  settled a ha := by
    obtain ⟨n, hn, hs⟩ := h.settled a ha
    exact ⟨n, hn.trans_le hle, hs⟩
  once := h.once

theorem append (h : Charged settles names bound log) (h' : Charged settles names bound log')
    (hfresh : ∀ a ∈ log, ∀ n, settles a n → ∀ b ∈ log', ¬ names b n) :
    Charged settles names bound (log ++ log') where
  settled a ha := by
    rcases List.mem_append.mp ha with ha | ha
    · exact h.settled a ha
    · exact h'.settled a ha
  once := List.pairwise_append.mpr
    ⟨h.once, h'.once, fun a ha b hb n hs => hfresh a ha n hs b hb⟩

/-- One account for each entry, no two the same. -/
theorem exists_accounts (hsub : ∀ a n, settles a n → names a n)
    (h : Charged settles names bound log) :
    ∃ accounts : List ℕ, accounts.length = log.length ∧ accounts.Nodup ∧
      ∀ n ∈ accounts, n < bound ∧ ∃ a ∈ log, settles a n := by
  induction log with
  | nil => exact ⟨[], rfl, List.nodup_nil, nofun⟩
  | cons a log ih =>
      obtain ⟨hlater, honce⟩ := List.pairwise_cons.mp h.once
      obtain ⟨accounts, hlen, hnd, hmem⟩ :=
        ih ⟨fun b hb => h.settled b (List.mem_cons_of_mem _ hb), honce⟩
      obtain ⟨n, hn, hs⟩ := h.settled a List.mem_cons_self
      refine ⟨n :: accounts, by simp [hlen], ?_, fun k hk => ?_⟩
      · rw [List.nodup_cons]
        refine ⟨fun hin => ?_, hnd⟩
        -- an account that a later entry settles is named by it
        obtain ⟨-, b, hb, hsb⟩ := hmem n hin
        exact hlater b hb n hs (hsub b n hsb)
      · rcases List.mem_cons.mp hk with rfl | hk
        · exact ⟨hn, a, List.mem_cons_self, hs⟩
        · obtain ⟨hlt, b, hb, hsb⟩ := hmem k hk
          exact ⟨hlt, b, List.mem_cons_of_mem _ hb, hsb⟩

/-- **A charged log has no more entries than there are accounts.** -/
theorem length_le (hsub : ∀ a n, settles a n → names a n)
    (h : Charged settles names bound log) : log.length ≤ bound := by
  obtain ⟨accounts, hlen, hnd, hmem⟩ := h.exists_accounts hsub
  have hrange : accounts ⊆ List.range bound := fun n hn => List.mem_range.mpr (hmem n hn).1
  calc log.length = accounts.length := hlen.symm
    _ ≤ (List.range bound).length := (hnd.subperm hrange).length_le
    _ = bound := List.length_range

end Charged

end LinuxProgram.Lib
