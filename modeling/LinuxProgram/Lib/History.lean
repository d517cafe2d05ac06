import Mathlib

/-!
# Histories of calls

What a sequence of calls does to an object that answers them one after the other.

* `History` — the calls lead from one state of the object to another.
* `History.append` — histories that follow each other.
-/

namespace LinuxProgram.Lib

variable {σ : Type*} {α : Type*} {answers : σ → α → σ → Prop}

/-- **A history**: each call is answered in the state that those before it have left. -/
inductive History (answers : σ → α → σ → Prop) (s : σ) : List α → σ → Prop
  | nil : History answers s [] s
  | snoc {calls : List α} {call : α} {t t' : σ} (h : History answers s calls t)
      (hcall : answers t call t') : History answers s (calls ++ [call]) t'

variable {s t u : σ} {calls calls' : List α}

theorem History.append (h : History answers s calls t) (h' : History answers t calls' u) :
    History answers s (calls ++ calls') u := by
  induction h' with
  | nil => rwa [List.append_nil]
  | snoc _ hcall ih =>
      rw [← List.append_assoc]
      exact .snoc ih hcall

end LinuxProgram.Lib
