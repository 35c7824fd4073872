import Mathlib.Data.Option.Basic
import Mathlib.Logic.Function.Basic
import Mathlib.Tactic.Common
/-!
# Assignments in order

A table is assigned to, key by key. What it holds at a key in the end is
the last value that was assigned there, or else what it held before
(`assign_apply`).
-/

namespace Jubilee

variable {κ β : Type*} [DecidableEq κ]

/-- The values assigned to a key, in order. -/
def assignedTo (ws : List (κ × β)) (k : κ) : List β :=
  ws.filterMap fun w => if w.1 = k then some w.2 else none

/-- The last of them. -/
def lastTo (ws : List (κ × β)) (k : κ) : Option β := (assignedTo ws k).getLast?

/-- The table after assignments. -/
def assign (f : κ → Option β) (ws : List (κ × β)) : κ → Option β :=
  ws.foldl (fun f w => Function.update f w.1 (some w.2)) f

variable {f : κ → Option β} {ws ws' : List (κ × β)} {k : κ}

theorem assign_append : assign f (ws ++ ws') = assign (assign f ws) ws' := List.foldl_append

/-- The later of two lists of assignments goes first. -/
theorem lastTo_append : lastTo (ws ++ ws') k = (lastTo ws' k).or (lastTo ws k) := by
  rw [lastTo, assignedTo, List.filterMap_append, List.getLast?_append]
  rfl

theorem lastTo_singleton (k' : κ) (v : β) :
    lastTo [(k', v)] k = if k' = k then some v else none := by
  by_cases h : k' = k
  · rw [if_pos h]
    simp [lastTo, assignedTo, h]
  · rw [if_neg h]
    simp [lastTo, assignedTo, h]

/-- **The last assignment to a key counts**, and without one the table is
as it was. -/
theorem assign_apply (f : κ → Option β) (ws : List (κ × β)) (k : κ) :
    assign f ws k = (lastTo ws k).or (f k) := by
  induction ws generalizing f with
  | nil => rfl
  | cons w ws ih =>
    -- the first assignment counts where no later one is to the key
    rw [assign, List.foldl_cons, ← assign, ih, ← List.singleton_append, lastTo_append,
      lastTo_singleton, Option.or_assoc]
    congr 1
    by_cases h : w.1 = k
    · rw [if_pos h, h, Function.update_self, Option.some_or]
    · rw [if_neg h, Function.update_of_ne (Ne.symm h), Option.none_or]

/-- A key that nothing is assigned to. -/
theorem lastTo_eq_none (h : ∀ w ∈ ws, w.1 ≠ k) : lastTo ws k = none := by
  have hnil : assignedTo ws k = [] := List.filterMap_eq_nil_iff.mpr fun w hw => if_neg (h w hw)
  rw [lastTo, hnil, List.getLast?_nil]

end Jubilee
