import Mathlib.Algebra.Ring.Parity
import Mathlib.Data.List.DropRight
/-!
# A flag that is set and flipped

Some operations set a flag, some flip it, and the others leave it alone.
What it is after a sequence of them is a parity: of the flips since it
was set last.
-/

namespace Jubilee

/-- Which operations set the flag, and which flip it. -/
structure Flag (α : Type*) where
  sets : α → Bool
  flips : α → Bool
  not_flips_of_sets : ∀ op, sets op = true → flips op = false

namespace Flag

variable {α : Type*} (f : Flag α)

/-- The flag after one operation. -/
def step (flag : Bool) (op : α) : Bool := (flag || f.sets op) ^^ f.flips op

/-- The flag after a sequence of them. -/
def run (flag : Bool) (ops : List α) : Bool := ops.foldl f.step flag

/-- It was flipped an odd number of times. -/
def odd (ops : List α) : Bool := decide (Odd (ops.countP f.flips))

/-- The operations since it was set last, all of them if it was not. -/
def sinceSet (ops : List α) : List α := ops.rtakeWhile fun op => !f.sets op

/-- The operations until then. -/
def untilSet (ops : List α) : List α := ops.rdropWhile fun op => !f.sets op

variable {f} {flag : Bool} {ops : List α} {op : α}

theorem run_concat (flag : Bool) (ops : List α) (op : α) :
    f.run flag (ops ++ [op]) = f.step (f.run flag ops) op := by
  rw [run, List.foldl_append]
  rfl

theorem step_of_sets (flag : Bool) (h : f.sets op = true) : f.step flag op = true := by
  rw [step, h, f.not_flips_of_sets op h, Bool.or_true, Bool.xor_false]

theorem step_of_not_sets (flag : Bool) (h : f.sets op = false) :
    f.step flag op = (flag ^^ f.flips op) := by
  rw [step, h, Bool.or_false]

theorem odd_concat (ops : List α) (op : α) : f.odd (ops ++ [op]) = (f.odd ops ^^ f.flips op) := by
  rw [odd, odd, List.countP_append, List.countP_singleton]
  cases f.flips op with
  | true => simp only [if_true, Nat.odd_add_one, decide_not, Bool.xor_true]
  | false => exact (Bool.xor_false _).symm

/-- A flag that was not set is as the flips leave it. -/
theorem run_of_not_set (h : ∀ op ∈ ops, f.sets op = false) :
    f.run flag ops = (flag ^^ f.odd ops) := by
  induction ops using List.reverseRecOn with
  | nil => exact (Bool.xor_false flag).symm
  | append_singleton ops op ih =>
    have hops : ∀ op ∈ ops, f.sets op = false := fun op hop => h op (List.mem_append_left _ hop)
    rw [run_concat, step_of_not_sets _ (h op List.mem_concat_self), ih hops, odd_concat,
      Bool.xor_assoc]

/-- **A flag that was set** is as the flips since then leave it. -/
theorem run_of_set (h : ∃ op ∈ ops, f.sets op = true) :
    f.run flag ops = !f.odd (f.sinceSet ops) := by
  induction ops using List.reverseRecOn with
  | nil =>
    obtain ⟨op, hop, -⟩ := h
    cases hop
  | append_singleton ops op ih =>
    cases hset : f.sets op with
    | true =>
      have hsince : f.sinceSet (ops ++ [op]) = [] :=
        List.rtakeWhile_concat_neg _ _ _ (by simp [hset])
      rw [run_concat, step_of_sets _ hset, hsince]
      rfl
    | false =>
      have hsince : f.sinceSet (ops ++ [op]) = f.sinceSet ops ++ [op] :=
        List.rtakeWhile_concat_pos _ _ _ (by simp [hset])
      have hops : ∃ op ∈ ops, f.sets op = true := by
        obtain ⟨op', hop', hset'⟩ := h
        rcases List.mem_append.mp hop' with hmem | hmem
        · exact ⟨op', hmem, hset'⟩
        · rw [List.mem_singleton.mp hmem, hset] at hset'
          cases hset'
      rw [run_concat, step_of_not_sets _ hset, ih hops, hsince, odd_concat, Bool.not_xor]

end Flag

end Jubilee
