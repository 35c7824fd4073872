import Mathlib.Data.List.Basic
import Mathlib.Data.Int.Basic
import Mathlib.Order.Basic
import Mathlib.Tactic.Common
/-!
# Slices and lines

Two ways to cut a list. A *slice* is the stretch between two positions,
and consecutive slices join (`slice_append_slice`). A *line* ends with
the first delimiter, which it keeps, or with the list. Both are stated
over an arbitrary type of elements.
-/

namespace Jubilee

variable {α : Type*}

/-! ## Slices -/

/-- The elements of `xs` at the positions from `p` up to, and not
including, `q`. -/
def slice (xs : List α) (p q : ℕ) : List α := (xs.take q).drop p

@[simp] theorem slice_self (xs : List α) (p : ℕ) : slice xs p p = [] := by
  simp [slice]

theorem slice_zero (xs : List α) (q : ℕ) : slice xs 0 q = xs.take q := rfl

/-- A slice is a prefix of what remains at its start. -/
theorem slice_eq_take_drop (xs : List α) (p q : ℕ) :
    slice xs p q = (xs.drop p).take (q - p) := by
  rw [slice, List.drop_take]

theorem slice_of_length_le {xs : List α} {p q : ℕ} (h : xs.length ≤ q) :
    slice xs p q = xs.drop p := by
  rw [slice, List.take_of_length_le h]

theorem length_slice {xs : List α} {p q : ℕ} (hq : q ≤ xs.length) :
    (slice xs p q).length = q - p := by
  rw [slice, List.length_drop, List.length_take, Nat.min_eq_left hq]

/-- **Consecutive slices join.** -/
theorem slice_append_slice (xs : List α) {p q r : ℕ} (hpq : p ≤ q) (hqr : q ≤ r) :
    slice xs p q ++ slice xs q r = slice xs p r := by
  simp only [slice_eq_take_drop]
  have hr : r - p = (q - p) + (r - q) := by omega
  have hq : xs.drop q = (xs.drop p).drop (q - p) := by
    rw [List.drop_drop, Nat.add_sub_cancel' hpq]
  rw [hr, List.take_add, hq]

/-- A slice that ends inside a prefix is a slice of the prefix. -/
theorem slice_append_left {xs ys : List α} {p q : ℕ} (hq : q ≤ xs.length) :
    slice (xs ++ ys) p q = slice xs p q := by
  rw [slice, slice, List.take_append_of_le_length hq]

/-! ## Lines -/

variable [DecidableEq α]

/-- The first line of `xs`: everything up to and including the first `d`,
or all of `xs` where there is none. -/
def line (d : α) : List α → List α
  | [] => []
  | x :: xs => if x = d then [x] else x :: line d xs

/-- With the first delimiter at position `i` the line is the `i + 1`
elements up to it. -/
theorem line_of_findIdx {d : α} {xs : List α} {i : ℕ}
    (h : xs.findIdx? (· = d) = some i) : line d xs = xs.take (i + 1) := by
  induction xs generalizing i with
  | nil => simp at h
  | cons x xs ih =>
    rw [List.findIdx?_cons] at h
    by_cases hx : x = d
    · simp only [hx, decide_true, if_true, Option.some.injEq] at h
      simp [line, hx, ← h]
    · simp only [hx, decide_false, Bool.false_eq_true, if_false, Option.map_eq_some_iff] at h
      obtain ⟨j, hj, rfl⟩ := h
      rw [line, if_neg hx, ih hj, List.take_succ_cons]

/-- **The line is the whole list exactly when no delimiter stands before
the last element.** -/
theorem line_eq_self_iff {d : α} {xs : List α} : line d xs = xs ↔ d ∉ xs.dropLast := by
  induction xs with
  | nil => simp [line]
  | cons x xs ih =>
    cases xs with
    | nil => by_cases hx : x = d <;> simp [line, hx]
    | cons y ys =>
      by_cases hx : x = d
      · simp [line, hx]
      · rw [line, if_neg hx, List.dropLast_cons_cons, List.mem_cons, not_or, List.cons.injEq, ih]
        exact ⟨fun h => ⟨Ne.symm hx, h.2⟩, fun h => ⟨rfl, h.2⟩⟩

/-- A line is a prefix of where it starts. -/
theorem take_length_line (d : α) (xs : List α) : xs.take (line d xs).length = line d xs := by
  induction xs with
  | nil => rfl
  | cons x xs ih =>
    by_cases hx : x = d
    · simp [line, hx]
    · rw [line, if_neg hx, List.length_cons, List.take_succ_cons, ih]

theorem line_ne_nil {d : α} {xs : List α} (h : xs ≠ []) : line d xs ≠ [] := by
  cases xs with
  | nil => exact absurd rfl h
  | cons x xs => by_cases hx : x = d <;> simp [line, hx]

/-- No delimiter stands before its last element. -/
theorem notMem_dropLast_line (d : α) (xs : List α) : d ∉ (line d xs).dropLast := by
  induction xs with
  | nil => exact List.not_mem_nil
  | cons x xs ih =>
    by_cases hx : x = d
    · simp [line, hx]
    · rw [line, if_neg hx]
      cases hline : line d xs with
      | nil => exact List.not_mem_nil
      | cons y ys =>
        rw [hline] at ih
        rw [List.dropLast_cons_cons, List.mem_cons, not_or]
        exact ⟨Ne.symm hx, ih⟩

/-- A line with something after it ends in the delimiter. -/
theorem getLast?_line {d : α} {xs : List α} (h : line d xs ≠ xs) :
    (line d xs).getLast? = some d := by
  induction xs with
  | nil => exact absurd rfl h
  | cons x xs ih =>
    by_cases hx : x = d
    · simp [line, hx]
    · rw [line, if_neg hx] at h ⊢
      have hlast := ih fun hline => h (by rw [hline])
      cases hline : line d xs with
      | nil => rw [hline] at hlast; cases hlast
      | cons y ys => rw [List.getLast?_cons_cons, ← hline, hlast]

/-- A list cut into its lines. -/
structure Lines (d : α) (xs : List α) (lines : List (List α)) : Prop where
  flatten : lines.flatten = xs
  ne_nil : ∀ l ∈ lines, l ≠ []
  notMem : ∀ l ∈ lines, d ∉ l.dropLast
  getLast : ∀ l ∈ lines.dropLast, l.getLast? = some d

namespace Lines

variable {d : α} {xs : List α} {lines : List (List α)}

omit [DecidableEq α] in
theorem nil (d : α) : Lines d [] [] := ⟨rfl, nofun, nofun, nofun⟩

/-- **The first line, and the lines of what is left.** -/
theorem cons (hne : xs ≠ []) (h : Lines d (xs.drop (line d xs).length) lines) :
    Lines d xs (line d xs :: lines) := by
  refine ⟨?_, ?_, ?_, ?_⟩
  · rw [List.flatten_cons, h.flatten]
    nth_rewrite 1 [← take_length_line d xs]
    exact List.take_append_drop _ xs
  · exact List.forall_mem_cons.mpr ⟨line_ne_nil hne, h.ne_nil⟩
  · exact List.forall_mem_cons.mpr ⟨notMem_dropLast_line d xs, h.notMem⟩
  · cases lines with
    | nil => exact nofun
    | cons l ls =>
      rw [List.dropLast_cons_cons]
      refine List.forall_mem_cons.mpr ⟨getLast?_line fun hline => ?_, h.getLast⟩
      -- something is left, as a line of it is
      have hrest := h.flatten
      rw [hline, List.drop_length, List.flatten_cons, List.append_eq_nil_iff] at hrest
      exact h.ne_nil l List.mem_cons_self hrest.1

end Lines

end Jubilee
