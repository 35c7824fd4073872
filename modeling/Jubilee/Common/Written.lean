import Mathlib.Data.List.Basic
import Mathlib.Tactic.Common
/-!
# Logs that a rule writes

A rule says what the next entry of a log is, from those that are there.
Two logs that follow one rule agree as far as they both go
(`Written.suffix_or_suffix`), and are the same where the rule has nothing
to add to either (`Written.eq_of_ended`). So whatever else two runs
differ in, where each writes its log by the rule they write the same.
-/

namespace Jubilee

variable {ε : Type*}

/-- Each entry is what the rule says of the older ones. Logs are newest
first. -/
def Written (rule : List ε → Option ε) : List ε → Prop
  | [] => True
  | e :: older => rule older = some e ∧ Written rule older

namespace Written

variable {rule : List ε → Option ε} {l l' : List ε}

/-- The shorter of two logs is what the longer one began as. -/
theorem suffix_of_length_le (h : Written rule l) (h' : Written rule l')
    (hle : l.length ≤ l'.length) : l <:+ l' := by
  induction l' generalizing l with
  | nil =>
    obtain rfl := List.length_eq_zero_iff.mp (Nat.le_zero.mp hle)
    exact List.suffix_refl _
  | cons e' older' ih =>
    rcases Nat.lt_or_eq_of_le hle with hlt | heq
    · exact (ih h h'.2 (Nat.le_of_lt_succ hlt)).trans (List.suffix_cons e' older')
    · -- as long as each other: the older entries are the same, and so is the next
      cases l with
      | nil => cases heq
      | cons e older =>
        have hlength : older.length = older'.length := Nat.succ.inj heq
        obtain rfl := (ih h.2 h'.2 (Nat.le_of_eq hlength)).eq_of_length hlength
        obtain rfl := Option.some.inj (h.1.symm.trans h'.1)
        exact List.suffix_refl _

/-- **Two logs agree** as far as they both go. -/
theorem suffix_or_suffix (h : Written rule l) (h' : Written rule l') : l <:+ l' ∨ l' <:+ l :=
  (Nat.le_total l.length l'.length).imp (h.suffix_of_length_le h') (h'.suffix_of_length_le h)

/-- A log to which the rule has nothing to add is no beginning of a longer
one. -/
theorem eq_of_suffix (h' : Written rule l') (hend : rule l = none) (hle : l <:+ l') : l = l' := by
  induction l' with
  | nil => exact List.suffix_nil.mp hle
  | cons e older ih =>
    rcases List.suffix_cons_iff.mp hle with rfl | hle
    · rfl
    · -- the rule has had something to add after all
      obtain rfl := ih h'.2 hle
      rw [h'.1] at hend
      cases hend

/-- **Two logs that have ended are the same.** -/
theorem eq_of_ended (h : Written rule l) (h' : Written rule l') (hend : rule l = none)
    (hend' : rule l' = none) : l = l' := by
  rcases h.suffix_or_suffix h' with hle | hle
  · exact eq_of_suffix h' hend hle
  · exact (eq_of_suffix h hend' hle).symm

end Written

end Jubilee
