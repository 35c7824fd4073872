import Mathlib.Data.List.AList
/-!
# Two more operations on a finite table

Keeping the entries that pass a test, and merging another table in, for
the association lists of Mathlib. Each is given by what it does to a
lookup.
-/

namespace Jubilee

namespace Table

variable {κ β : Type*} [DecidableEq κ]

/-- The entries that pass the test. -/
def keepIf (p : κ → β → Bool) (t : AList fun _ : κ => β) : AList fun _ : κ => β where
  entries := t.entries.filter fun e => p e.1 e.2
  nodupKeys := t.nodupKeys.sublist List.filter_sublist

theorem lookup_keepIf (p : κ → β → Bool) (t : AList fun _ : κ => β) (k : κ) :
    (keepIf p t).lookup k = (t.lookup k).filter (p k) := by
  ext v
  rw [← Option.mem_def, AList.mem_lookup_iff, keepIf, List.mem_filter, ← AList.mem_lookup_iff,
    Option.mem_def, Option.filter_eq_some_iff]

/-- The entries of `new`, each with what `resolve` makes of it and the
value that `t` has at its key, if there is one. -/
def resolved (resolve : κ → β → β → β) (new t : AList fun _ : κ => β) : AList fun _ : κ => β where
  entries := new.entries.map fun e =>
    ⟨e.1, (t.lookup e.1).elim e.2 fun old => resolve e.1 old e.2⟩
  nodupKeys := by
    have hkeys := new.nodupKeys
    rw [List.NodupKeys, List.keys] at hkeys ⊢
    rwa [List.map_map]

theorem lookup_resolved (resolve : κ → β → β → β) (new t : AList fun _ : κ => β) (k : κ) :
    (resolved resolve new t).lookup k =
      (new.lookup k).map fun v => (t.lookup k).elim v fun old => resolve k old v :=
  List.dlookup_map₂ (f := fun k v => (t.lookup k).elim v fun old => resolve k old v) k

/-- The entries of `new` brought into `t`. -/
def merge (resolve : κ → β → β → β) (new t : AList fun _ : κ => β) : AList fun _ : κ => β :=
  resolved resolve new t ∪ t

theorem lookup_merge (resolve : κ → β → β → β) (new t : AList fun _ : κ => β) (k : κ) :
    (merge resolve new t).lookup k =
      (new.lookup k).elim (t.lookup k) fun v =>
        some ((t.lookup k).elim v fun old => resolve k old v) := by
  have hlookup := lookup_resolved resolve new t k
  cases hv : new.lookup k with
  | some v =>
    rw [hv, Option.map_some] at hlookup
    have hmem : k ∈ resolved resolve new t := AList.lookup_isSome.mp (by rw [hlookup]; rfl)
    rw [merge, AList.lookup_union_left hmem, hlookup, Option.elim_some]
  | none =>
    rw [hv, Option.map_none] at hlookup
    rw [merge, AList.lookup_union_right (AList.lookup_eq_none.mp hlookup), Option.elim_none]

end Table

end Jubilee
