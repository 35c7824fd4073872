import Mathlib.Data.Option.Basic
import Mathlib.Data.List.Basic
import Mathlib.Tactic.Common
/-!
# A table that is filled lazily, at one of its keys

A table draws its entries from elsewhere, and each when it is first asked
for: either the one key that is touched, or all keys at once, after which
nothing is drawn any more. At one key that is a `Cell`: the stored value,
a slot whose content can be drawn once, and whether the whole table was
filled. Next to the slot there may be a source that can be drawn on again
and again, and the fill of one key and the fill of all need not find the
same in it (`Origin`).

What a full fill would leave, `final`, is kept by every operation that
assigns nothing (`final_run`). Where only the slot is drawn on, the table
is the eager one (`Tracks.run`).
-/

namespace Jubilee

variable {β : Type*}

/-- The table at one key. -/
structure Cell (β : Type*) where
  value : Option β
  slot : Option β
  filled : Bool
  deriving DecidableEq

/-- What the source holds for one key. -/
structure Origin (β : Type*) where
  /-- Touching the key draws on the source, and not on the slot. -/
  sourced : Bool
  /-- What touching the key finds in the source. -/
  single : Option β
  /-- What the fill of the whole table finds in the source. -/
  whole : Option β
  /-- Touching the key finds nothing that the full fill does not. -/
  whole_of_single : single.isSome = true → whole.isSome = true

/-- An operation of the table, as one key sees it. -/
inductive CellOp (β : Type*)
  | skip
  | touch
  | put (v : β)
  | erase
  /-- The whole table is filled, and then changed: here by `f`. -/
  | whole (f : Option β → Option β)

namespace CellOp

/-- The whole table is filled. -/
def isWhole : CellOp β → Bool
  | .whole _ => true
  | _ => false

/-- The operation assigns nothing and deletes nothing at this key. -/
def Keeps : CellOp β → Prop
  | .skip => True
  | .touch => True
  | .put _ => False
  | .erase => False
  | .whole f => ∀ v, f v = v

end CellOp

namespace Cell

variable (o : Origin β) (c : Cell β)

/-- Draw this key's entry, if there is none. -/
def touch : Cell β :=
  if c.filled = true ∨ c.value.isSome = true then c
  else if o.sourced then { c with value := o.single }
  else { c with value := c.slot, slot := none }

/-- Draw every key's entry: the slot goes before what is stored, and the
source before the slot. -/
def fill : Cell β :=
  if c.filled then c else ⟨o.whole.or (c.slot.or c.value), none, true⟩

/-- What an operation draws before it does anything else. -/
def draw : CellOp β → Cell β
  | .skip => c
  | .touch | .put _ | .erase => c.touch o
  | .whole _ => c.fill o

/-- One operation of a table that holds its entries from the start. -/
def eager (v : Option β) : CellOp β → Option β
  | .skip => v
  | .touch => v
  | .put w => some w
  | .erase => none
  | .whole f => f v

/-- One operation: what it is about is drawn, and the rest is as if the
table had held it from the start. -/
def step (op : CellOp β) : Cell β := { c.draw o op with value := eager (c.draw o op).value op }

/-- A run of operations. -/
def run (ops : List (CellOp β)) : Cell β := ops.foldl (step o) c

/-- What a fill of the whole table would leave here. -/
def final : Option β := (c.fill o).value

variable {o c}

/-! ## One operation -/

theorem touch_of_filled (h : c.filled = true) : c.touch o = c := if_pos (Or.inl h)

theorem touch_of_some {v : β} (h : c.value = some v) : c.touch o = c :=
  if_pos (Or.inr (by rw [h]; rfl))

theorem touch_of_sourced (hf : c.filled = false) (hv : c.value = none) (hs : o.sourced = true) :
    c.touch o = ⟨o.single, c.slot, false⟩ := by
  rw [touch, if_neg (by simp [hf, hv]), if_pos hs, hf]

theorem touch_of_slot (hf : c.filled = false) (hv : c.value = none) (hs : o.sourced = false) :
    c.touch o = ⟨c.slot, none, false⟩ := by
  rw [touch, if_neg (by simp [hf, hv]), if_neg (by simp [hs]), hf]

/-- **What touching a key does**: nothing, or it draws on the source, or
it moves the content of the slot. -/
theorem touch_cases (o : Origin β) (c : Cell β) :
    ((c.filled = true ∨ c.value.isSome = true) ∧ c.touch o = c) ∨
    (c.filled = false ∧ c.value = none ∧
      ((o.sourced = true ∧ c.touch o = ⟨o.single, c.slot, false⟩) ∨
        (o.sourced = false ∧ c.touch o = ⟨c.slot, none, false⟩))) := by
  cases hf : c.filled with
  | true => exact Or.inl ⟨Or.inl rfl, touch_of_filled hf⟩
  | false =>
    cases hv : c.value with
    | some v => exact Or.inl ⟨Or.inr rfl, touch_of_some hv⟩
    | none =>
      refine Or.inr ⟨rfl, rfl, ?_⟩
      cases hs : o.sourced with
      | true => exact Or.inl ⟨rfl, touch_of_sourced hf hv hs⟩
      | false => exact Or.inr ⟨rfl, touch_of_slot hf hv hs⟩

theorem fill_of_filled (h : c.filled = true) : c.fill o = c := if_pos h

theorem fill_of_not_filled (h : c.filled = false) :
    c.fill o = ⟨o.whole.or (c.slot.or c.value), none, true⟩ := if_neg (by simp [h])

@[simp] theorem filled_fill : (c.fill o).filled = true := by
  cases h : c.filled with
  | true => rw [fill_of_filled h, h]
  | false => rw [fill_of_not_filled h]

@[simp] theorem filled_touch : (c.touch o).filled = c.filled := by
  rcases touch_cases o c with ⟨-, h⟩ | ⟨hf, -, ⟨-, h⟩ | ⟨-, h⟩⟩
  · rw [h]
  · rw [h, hf]
  · rw [h, hf]

theorem final_of_filled (h : c.filled = true) : c.final o = c.value := by
  rw [final, fill_of_filled h]

theorem final_of_not_filled (h : c.filled = false) :
    c.final o = o.whole.or (c.slot.or c.value) := by
  rw [final, fill_of_not_filled h]

theorem touch_touch : (c.touch o).touch o = c.touch o := by
  rcases touch_cases o c with ⟨-, h⟩ | ⟨-, -, ⟨hs, h⟩ | ⟨hs, h⟩⟩
  · rw [h, h]
  · rw [h]
    cases hv : o.single with
    | some v => exact touch_of_some rfl
    | none => rw [touch_of_sourced rfl rfl hs, hv]
  · rw [h]
    cases hv : c.slot with
    | some v => exact touch_of_some rfl
    | none => exact touch_of_slot rfl rfl hs

/-- The full fill finds what touching the key found. -/
theorem final_touch : (c.touch o).final o = c.final o := by
  rcases touch_cases o c with ⟨-, h⟩ | ⟨hf, hv, ⟨-, h⟩ | ⟨-, h⟩⟩
  · rw [h]
  · rw [h, final_of_not_filled rfl, final_of_not_filled hf, hv]
    cases hs : o.single with
    | none => rfl
    | some v =>
      obtain ⟨w, hw⟩ := Option.isSome_iff_exists.mp (o.whole_of_single (by rw [hs]; rfl))
      rw [hw, Option.some_or, Option.some_or]
  · rw [h, final_of_not_filled rfl, final_of_not_filled hf, hv]
    simp

/-- Touching a key of a table nothing was drawn into yet. -/
theorem value_touch_start (o : Origin β) (s : Option β) :
    ((⟨none, s, false⟩ : Cell β).touch o).value = if o.sourced then o.single else s := by
  cases hs : o.sourced with
  | true => rw [touch_of_sourced rfl rfl hs, if_pos rfl]
  | false => rw [touch_of_slot rfl rfl hs, if_neg (by simp)]

theorem final_start (o : Origin β) (s : Option β) :
    (⟨none, s, false⟩ : Cell β).final o = o.whole.or s := by
  rw [final_of_not_filled rfl, Option.or_none]

/-- What the full fill leaves out, touching the key does not find. -/
theorem value_touch_eq_none (h : c.final o = none) : (c.touch o).value = none := by
  rw [← final_touch] at h
  cases hf : (c.touch o).filled with
  | true => rw [← final_of_filled hf, h]
  | false =>
    rw [final_of_not_filled hf, Option.or_eq_none_iff, Option.or_eq_none_iff] at h
    exact h.2.2

/-! ## Runs -/

@[simp] theorem run_nil : c.run o [] = c := rfl

@[simp] theorem run_cons (op : CellOp β) (ops : List (CellOp β)) :
    c.run o (op :: ops) = (c.step o op).run o ops := rfl

theorem step_touch : c.step o .touch = c.touch o := rfl

theorem step_whole (f : Option β → Option β) :
    c.step o (.whole f) = { c.fill o with value := f (c.fill o).value } := rfl

theorem filled_step (op : CellOp β) : (c.step o op).filled = (c.filled || op.isWhole) := by
  cases op <;> simp [step, draw, CellOp.isWhole]

/-- The table is filled by the first operation on the whole of it. -/
theorem filled_run (ops : List (CellOp β)) :
    (c.run o ops).filled = (c.filled || ops.any CellOp.isWhole) := by
  induction ops generalizing c with
  | nil => simp
  | cons op ops ih => rw [run_cons, ih, filled_step, List.any_cons, Bool.or_assoc]

theorem step_whole_of_keeps {f : Option β → Option β} (hk : (CellOp.whole f).Keeps) :
    c.step o (.whole f) = c.fill o := by
  rw [step_whole, hk]

/-- **What a full fill would leave is kept** by every operation that
assigns nothing and deletes nothing here. -/
theorem final_step {op : CellOp β} (hk : op.Keeps) : (c.step o op).final o = c.final o := by
  cases op with
  | skip => rfl
  | touch => exact final_touch
  | put v | erase => exact hk.elim
  | whole f => rw [step_whole_of_keeps hk, final_of_filled filled_fill, final]

theorem final_run {ops : List (CellOp β)} (hk : ∀ op ∈ ops, op.Keeps) :
    (c.run o ops).final o = c.final o := by
  induction ops generalizing c with
  | nil => rfl
  | cons op ops ih =>
    rw [run_cons, ih fun op' h => hk op' (List.mem_cons_of_mem _ h),
      final_step (hk op List.mem_cons_self)]

/-- Short of an operation on the whole table, what assigns nothing
touches the key or does nothing. -/
theorem run_of_keeps {ops : List (CellOp β)} (hk : ∀ op ∈ ops, op.Keeps)
    (hw : ops.any CellOp.isWhole = false) : c.run o ops = c ∨ c.run o ops = c.touch o := by
  induction ops generalizing c with
  | nil => exact Or.inl rfl
  | cons op ops ih =>
    rw [List.any_cons, Bool.or_eq_false_iff] at hw
    have hrest := fun c => ih (c := c) (fun op' h => hk op' (List.mem_cons_of_mem _ h)) hw.2
    cases op with
    | skip => exact hrest c
    | touch =>
      refine Or.inr ?_
      rcases hrest (c.touch o) with h | h
      · exact h
      · rw [run_cons, step_touch, h, touch_touch]
    | put v | erase => exact (hk _ List.mem_cons_self).elim
    | whole f => simp [CellOp.isWhole] at hw

/-- **What touching the key finds after such a run**: what the full fill
leaves, if the table is filled by then, and what it found before. -/
theorem value_touch_run {ops : List (CellOp β)} (hk : ∀ op ∈ ops, op.Keeps) :
    ((c.run o ops).touch o).value =
      if c.filled || ops.any CellOp.isWhole then c.final o else (c.touch o).value := by
  cases hf : c.filled || ops.any CellOp.isWhole with
  | true =>
    have hfilled : (c.run o ops).filled = true := by rw [filled_run, hf]
    rw [touch_of_filled hfilled, ← final_of_filled (o := o) hfilled, final_run hk, if_pos rfl]
  | false =>
    rw [if_neg (by simp)]
    rcases run_of_keeps (c := c) hk (Bool.or_eq_false_iff.mp hf).2 with h | h
    · rw [h]
    · rw [h, touch_touch]

/-! ## The slot -/

theorem slot_touch (o : Origin β) (c : Cell β) :
    (c.touch o).slot = c.slot ∨ (c.touch o).slot = none := by
  rcases touch_cases o c with ⟨-, h⟩ | ⟨-, -, ⟨-, h⟩ | ⟨-, h⟩⟩
  · exact Or.inl (by rw [h])
  · exact Or.inl (by rw [h])
  · exact Or.inr (by rw [h])

theorem slot_fill (o : Origin β) (c : Cell β) :
    (c.fill o).slot = c.slot ∨ (c.fill o).slot = none := by
  cases h : c.filled with
  | true => exact Or.inl (by rw [fill_of_filled h])
  | false => exact Or.inr (by rw [fill_of_not_filled h])

/-- The slot is left alone, or emptied. -/
theorem slot_step (o : Origin β) (c : Cell β) (op : CellOp β) :
    (c.step o op).slot = c.slot ∨ (c.step o op).slot = none := by
  cases op with
  | skip => exact Or.inl rfl
  | touch | put v | erase => exact slot_touch o c
  | whole f => exact slot_fill o c

theorem slot_run (o : Origin β) (c : Cell β) (ops : List (CellOp β)) :
    (c.run o ops).slot = c.slot ∨ (c.run o ops).slot = none := by
  induction ops generalizing c with
  | nil => exact Or.inl rfl
  | cons op ops ih =>
    rcases ih (c.step o op) with h | h
    · rcases slot_step o c op with h' | h'
      · exact Or.inl (h.trans h')
      · exact Or.inr (h.trans h')
    · exact Or.inr h

/-- Where touching the key draws on the source, only the fill of the
whole table empties the slot. -/
theorem slot_step_of_sourced {op : CellOp β} (hs : o.sourced = true) (hw : op.isWhole = false) :
    (c.step o op).slot = c.slot := by
  have htouch : (c.touch o).slot = c.slot := by
    rcases touch_cases o c with ⟨-, h⟩ | ⟨-, -, ⟨-, h⟩ | ⟨hs', -⟩⟩
    · rw [h]
    · rw [h]
    · rw [hs] at hs'; cases hs'
  cases op with
  | skip => rfl
  | touch | put v | erase => exact htouch
  | whole f => cases hw

theorem slot_run_of_sourced {ops : List (CellOp β)} (hs : o.sourced = true)
    (hw : ops.any CellOp.isWhole = false) : (c.run o ops).slot = c.slot := by
  induction ops generalizing c with
  | nil => rfl
  | cons op ops ih =>
    rw [List.any_cons, Bool.or_eq_false_iff] at hw
    rw [run_cons, ih hw.2, slot_step_of_sourced hs hw.1]

/-! ## The eager table -/

/-- A run of operations on the eager table. -/
def eagerRun (v : Option β) (ops : List (CellOp β)) : Option β := ops.foldl eager v

/-- The lazy table stands for `v`: the full fill would leave it, and
where nothing is to be drawn any more the slot is empty. -/
structure Tracks (o : Origin β) (c : Cell β) (v : Option β) : Prop where
  final : c.final o = v
  slot : c.filled = true ∨ c.value.isSome = true → c.slot = none

namespace Tracks

variable {v : Option β}

/-- A table nothing was drawn into yet. -/
theorem start (hw : o.whole = none) (v : Option β) : Tracks o ⟨none, v, false⟩ v := by
  refine ⟨?_, fun h => by simp at h⟩
  rw [final_of_not_filled rfl, hw]
  simp

/-- Touching the key draws what there is, and leaves the slot empty. -/
theorem touch (hs : o.sourced = false) (hw : o.whole = none) (h : Tracks o c v) :
    (c.touch o).value = v ∧ (c.touch o).slot = none := by
  rcases touch_cases o c with ⟨hdrawn, ht⟩ | ⟨hf, hv, ⟨hs', -⟩ | ⟨-, ht⟩⟩
  · have hslot := h.slot hdrawn
    refine ⟨?_, by rw [ht, hslot]⟩
    rw [ht, ← h.final]
    cases hf : c.filled with
    | true => rw [final_of_filled hf]
    | false => rw [final_of_not_filled hf, hw, hslot, Option.none_or, Option.none_or]
  · rw [hs] at hs'; cases hs'
  · refine ⟨?_, by rw [ht]⟩
    rw [ht, ← h.final, final_of_not_filled hf, hw, hv]
    simp

/-- With the slot empty, an assignment is what the table stands for. -/
theorem of_slot (hw : o.whole = none) {c : Cell β} (hslot : c.slot = none) :
    Tracks o c c.value := by
  refine ⟨?_, fun _ => hslot⟩
  cases hf : c.filled with
  | true => rw [final_of_filled hf]
  | false => rw [final_of_not_filled hf, hw, hslot, Option.none_or, Option.none_or]

/-- **An operation of the lazy table is the eager table's.** -/
theorem step (hs : o.sourced = false) (hw : o.whole = none) (h : Tracks o c v) (op : CellOp β) :
    Tracks o (c.step o op) (eager v op) := by
  obtain ⟨hvalue, hslot⟩ := h.touch hs hw
  cases op with
  | skip => exact h
  | touch => exact ⟨by rw [← h.final]; exact final_touch, fun _ => hslot⟩
  | put w => exact of_slot hw hslot
  | erase => exact of_slot hw hslot
  | whole f =>
    have hfill : (c.fill o).slot = none := by
      cases hf : c.filled with
      | true => rw [fill_of_filled hf]; exact h.slot (Or.inl hf)
      | false => rw [fill_of_not_filled hf]
    rw [← h.final]
    exact of_slot (c := { c.fill o with value := f (c.fill o).value }) hw hfill

/-- **A lazily filled table is the eager one**, where only the slot is
drawn on. -/
theorem run (hs : o.sourced = false) (hw : o.whole = none) (h : Tracks o c v)
    (ops : List (CellOp β)) : Tracks o (c.run o ops) (eagerRun v ops) := by
  induction ops generalizing c v with
  | nil => exact h
  | cons op ops ih => exact ih (h.step hs hw op)

end Tracks

end Cell

end Jubilee
