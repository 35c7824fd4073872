import Jubilee.Common.LazyCell
/-!
# A table that is filled lazily, in several threads

An operation draws what it is about, and acts later: others draw and act
between. At one key, what was drawn stays drawn (`Drawn.draw`), and is
what the table stands for; either as only the slot is drawn on
(`Tracks.act`), or as nothing assigns or deletes the key
(`Steady.of_drawn`).
-/

namespace Jubilee

variable {β : Type*}

namespace Cell

variable {o : Origin β} {c : Cell β} {v : Option β} {op : CellOp β}

/-- Touching the key draws no more. -/
def Drawn (o : Origin β) (c : Cell β) : Prop := c.touch o = c

/-- What an operation does once everything it is about is drawn. -/
def act (c : Cell β) (op : CellOp β) : Cell β := { c with value := eager c.value op }

theorem drawn_of_filled (h : c.filled = true) : Drawn o c := touch_of_filled h

/-- An operation draws what it is about. -/
theorem drawn_draw (h : op ≠ .skip) : Drawn o (c.draw o op) := by
  cases op with
  | skip => exact absurd rfl h
  | touch | put v | erase => exact touch_touch
  | whole f => exact drawn_of_filled filled_fill

/-- What was drawn stays so when others draw. -/
theorem Drawn.draw (h : Drawn o c) (op : CellOp β) : Drawn o (c.draw o op) := by
  cases op with
  | skip => exact h
  | touch | put v | erase => exact touch_touch
  | whole f => exact drawn_of_filled filled_fill

/-! ### A key that only its slot is drawn for -/

theorem drawn_of_slot (hs : o.sourced = false) (h : c.slot = none) : Drawn o c := by
  rcases touch_cases o c with ⟨-, ht⟩ | ⟨hf, hv, ⟨hs', -⟩ | ⟨-, ht⟩⟩
  · exact ht
  · rw [hs] at hs'
    cases hs'
  · exact ht.trans (by rw [← hf, ← h]; exact congrArg (Cell.mk · _ _) (h.trans hv.symm))

namespace Tracks

variable (hs : o.sourced = false) (hw : o.whole = none)

include hs hw

/-- Drawing does not change what the table stands for. -/
theorem draw (h : Tracks o c v) (op : CellOp β) : Tracks o (c.draw o op) v := by
  cases op with
  | skip => exact h
  | touch | put w | erase => exact h.step hs hw .touch
  | whole f => exact h.step hs hw (.whole id)

/-- What was drawn is what the table stands for, and nothing is left in
the slot. -/
theorem of_drawn (h : Tracks o c v) (hd : Drawn o c) : c.value = v ∧ c.slot = none := by
  have htouch := h.touch hs hw
  rw [hd] at htouch
  exact htouch

/-- An operation on what was drawn. -/
theorem act (h : Tracks o c v) (hd : op ≠ .skip → Drawn o c) :
    Tracks o (c.act op) (eager v op) := by
  by_cases hop : op = .skip
  · subst hop
    exact h
  · -- with the slot empty, the table alone says what it stands for
    obtain ⟨rfl, hslot⟩ := h.of_drawn hs hw (hd hop)
    exact of_slot (c := c.act op) hw hslot

theorem drawn_act (h : Tracks o c v) (hd : Drawn o c) (op : CellOp β) : Drawn o (c.act op) :=
  drawn_of_slot hs (h.of_drawn hs hw hd).2

end Tracks

/-! ### A key that nothing assigns or deletes -/

/-- What the full fill leaves is what touching the key finds. -/
structure Steady (o : Origin β) (c : Cell β) (v : Option β) : Prop where
  final : c.final o = v
  touch : (c.touch o).value = v

namespace Steady

theorem draw (h : Steady o c v) (op : CellOp β) : Steady o (c.draw o op) v := by
  cases op with
  | skip => exact h
  | touch | put w | erase =>
    exact ⟨final_touch.trans h.final, by rw [Cell.draw, touch_touch, h.touch]⟩
  | whole f =>
    refine ⟨?_, ?_⟩
    · rw [Cell.draw, final_of_filled filled_fill]
      exact h.final
    · rw [Cell.draw, touch_of_filled filled_fill]
      exact h.final

theorem of_drawn (h : Steady o c v) (hd : Drawn o c) : c.value = v := by
  have htouch := h.touch
  rw [hd] at htouch
  exact htouch

end Steady

theorem eager_of_keeps (hk : op.Keeps) : eager v op = v := by
  cases op with
  | skip | touch => rfl
  | put w | erase => exact hk.elim
  | whole f => exact hk v

/-- An operation that keeps the key acts on nothing here. -/
theorem act_of_keeps (hk : op.Keeps) : c.act op = c := by
  rw [act, eager_of_keeps hk]

/-! ### Both at once -/

/-- **Drawing cannot be seen**: a table stands for a value, drawing keeps
that, and an allowed operation on what was drawn acts as it would on the
value. -/
structure Hidden (o : Origin β) (Allowed : CellOp β → Prop) (Stands : Cell β → Option β → Prop) :
    Prop where
  draw : ∀ {c v}, Stands c v → ∀ op, Stands (c.draw o op) v
  of_drawn : ∀ {c v}, Stands c v → Drawn o c → c.value = v
  act : ∀ {c v op}, Stands c v → (op ≠ .skip → Drawn o c) → Allowed op →
    Stands (c.act op) (eager v op)
  drawn_act : ∀ {c v op}, Stands c v → Drawn o c → Allowed op → Drawn o (c.act op)

theorem Tracks.hidden (hs : o.sourced = false) (hw : o.whole = none) :
    Hidden o (fun _ => True) (Tracks o) where
  draw h op := h.draw hs hw op
  of_drawn h hd := (h.of_drawn hs hw hd).1
  act h hd _ := h.act hs hw hd
  drawn_act h hd _ := h.drawn_act hs hw hd _

theorem Steady.hidden (o : Origin β) : Hidden o CellOp.Keeps (Steady o) where
  draw h op := h.draw op
  of_drawn h hd := h.of_drawn hd
  act h _ hk := by
    rw [act_of_keeps hk, eager_of_keeps hk]
    exact h
  drawn_act _ hd hk := by
    rw [act_of_keeps hk]
    exact hd

end Cell

end Jubilee
