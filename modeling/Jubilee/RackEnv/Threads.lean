import Jubilee.Common.Shared
import Jubilee.Common.SharedCell
import Jubilee.RackEnv.Eager
import Jubilee.RackEnv.Writes
/-!
# Rack env — one env in several threads

`fillKey` and `fillEntireHash` are synchronized, as the application may
hand its env to another thread. What a method does after them is not
under the same lock, so the fills and calls of other threads come in
between. `shared_refines_eager`: for a key that does not start with
`HTTP_` every interleaving answers as an ordinary hash that was filled at
the start, called in the order in which the methods of `RubyHash` ran;
and for the others as long as no call assigns or deletes them.
-/

namespace Jubilee

namespace RackEnv

variable {ι O : Type*} [DecidableEq ι] [DecidableEq O]

open RackEnvironmentHash

/-! ## The methods in two steps -/

/-- The hash in several threads. `op_aset` fills its key twice: in the
method that `getEnv` overrides, and in the one it overrides. -/
def inThreads : Prepared (RackEnvironmentHash O) (Op O) (Answer O) where
  times
    | .opAset _ _ => 2
    | _ => 1
  times_pos op := by cases op <;> exact Nat.succ_pos _
  prepare op env := env.fillFor op
  act op env := ((op.super env.table).1, { env with table := (op.super env.table).2 })

/-- A hash that was filled at the start. -/
def filledTable (headers : MultiMap)
    (values : List (RackKey × Option (LazyValue O) × Bool)) : Table O :=
  (fresh headers values).fillEntireHash.table

/-- Two answers to a call are the same as far as one key goes. -/
def Answer.SameAt (key : RubyKey O) (op : Op O) (a b : Answer O) : Prop :=
  match op.key?, a, b with
  | some k, a, b => k = key → a = b
  | none, .contents t, .contents u => t.lookup key = u.lookup key
  | none, _, _ => False

/-- The call is about the key. -/
def Op.About (key : RubyKey O) (op : Op O) : Prop := op.onKey key ≠ .skip

variable {headers : MultiMap} {values : List (RackKey × Option (LazyValue O) × Bool)}
  {key : RubyKey O} {env : RackEnvironmentHash O} {op : Op O} {t : Table O}

/-- A call that is about a key draws it. -/
theorem drawn_fillFor (hs : Sound env) (hop : op.About key) :
    Cell.Drawn (origin env.headers key) ((env.fillFor op).cell key) := by
  rw [cell_fillFor hs]
  exact Cell.drawn_draw hop

/-- The method of `RubyHash` moves every cell as its operation acts. -/
theorem cell_act (op : Op O) (env : RackEnvironmentHash O) (key : RubyKey O) :
    (inThreads.act op env).2.cell key = (env.cell key).act (op.onKey key) := by
  change (⟨(op.super env.table).2.lookup key, _, _⟩ : Cell (RubyObject O)) = _
  rw [Op.lookup_super]
  rfl

omit [DecidableEq ι] in
theorem about_of_key (h : op.key? = some key) : op.About key := by
  cases op with
  | whole method => cases h
  | opAref k | fetch k | hasKeyP k | opAset k v | delete k =>
    obtain rfl := Option.some.inj h
    simp [Op.About, Op.onKey]

/-- **What a method answers** is what the other table has at the key it is
about, where the two agree there. -/
theorem sameAt_super (h : op.About key → env.table.lookup key = t.lookup key) :
    Answer.SameAt key op (op.super env.table).1 (op.super t).1 := by
  cases hkey : op.key? with
  | some k =>
    simp only [Answer.SameAt, hkey]
    rintro rfl
    exact (call_of_key hkey).2 (h (about_of_key hkey))
  | none =>
    cases op with
    | whole method => exact h (by simp [Op.About, Op.onKey])
    | opAref k | fetch k | hasKeyP k | opAset k v | delete k => cases hkey

/-- What is hidden at a key is hidden from calls that are about it. -/
def hides {Allowed : CellOp (RubyObject O) → Prop}
    {Stands : Cell (RubyObject O) → Option (RubyObject O) → Prop}
    (H : Cell.Hidden (origin headers key) Allowed Stands) :
    Hides inThreads Op.super (Answer.SameAt key) fun op => Allowed (op.onKey key) where
  Stands env t := Sound env ∧ env.headers = headers ∧ Stands (env.cell key) (t.lookup key)
  Ready op env := op.About key → Cell.Drawn (origin headers key) (env.cell key)
  prepare := by
    rintro env t op ⟨hs, rfl, h⟩
    obtain ⟨hsound, hheaders⟩ := sound_fillFor hs op
    refine ⟨hsound, hheaders, ?_⟩
    change Stands ((env.fillFor op).cell key) _
    rw [cell_fillFor hs]
    exact H.draw h _
  ready := by
    rintro env t op ⟨hs, rfl, -⟩ hop
    exact drawn_fillFor hs hop
  ready_prepare := by
    rintro env t op op' ⟨hs, rfl, -⟩ hready hop
    change Cell.Drawn _ ((env.fillFor op').cell key)
    rw [cell_fillFor hs]
    exact (hready hop).draw _
  act := by
    rintro env t op ⟨hs, rfl, h⟩ hready hallowed
    refine ⟨sameAt_super fun hop => H.of_drawn h (hready hop), ⟨hs.empty, hs.populated⟩, rfl, ?_⟩
    rw [cell_act, Op.lookup_super]
    exact H.act h hready hallowed
  ready_act := by
    rintro env t op op' ⟨-, -, h⟩ hready - hallowed hop
    rw [cell_act]
    exact H.drawn_act h (hready hop) hallowed

/-- **The env in several threads.** Every interleaving answers as a hash
that was filled at the start, called in the order in which the calls
acted: at the keys that do not start with `HTTP_`, and at those that a
read alone finds as the full fill leaves them and no call changes. -/
theorem shared_refines_eager {turns : List (Turn ι (Op O))} {s : Shared ι _ (Op O) (Answer O)}
    (hrun : (Shared.start (fresh headers values)).run inThreads turns = some s)
    (hkey : Outside key ∨
      ((fresh headers values).fillKey key).table.lookup key =
          (filledTable headers values).lookup key ∧ ∀ op ∈ s.ops, op.Keeps key) :
    Explained Op.super (Answer.SameAt key) (filledTable headers values) s.log := by
  obtain ⟨hs, hheaders⟩ := sound_fresh headers values
  have hfinal : (filledTable headers values).lookup key =
      ((fresh headers values).cell key).final (origin headers key) := by
    rw [filledTable, lookup_fillEntireHash, hheaders]
  rcases hkey with hout | ⟨hread, hkeeps⟩
  · -- no header maps to the key, so only its slot is drawn on
    obtain ⟨hsourced, hwhole⟩ := origin_outside headers hout
    have hstart := Cell.Tracks.start hwhole (rackValue values key)
    rw [← cell_fresh headers] at hstart
    refine (hides (Cell.Tracks.hidden hsourced hwhole)).explained ⟨hs, hheaders, ?_⟩ hrun
      fun _ _ => trivial
    rw [hfinal, hstart.final]
    exact hstart
  · -- what a read draws is what the full fill draws, so no later fill changes it
    refine (hides (Cell.Steady.hidden _)).explained ⟨hs, hheaders, hfinal.symm, ?_⟩ hrun
      fun op hop => (hkeeps op hop).onKey
    rw [← hread, lookup_fillKey hs, hheaders]

/-! ## Two threads -/

/-- `HTTP_ACCEPT`, in the env. -/
def acceptKey : RubyKey Empty := .string httpAccept

/-- One thread reads `HTTP_ACCEPT` while the other asks for the size: both
fill before either acts. -/
def readDuringSize : List (Turn Bool (Op Empty)) :=
  [.call true (.opAref acceptKey), .call false (.whole .rbSize), .next true, .next false,
    .next false, .next true]

theorem shared_refines_eager_accept :
    ∃ s, (Shared.start (fresh acceptHeaders [])).run inThreads readDuringSize = some s ∧
      Explained Op.super (Answer.SameAt acceptKey) (filledTable acceptHeaders []) s.log := by
  have hops : ((Shared.start (fresh acceptHeaders [])).run inThreads readDuringSize).map
      Shared.ops = some [.whole .rbSize, .opAref acceptKey] := rfl
  obtain ⟨s, hrun, hops⟩ := Option.map_eq_some_iff.mp hops
  have hread : ((fresh acceptHeaders []).fillKey acceptKey).table.lookup acceptKey =
      (filledTable acceptHeaders []).lookup acceptKey := by
    decide
  have hkeeps : ∀ op ∈ s.ops, op.Keeps acceptKey := by
    rw [hops]
    simp [Op.Keeps, Override.base, BaseOp.read]
  exact ⟨s, hrun, shared_refines_eager hrun (Or.inr ⟨hread, hkeeps⟩)⟩

end RackEnv

end Jubilee
