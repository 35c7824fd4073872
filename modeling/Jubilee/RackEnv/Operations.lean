import Jubilee.Common.Table
import Jubilee.RackEnv.Model
/-!
# Rack env — the methods

What `RubyHash` does (`Op.super`), and what `RackEnvironmentHash` makes of
it: a method that names one key fills that key first, every other method
fills the hash first. A method that takes no key is given here by what it
leaves at each key; what it answers is some function of the table it
finds, and the table itself stands for that.
-/

namespace Jubilee

namespace RackEnv

variable {O : Type*} [DecidableEq O]

/-! ## The methods of `RubyHash` -/

/-- What a method that takes no key does to the table: something to each
entry, or to the lack of one, by itself. -/
structure BaseOp (O : Type*) [DecidableEq O] where
  apply : Table O → Table O
  onKey : RubyKey O → Option (RubyObject O) → Option (RubyObject O)
  lookup_apply : ∀ t k, (apply t).lookup k = onKey k (t.lookup k)

namespace BaseOp

/-- The table is left as it is. -/
def read : BaseOp O := ⟨id, fun _ v => v, fun _ _ => rfl⟩

/-- The table is emptied. -/
def clear : BaseOp O := ⟨fun _ => ∅, fun _ _ => none, fun _ _ => rfl⟩

/-- The entries that pass the test are kept. -/
def keepIf (p : RubyKey O → RubyObject O → Bool) : BaseOp O :=
  ⟨Table.keepIf p, fun k v => v.filter (p k), fun t k => Table.lookup_keepIf p t k⟩

/-- Another table is merged in. -/
def merge (resolve : RubyKey O → RubyObject O → RubyObject O → RubyObject O) (other : Table O) :
    BaseOp O :=
  ⟨Table.merge resolve other,
    fun k v => (other.lookup k).elim v fun new => some (v.elim new fun old => resolve k old new),
    fun t k => Table.lookup_merge resolve other t k⟩

/-- Another table takes its place. -/
def replace (other : Table O) : BaseOp O :=
  ⟨fun _ => other, fun k _ => other.lookup k, fun _ _ => rfl⟩

/-- One entry is removed. -/
def remove (key : RubyKey O) : BaseOp O where
  apply t := t.erase key
  onKey k v := if k = key then none else v
  lookup_apply t k := by
    by_cases h : k = key
    · rw [if_pos h, h, AList.lookup_erase]
    · rw [if_neg h, AList.lookup_erase_ne h]

end BaseOp

/-- The overridden methods that fill the entire hash, with the arguments
that decide what they leave. `shift` is given the key that is first in
the hash's order. `compare_by_identity`, which changes what equality of
keys is, is left out. -/
inductive Override (O : Type*)
  | inspect | inspect19 | rbSize | emptyP | toA | toS | rehash | opEqual | opEql19 | hash | hash19
  | fetchArgs | hasValueP | each | each19 | eachValue | eachKey | sort | index | index19 | key
  | keys | rbValues | select | select19 | reject | invert | merge | valuesAt | assoc | rassoc
  | flatten | compareByIdentityP | dup | rbClone
  | selectBang (block : RubyKey O → RubyObject O → Bool)
  | keepIf (block : RubyKey O → RubyObject O → Bool)
  | deleteIf (block : RubyKey O → RubyObject O → Bool)
  | rejectBang (block : RubyKey O → RubyObject O → Bool)
  | shift (first : RubyKey O)
  | rbClear
  | mergeBang (other : Table O)
      (block : Option (RubyKey O → RubyObject O → RubyObject O → RubyObject O))
  | replace (other : Table O)
  | initializeCopy (other : Table O)

/-- What the method of `RubyHash` leaves. -/
def Override.base : Override O → BaseOp O
  | .selectBang block | .keepIf block => .keepIf block
  | .deleteIf block | .rejectBang block => .keepIf fun k v => !block k v
  | .shift first => .remove first
  | .rbClear => .clear
  | .mergeBang other block => .merge (block.getD fun _ _ new => new) other
  | .replace other | .initializeCopy other => .replace other
  | _ => .read

/-- A call of a method. -/
inductive Op (O : Type*)
  | opAref (key : RubyKey O)
  | fetch (key : RubyKey O)
  | hasKeyP (key : RubyKey O)
  | opAset (key : RubyKey O) (value : RubyObject O)
  | delete (key : RubyKey O)
  | whole (method : Override O)

/-- What a method answers. For a missing key `op_aref` answers `nil`, and
`fetch` and `delete` what their other arguments say. -/
inductive Answer (O : Type*)
  | value (value : Option (RubyObject O))
  | found (found : Bool)
  | contents (table : Table O)

/-- The method as `RubyHash` has it. -/
def Op.super : Op O → Table O → Answer O × Table O
  | .opAref key, t => (.value (t.lookup key), t)
  | .fetch key, t => (.value (t.lookup key), t)
  | .hasKeyP key, t => (.found (t.lookup key).isSome, t)
  | .opAset key value, t => (.value (some value), t.insert key value)
  | .delete key, t => (.value (t.lookup key), t.erase key)
  | .whole method, t => (.contents t, method.base.apply t)

/-! ## The overridden methods -/

namespace RackEnvironmentHash

variable (env : RackEnvironmentHash O)

/-- What a method fills. -/
def fillFor : Op O → RackEnvironmentHash O
  | .opAref key | .fetch key | .hasKeyP key | .opAset key _ | .delete key => env.fillKey key
  | .whole _ => env.fillEntireHash

/-- A call: the method fills what it is about, and is then the one of
`RubyHash`. -/
def call (op : Op O) : Answer O × RackEnvironmentHash O :=
  let env := env.fillFor op
  let (answer, table) := op.super env.table
  (answer, { env with table := table })

/-- The hash after a sequence of calls. -/
def run (ops : List (Op O)) : RackEnvironmentHash O := ops.foldl (fun env op => (env.call op).2) env

/-- A fresh hash: the constructor, and values stored for later. -/
def fresh (headers : MultiMap) (values : List (RackKey × Option (LazyValue O) × Bool)) :
    RackEnvironmentHash O :=
  values.foldl (fun env v => env.lazyPut v.1 v.2.1 v.2.2) (new headers)

end RackEnvironmentHash

end RackEnv

end Jubilee
