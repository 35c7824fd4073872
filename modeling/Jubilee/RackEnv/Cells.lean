import Mathlib.Data.List.Induction
import Jubilee.RackEnv.Fill
/-!
# Rack env — calls and runs, key by key

A method moves the cell of every key as its operation there does
(`cell_call`), and so does a run of methods (`cell_run`). What is proved
of lazily filled cells holds of the hash, from the cells a fresh hash
starts with (`cell_fresh`).
-/

namespace Jubilee

namespace RackEnv

variable {O : Type*} [DecidableEq O]

/-- A call, as one key sees it. -/
def Op.onKey (k : RubyKey O) : Op O → CellOp (RubyObject O)
  | .opAref key | .fetch key | .hasKeyP key => if key = k then .touch else .skip
  | .opAset key value => if key = k then .put value else .skip
  | .delete key => if key = k then .erase else .skip
  | .whole method => .whole (method.base.onKey k)

/-- The call assigns nothing to the key, and does not delete it. -/
def Op.Keeps (key : RubyKey O) : Op O → Prop
  | .opAref _ | .fetch _ | .hasKeyP _ => True
  | .opAset k _ | .delete k => k ≠ key
  | .whole method => ∀ v, method.base.onKey key v = v

/-- The call is one of a method that fills the entire hash. -/
def Op.isWhole : Op O → Bool
  | .whole _ => true
  | _ => false

theorem Op.Keeps.onKey {op : Op O} {key : RubyKey O} (h : op.Keeps key) :
    (op.onKey key).Keeps := by
  cases op with
  | opAref k | fetch k | hasKeyP k => simp only [Op.onKey]; split <;> trivial
  | opAset k v | delete k => rw [Op.onKey, if_neg h]; trivial
  | whole method => exact h

theorem keeps_onKey {ops : List (Op O)} {key : RubyKey O} (h : ∀ op ∈ ops, op.Keeps key) :
    ∀ cop ∈ ops.map (Op.onKey key), cop.Keeps := by
  intro cop hcop
  obtain ⟨op, hop, rfl⟩ := List.mem_map.mp hcop
  exact (h op hop).onKey

theorem isWhole_onKey (op : Op O) (key : RubyKey O) : (op.onKey key).isWhole = op.isWhole := by
  cases op with
  | whole method => rfl
  | opAref k | fetch k | hasKeyP k | opAset k v | delete k =>
    simp only [Op.onKey]; split <;> rfl

theorem any_isWhole_onKey (ops : List (Op O)) (key : RubyKey O) :
    (ops.map (Op.onKey key)).any CellOp.isWhole = ops.any Op.isWhole := by
  rw [List.any_map]
  exact congrArg (ops.any ·) (funext fun op => isWhole_onKey op key)

/-- What a method of `RubyHash` leaves at a key. -/
theorem Op.lookup_super (op : Op O) (t : Table O) (k : RubyKey O) :
    (op.super t).2.lookup k = Cell.eager (t.lookup k) (op.onKey k) := by
  cases op with
  | opAref key | fetch key | hasKeyP key => simp only [Op.super, Op.onKey]; split <;> rfl
  | opAset key value =>
    simp only [Op.super, Op.onKey]
    by_cases h : key = k
    · rw [if_pos h, h, AList.lookup_insert]
      rfl
    · rw [if_neg h, AList.lookup_insert_ne (Ne.symm h)]
      rfl
  | delete key =>
    simp only [Op.super, Op.onKey]
    by_cases h : key = k
    · rw [if_pos h, h, AList.lookup_erase]
      rfl
    · rw [if_neg h, AList.lookup_erase_ne (Ne.symm h)]
      rfl
  | whole method => exact method.base.lookup_apply t k

namespace RackEnvironmentHash

variable {env : RackEnvironmentHash O} {headers : MultiMap}

/-- What a call fills, every cell draws. -/
theorem cell_fillFor (hs : Sound env) (op : Op O) (k : RubyKey O) :
    (env.fillFor op).cell k = (env.cell k).draw (origin env.headers k) (op.onKey k) := by
  cases op with
  | opAref key | fetch key | hasKeyP key | opAset key value | delete key =>
    -- an assignment and a deletion fill their key first, too
    rw [fillFor, cell_fillKey hs, Op.onKey]; split <;> rfl
  | whole method => exact cell_fillEntireHash k

theorem sound_fillFor (hs : Sound env) (op : Op O) :
    Sound (env.fillFor op) ∧ (env.fillFor op).headers = env.headers := by
  cases op with
  | opAref key | fetch key | hasKeyP key | opAset key value | delete key =>
    exact sound_fillKey hs key
  | whole method => exact sound_fillEntireHash env

/-- **A call moves every cell as its operation does.** -/
theorem cell_call (hs : Sound env) (op : Op O) (k : RubyKey O) :
    (env.call op).2.cell k = (env.cell k).step (origin env.headers k) (op.onKey k) := by
  rw [Cell.step, ← cell_fillFor hs]
  change (⟨(op.super (env.fillFor op).table).2.lookup k, _, _⟩ : Cell (RubyObject O)) = _
  rw [Op.lookup_super]
  rfl

theorem sound_call (hs : Sound env) (op : Op O) :
    Sound (env.call op).2 ∧ (env.call op).2.headers = env.headers := by
  obtain ⟨hsound, hheaders⟩ := sound_fillFor hs op
  exact ⟨⟨hsound.empty, hsound.populated⟩, hheaders⟩

/-- **A run moves every cell as its operations do.** -/
theorem cell_run (hs : Sound env) (ops : List (Op O)) (k : RubyKey O) :
    (env.run ops).cell k =
      (env.cell k).run (origin env.headers k) (ops.map (Op.onKey k)) := by
  induction ops generalizing env with
  | nil => rfl
  | cons op ops ih =>
    obtain ⟨hsound, hheaders⟩ := sound_call hs op
    rw [run, List.foldl_cons, ← run, ih hsound, hheaders, cell_call hs, List.map_cons,
      Cell.run_cons]

theorem sound_run (hs : Sound env) (ops : List (Op O)) :
    Sound (env.run ops) ∧ (env.run ops).headers = env.headers := by
  induction ops generalizing env with
  | nil => exact ⟨hs, rfl⟩
  | cons op ops ih =>
    obtain ⟨hsound, hheaders⟩ := sound_call hs op
    obtain ⟨hsound', hheaders'⟩ := ih hsound
    exact ⟨hsound', hheaders'.trans hheaders⟩

theorem run_append (ops ops' : List (Op O)) : env.run (ops ++ ops') = (env.run ops).run ops' :=
  List.foldl_append

/-! ## What a read finds -/

variable {key : RubyKey O}

theorem call_opAref :
    (env.call (.opAref key)).1 = .value ((env.fillKey key).table.lookup key) := rfl

theorem call_hasKeyP :
    (env.call (.hasKeyP key)).1 = .found ((env.fillKey key).table.lookup key).isSome := rfl

theorem lookup_fillKey (hs : Sound env) (key : RubyKey O) :
    (env.fillKey key).table.lookup key =
      ((env.cell key).touch (origin env.headers key)).value := by
  have h := cell_fillKey hs key key
  rw [if_pos rfl] at h
  exact congrArg Cell.value h

theorem lookup_fillEntireHash (env : RackEnvironmentHash O) (key : RubyKey O) :
    env.fillEntireHash.table.lookup key = (env.cell key).final (origin env.headers key) :=
  congrArg Cell.value (cell_fillEntireHash key)

/-- What touching a key finds after calls that leave it alone. -/
theorem lookup_fillKey_run (hs : Sound env) {ops : List (Op O)} (h : ∀ op ∈ ops, op.Keeps key) :
    ((env.run ops).fillKey key).table.lookup key =
      if env.filledEntireHash || ops.any Op.isWhole then env.fillEntireHash.table.lookup key
      else (env.fillKey key).table.lookup key := by
  obtain ⟨hsound, hheaders⟩ := sound_run hs ops
  rw [lookup_fillKey hsound, hheaders, cell_run hs, Cell.value_touch_run (keeps_onKey h),
    lookup_fillKey hs, lookup_fillEntireHash, any_isWhole_onKey]
  rfl

/-- What the full fill leaves, calls that leave the key alone keep. -/
theorem lookup_fillEntireHash_run (hs : Sound env) {ops : List (Op O)}
    (h : ∀ op ∈ ops, op.Keeps key) :
    (env.run ops).fillEntireHash.table.lookup key = env.fillEntireHash.table.lookup key := by
  obtain ⟨-, hheaders⟩ := sound_run hs ops
  rw [lookup_fillEntireHash, lookup_fillEntireHash, hheaders, cell_run hs,
    Cell.final_run (keeps_onKey h)]

/-! ## Fresh hashes -/

omit [DecidableEq O] in
theorem fresh_append (headers : MultiMap)
    (values : List (RackKey × Option (LazyValue O) × Bool))
    (v : RackKey × Option (LazyValue O) × Bool) :
    fresh headers (values ++ [v]) = (fresh headers values).lazyPut v.1 v.2.1 v.2.2 := by
  simp only [fresh, List.foldl_append, List.foldl_cons, List.foldl_nil]

end RackEnvironmentHash

/-- What `lazyPut` stored under a rack key, the last value if there were
several. -/
def lastPut (values : List (RackKey × Option (LazyValue O) × Bool)) (rackKey : RackKey) :
    Option (RubyObject O) :=
  (values.filter (·.1 = rackKey)).getLast?.bind fun v => v.2.1.map (LazyValue.toRuby v.2.2)

/-- The value that waits for a key. -/
def rackValue (values : List (RackKey × Option (LazyValue O) × Bool)) :
    RubyKey O → Option (RubyObject O)
  | .string k => (rackKeyMap k).bind (lastPut values)
  | .other _ => none

namespace RackEnvironmentHash

omit [DecidableEq O] in
/-- Storing a value for later changes its slot, and nothing else. -/
theorem fresh_rackValues (headers : MultiMap)
    (values : List (RackKey × Option (LazyValue O) × Bool)) (rackKey : RackKey) :
    ((fresh headers values).rackValues rackKey).map
        (LazyValue.toRuby ((fresh headers values).usAsciiValues rackKey)) =
      lastPut values rackKey := by
  induction values using List.reverseRecOn with
  | nil => rfl
  | append_singleton values v ih =>
    rw [fresh_append, lastPut, List.filter_append, List.filter_singleton]
    by_cases h : v.1 = rackKey
    · subst h
      simp [lazyPut]
    · simp only [lazyPut, Function.update_of_ne (Ne.symm h), ih, h, decide_false, cond_false,
        List.append_nil]
      rfl

omit [DecidableEq O] in
theorem fresh_frame (headers : MultiMap)
    (values : List (RackKey × Option (LazyValue O) × Bool)) :
    Frame (new headers) (fresh headers values) ∧ (fresh headers values).table = ∅ := by
  induction values using List.reverseRecOn with
  | nil => exact ⟨⟨rfl, rfl, rfl, rfl⟩, rfl⟩
  | append_singleton values v ih =>
    obtain ⟨⟨h₁, h₂, h₃, h₄⟩, h₅⟩ := ih
    rw [fresh_append]
    exact ⟨⟨h₁, h₂, h₃, h₄⟩, h₅⟩

omit [DecidableEq O] in
theorem sound_fresh (headers : MultiMap)
    (values : List (RackKey × Option (LazyValue O) × Bool)) :
    Sound (fresh headers values) ∧ (fresh headers values).headers = headers := by
  obtain ⟨⟨hheaders, hmap, -, hpop⟩, -⟩ := fresh_frame headers values
  refine ⟨⟨fun _ _ => hmap, fun _ hp => ?_⟩, hheaders⟩
  rw [hpop] at hp
  cases hp

/-- **A fresh hash** holds nothing, and its slots what was stored for
later. -/
theorem cell_fresh (headers : MultiMap)
    (values : List (RackKey × Option (LazyValue O) × Bool)) (k : RubyKey O) :
    (fresh headers values).cell k = ⟨none, rackValue values k, false⟩ := by
  obtain ⟨⟨-, -, hf, -⟩, htable⟩ := fresh_frame headers values
  rw [cell, htable, hf]
  cases k with
  | other o => rfl
  | string k =>
    simp only [slot, rackValue, fresh_rackValues]
    rfl

/-- A read of one key finds what the headers have for a header key, and
the rack value of any other. -/
theorem lookup_fillKey_fresh (headers : MultiMap)
    (values : List (RackKey × Option (LazyValue O) × Bool)) (k : StringKey) :
    ((fresh headers values).fillKey (.string k)).table.lookup (.string k) =
      if isHeaderKey k.bytes then singleValue headers k else rackValue values (.string k) := by
  obtain ⟨hs, hheaders⟩ := sound_fresh headers values
  rw [lookup_fillKey hs, hheaders, cell_fresh, Cell.value_touch_start]
  rfl

/-- A read of the whole hash finds what the headers have, and else the
rack value. -/
theorem lookup_fillEntireHash_fresh (headers : MultiMap)
    (values : List (RackKey × Option (LazyValue O) × Bool)) (k : StringKey) :
    (fresh headers values).fillEntireHash.table.lookup (.string k) =
      (wholeValue headers k).or (rackValue values (.string k)) := by
  rw [lookup_fillEntireHash, (sound_fresh headers values).2, cell_fresh, Cell.final_start]
  rfl

end RackEnvironmentHash

end RackEnv

end Jubilee
