import Jubilee.RackEnv.Cells
/-!
# Rack env — the eager hash

For keys that do not start with `HTTP_` the order in which entries are
made cannot be told from the outside: every answer is that of an ordinary
hash which holds the rack values from the start (`lazy_refines_eager`).
-/

namespace Jubilee

namespace RackEnv

variable {O : Type*} [DecidableEq O]

open RackEnvironmentHash

/-! ## The abstract hash -/

/-- An ordinary hash that holds every rack key whose value is not null. -/
def eagerTable (values : List (RackKey × Option (LazyValue O) × Bool)) : Table O :=
  populateRackKeyMap.foldr
    (fun p t => (lastPut values p.2).elim t fun v => t.insert (.string p.1) v) ∅

/-- The ordinary hash after a sequence of calls. -/
def eagerRun (t : Table O) (ops : List (Op O)) : Table O := ops.foldl (fun t op => (op.super t).2) t

/-! ## What is compared -/

/-- The key does not start with `HTTP_`. -/
def Outside : RubyKey O → Prop
  | .string k => ¬ httpPrefix <+: k.bytes
  | .other _ => True

/-- The key that a call names. -/
def Op.key? : Op O → Option (RubyKey O)
  | .opAref key | .fetch key | .hasKeyP key | .opAset key _ | .delete key => some key
  | .whole _ => none

/-- Two answers to a call are the same as far as keys outside `HTTP_` go:
the answers about one such key, and the entries at such keys of what a
method that takes no key finds. -/
def Answer.SameOutside (op : Op O) (a b : Answer O) : Prop :=
  match op.key?, a, b with
  | some key, a, b => Outside key → a = b
  | none, .contents t, .contents u => ∀ key, Outside key → t.lookup key = u.lookup key
  | none, _, _ => False

/-- A call takes the rack value that waits for a key into the hash. -/
def Takes (env : RackEnvironmentHash O) (op : Op O) (key : RubyKey O) : Prop :=
  env.slot key ≠ none ∧ (env.call op).2.slot key = none

/-! ## The simulation -/

variable {headers : MultiMap} {values : List (RackKey × Option (LazyValue O) × Bool)}
  {key : RubyKey O}

/-- Storing the values of keys that are all different: each key has its
own. -/
theorem lookup_foldr_insert {ps : List (StringKey × RackKey)} (h : (ps.map Prod.fst).Nodup)
    (k : StringKey) :
    (ps.foldr (fun p t => (lastPut values p.2).elim t fun v => t.insert (.string p.1) v)
      (∅ : Table O)).lookup (.string k) = (ps.lookup k).bind (lastPut values) := by
  induction ps with
  | nil => rfl
  | cons p ps ih =>
    obtain ⟨key, rackKey⟩ := p
    rw [List.map_cons, List.nodup_cons] at h
    rw [List.foldr_cons]
    by_cases hk : k = key
    · subst hk
      have hrest : ps.lookup k = none := by
        rw [List.lookup_eq_none_iff]
        intro q hq
        rw [bne_iff_ne]
        exact fun he => h.1 (List.mem_map.mpr ⟨q, hq, he.symm⟩)
      rw [List.lookup_cons_self, Option.bind_some]
      cases lastPut values rackKey with
      | none => rw [Option.elim_none, ih h.2, hrest, Option.bind_none]
      | some v => rw [Option.elim_some, AList.lookup_insert]
    · have hne : RubyKey.string (O := O) k ≠ .string key := fun he => hk (RubyKey.string.inj he)
      rw [List.lookup_cons, beq_false_of_ne hk, ← ih h.2]
      cases lastPut values rackKey with
      | none => rfl
      | some v => rw [Option.elim_some, AList.lookup_insert_ne hne]

/-- The eager hash holds what the slots hold. -/
theorem lookup_eagerTable (values : List (RackKey × Option (LazyValue O) × Bool))
    (key : RubyKey O) : (eagerTable values).lookup key = rackValue values key := by
  cases key with
  | string k => exact lookup_foldr_insert (by decide) k
  | other o =>
    have hnone : ∀ ps : List (StringKey × RackKey),
        (ps.foldr (fun p t => (lastPut values p.2).elim t fun v => t.insert (.string p.1) v)
          (∅ : Table O)).lookup (.other o) = none := by
      intro ps
      induction ps with
      | nil => rfl
      | cons p ps ih =>
        rw [List.foldr_cons]
        cases lastPut values p.2 with
        | none => exact ih
        | some v => rw [Option.elim_some, AList.lookup_insert_ne (by simp), ih]
    exact hnone _

/-- A run of the eager hash, at one key. -/
theorem lookup_eagerRun (t : Table O) (ops : List (Op O)) (key : RubyKey O) :
    (eagerRun t ops).lookup key = Cell.eagerRun (t.lookup key) (ops.map (Op.onKey key)) := by
  induction ops generalizing t with
  | nil => rfl
  | cons op ops ih => rw [eagerRun, List.foldl_cons, ← eagerRun, ih, Op.lookup_super]; rfl

omit [DecidableEq O] in
/-- Headers bring nothing for a key outside `HTTP_`. -/
theorem origin_outside (headers : MultiMap) (h : Outside key) :
    (origin headers key).sourced = false ∧ (origin headers key).whole = none := by
  cases key with
  | other o => exact ⟨rfl, rfl⟩
  | string k =>
    constructor
    · have hpre : isHeaderKey k.bytes = true → httpPrefix <+: k.bytes := by
        intro hk
        rw [isHeaderKey, Bool.and_eq_true, decide_eq_true_eq, decide_eq_true_eq] at hk
        rw [← hk.2]
        exact List.take_prefix _ _
      exact Bool.eq_false_iff.mpr fun hk => h (hpre hk)
    · have hnil : mapped headers k = [] :=
        List.eq_nil_iff_forall_not_mem.mpr fun name hname => h (prefix_of_mapped hname)
      change wholeValue headers k = none
      rw [wholeValue, hnil]
      rfl

/-- At a key outside `HTTP_` the lazy hash stands for what the eager one
holds. -/
theorem tracks_run (h : Outside key) (ops : List (Op O)) :
    Cell.Tracks (origin ((fresh headers values).run ops).headers key)
      (((fresh headers values).run ops).cell key)
      ((eagerRun (eagerTable values) ops).lookup key) := by
  obtain ⟨hs, hheaders⟩ := sound_fresh headers values
  obtain ⟨hsourced, hwhole⟩ := origin_outside headers h
  rw [(sound_run hs ops).2, cell_run hs, hheaders, cell_fresh, lookup_eagerRun, lookup_eagerTable]
  exact (Cell.Tracks.start hwhole _).run hsourced hwhole _

/-- A call that names a key fills that key, and answers by what it finds
there. -/
theorem call_of_key {op : Op O} (h : op.key? = some key) :
    (∀ env : RackEnvironmentHash O, env.fillFor op = env.fillKey key) ∧
      ∀ {t u : Table O}, t.lookup key = u.lookup key → (op.super t).1 = (op.super u).1 := by
  cases op with
  | whole method => cases h
  | opAref k | fetch k | hasKeyP k | delete k =>
    cases h
    exact ⟨fun _ => rfl, fun h => by rw [Op.super, Op.super, h]⟩
  | opAset k v =>
    cases h
    exact ⟨fun _ => rfl, fun _ => rfl⟩

/-- Once it was emptied a slot stays empty. -/
theorem slot_run_of_none {env : RackEnvironmentHash O} (hs : Sound env) (h : env.slot key = none)
    (ops : List (Op O)) : (env.run ops).slot key = none := by
  have hcell := congrArg Cell.slot (cell_run hs ops key)
  rcases Cell.slot_run (origin env.headers key) (env.cell key) (ops.map (Op.onKey key)) with hr | hr
  · exact hcell.trans (hr.trans h)
  · exact hcell.trans hr

/-- **For keys outside `HTTP_` the lazy hash is the eager one**: after any
calls, every answer is the same. And what waits for a key is taken into
the hash once at most. -/
theorem lazy_refines_eager (headers : MultiMap)
    (values : List (RackKey × Option (LazyValue O) × Bool)) :
    (∀ ops op, Answer.SameOutside op (((fresh headers values).run ops).call op).1
      (op.super (eagerRun (eagerTable values) ops)).1) ∧
    ∀ key before op after op',
      Takes ((fresh headers values).run before) op key →
        ¬ Takes ((fresh headers values).run (before ++ op :: after)) op' key := by
  have hfresh := (sound_fresh headers values).1
  constructor
  · intro ops op
    have hs := (sound_run hfresh ops).1
    cases hkey : op.key? with
    | some key =>
      obtain ⟨hfill, hanswer⟩ := call_of_key hkey
      simp only [Answer.SameOutside, hkey]
      intro hout
      obtain ⟨hsourced, hwhole⟩ := origin_outside ((fresh headers values).run ops).headers hout
      have hvalue := ((tracks_run hout ops).touch hsourced hwhole).1
      rw [← lookup_fillKey hs, ← hfill] at hvalue
      exact hanswer hvalue
    | none =>
      cases op with
      | whole method =>
        intro key hout
        exact (lookup_fillEntireHash _ key).trans (tracks_run hout ops).final
      | opAref k => cases hkey
      | fetch k => cases hkey
      | hasKeyP k => cases hkey
      | opAset k v => cases hkey
      | delete k => cases hkey
  · rintro key before op after op' ⟨-, hempty⟩ ⟨hfull, -⟩
    rw [run_append] at hfull
    exact hfull (slot_run_of_none (sound_call (sound_run hfresh before).1 op).1 hempty after)

end RackEnv

end Jubilee
