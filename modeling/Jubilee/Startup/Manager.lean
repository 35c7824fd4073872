import Jubilee.Common.Run
import Jubilee.Runtime.Java
/-!
# Start-up — the platform manager

`RubyPlatformManager.start` deploys the verticle. The callback of the
deployment calls the start block and then records the deployment's ID,
and `stop`, which another party may call as soon as the block runs,
undeploys what is recorded. `stops_iff` says of every interleaving of the
two whether that is what was deployed.
-/

namespace Jubilee

namespace Startup

/-- Where the callback of a deployment that succeeded is. -/
inductive Callback
  | entry
  | block
  | record
  | recorded
  | raised
  deriving DecidableEq

/-- Where the call of `stop` is, if there is one. -/
inductive Stop
  | notCalled
  | undeploy
  | close
  | returned
  | raised
  deriving DecidableEq

/-- `RubyPlatformManager`, with the two calls that use it, what Vert.x was
asked to undeploy, and whether it was closed. -/
structure RubyPlatformManager where
  deploymentID : Option JString
  callback : Callback
  stop : Stop
  undeployed : List (Option JString)
  closed : Bool
  deriving DecidableEq

namespace RubyPlatformManager

/-- The deployment has succeeded, and its callback is called. -/
def start : RubyPlatformManager := ⟨none, .entry, .notCalled, [], false⟩

/-- What happens next. -/
inductive Act
  /-- The callback goes on. -/
  | callback
  /-- The start block raises. -/
  | blockRaises
  /-- Another party calls `stop`. -/
  | callStop
  /-- `stop` goes on. -/
  | stop
  deriving DecidableEq

/-- The deployment: its ID, whether `start` was given a block, and what
`undeploy` does with the ID it is given. -/
structure Deployment where
  id : JString
  blockGiven : Bool
  undeploy : Option JString → Except Raised Unit

variable (d : Deployment)

/-- The step of the callback. -/
def callbackStep (s : RubyPlatformManager) : Option RubyPlatformManager :=
  match s.callback with
  | .entry => some { s with callback := if d.blockGiven then .block else .record }
  | .block => some { s with callback := .record }
  | .record => some { s with deploymentID := some d.id, callback := .recorded }
  | .recorded | .raised => none

/-- The step of `stop`. -/
def stopStep (s : RubyPlatformManager) : Option RubyPlatformManager :=
  match s.stop with
  | .undeploy =>
    some { s with
      undeployed := s.undeployed ++ [s.deploymentID]
      stop :=
        match d.undeploy s.deploymentID with
        | .ok _ => .close
        | .error _ => .raised }
  | .close => some { s with closed := true, stop := .returned }
  | .notCalled | .returned | .raised => none

/-- One act, if it is possible. -/
def act (s : RubyPlatformManager) : Act → Option RubyPlatformManager
  | .callback => callbackStep d s
  | .blockRaises => if s.callback = .block then some { s with callback := .raised } else none
  | .callStop =>
    if s.callback ≠ .entry ∧ s.stop = .notCalled then some { s with stop := .undeploy } else none
  | .stop => stopStep d s

/-- The outcome of an interleaving, if each act of it is possible. -/
abbrev run (acts : List Act) (s : RubyPlatformManager) : Option RubyPlatformManager :=
  Run.play (act d) acts s

variable {d} {s s' : RubyPlatformManager} {a : Act}

/-- **What an act does.** -/
theorem act_cases (h : s.act d a = some s') :
    (∃ c, c ≠ .recorded ∧ s.callback ≠ .recorded ∧ s' = { s with callback := c } ∧ a ≠ .stop) ∨
    (s' = { s with deploymentID := some d.id, callback := .recorded } ∧ a ≠ .stop) ∨
    (s.stop = .notCalled ∧ s' = { s with stop := .undeploy } ∧ a ≠ .stop) ∨
    (a = .stop ∧ s.stop = .undeploy ∧ ∃ t, s' = { s with
        undeployed := s.undeployed ++ [s.deploymentID]
        stop := t } ∧
      (t = .close ∨ t = .raised ∧ ∃ e, d.undeploy s.deploymentID = .error e)) ∨
    a = .stop ∧ s.stop = .close ∧ s' = { s with closed := true, stop := .returned } := by
  cases a with
  | callback =>
    unfold act callbackStep at h
    cases hcallback : s.callback with
    | entry =>
      rw [hcallback] at h
      refine Or.inl ⟨_, ?_, by simp, (Option.some.inj h).symm, by simp⟩
      cases d.blockGiven with
      | true => decide
      | false => decide
    | block =>
      rw [hcallback] at h
      exact Or.inl ⟨.record, by decide, by simp, (Option.some.inj h).symm, by simp⟩
    | record =>
      rw [hcallback] at h
      exact Or.inr (Or.inl ⟨(Option.some.inj h).symm, by simp⟩)
    | recorded | raised =>
      rw [hcallback] at h
      cases h
  | blockRaises =>
    obtain ⟨hblock, h⟩ := Option.ite_none_right_eq_some.mp h
    exact Or.inl ⟨.raised, by decide, by simp [hblock], (Option.some.inj h).symm, by simp⟩
  | callStop =>
    obtain ⟨⟨-, hstop⟩, h⟩ := Option.ite_none_right_eq_some.mp h
    exact Or.inr (Or.inr (Or.inl ⟨hstop, (Option.some.inj h).symm, by simp⟩))
  | stop =>
    unfold act stopStep at h
    cases hstop : s.stop with
    | undeploy =>
      rw [hstop] at h
      refine Or.inr (Or.inr (Or.inr (Or.inl ⟨rfl, rfl, _, (Option.some.inj h).symm, ?_⟩)))
      cases hundeploy : d.undeploy s.deploymentID with
      | ok => exact Or.inl rfl
      | error e => exact Or.inr ⟨rfl, e, rfl⟩
    | close =>
      rw [hstop] at h
      exact Or.inr (Or.inr (Or.inr (Or.inr ⟨rfl, rfl, (Option.some.inj h).symm⟩)))
    | notCalled | returned | raised =>
      rw [hstop] at h
      cases h

/-! ## Every interleaving -/

/-- What `stop` has done, by where it is. -/
def Called (undeploy : Option JString → Except Raised Unit) (s : RubyPlatformManager) : Prop :=
  match s.stop with
  | .notCalled | .undeploy => s.undeployed = [] ∧ s.closed = false
  | .close => (∃ id, s.undeployed = [id]) ∧ s.closed = false
  | .returned => (∃ id, s.undeployed = [id]) ∧ s.closed = true
  | .raised => ∃ id e, s.undeployed = [id] ∧ undeploy id = .error e

/-- **The invariant**: the ID is there when the callback has recorded it,
and not before. -/
structure Inv (d : Deployment) (s : RubyPlatformManager) : Prop where
  deploymentID : s.deploymentID = if s.callback = .recorded then some d.id else none
  called : Called d.undeploy s

theorem inv_start : Inv d .start := ⟨rfl, rfl, rfl⟩

theorem inv_act (h : s.act d a = some s') (hs : Inv d s) : Inv d s' := by
  obtain ⟨hid, hcalled⟩ := hs
  obtain ⟨c, hc, hcallback, rfl, -⟩ | ⟨rfl, -⟩ | ⟨hstop, rfl, -⟩ |
    ⟨-, hstop, t, rfl, ht⟩ | ⟨-, hstop, rfl⟩ := act_cases h
  · rw [if_neg hcallback] at hid
    exact ⟨hid.trans (if_neg hc).symm, hcalled⟩
  · exact ⟨rfl, hcalled⟩
  · rw [Called, hstop] at hcalled
    exact ⟨hid, hcalled⟩
  · rw [Called, hstop] at hcalled
    obtain ⟨hundeployed, hclosed⟩ := hcalled
    refine ⟨hid, ?_⟩
    obtain rfl | ⟨rfl, e, he⟩ := ht
    · exact ⟨⟨_, by rw [hundeployed, List.nil_append]⟩, hclosed⟩
    · exact ⟨_, e, by rw [hundeployed, List.nil_append], he⟩
  · rw [Called, hstop] at hcalled
    exact ⟨hid, hcalled.1, rfl⟩

/-- `stop` undeploys, and the ID is not recorded. -/
def StopsEarly (s : RubyPlatformManager) (a : Act) : Prop :=
  a = .stop ∧ s.stop = .undeploy ∧ s.callback ≠ .recorded

instance (s : RubyPlatformManager) (a : Act) : Decidable (s.StopsEarly a) :=
  inferInstanceAs (Decidable (_ ∧ _ ∧ _))

/-- What was undeployed is what was deployed. -/
def UndeploysDeployed (d : Deployment) (s : RubyPlatformManager) : Prop :=
  ∀ id ∈ s.undeployed, id = some d.id

theorem undeploysDeployed_act (h : s.act d a = some s') (hs : Inv d s)
    (hdeployed : UndeploysDeployed d s) : UndeploysDeployed d s' ↔ ¬ StopsEarly s a := by
  obtain ⟨c, -, -, rfl, ha⟩ | ⟨rfl, ha⟩ | ⟨-, rfl, ha⟩ | ⟨rfl, hstop, t, rfl, -⟩ |
    ⟨rfl, hstop, rfl⟩ := act_cases h
  · exact iff_of_true hdeployed fun hearly => ha hearly.1
  · exact iff_of_true hdeployed fun hearly => ha hearly.1
  · exact iff_of_true hdeployed fun hearly => ha hearly.1
  · have hid := hs.deploymentID
    by_cases hrecorded : s.callback = .recorded
    · rw [if_pos hrecorded] at hid
      refine iff_of_true (fun id hmem => ?_) fun hearly => hearly.2.2 hrecorded
      rcases List.mem_append.mp hmem with hmem | hmem
      · exact hdeployed id hmem
      · exact (List.mem_singleton.mp hmem).trans hid
    · rw [if_neg hrecorded] at hid
      refine iff_of_false (fun hdeployed' => ?_) (not_not.mpr ⟨rfl, hstop, hrecorded⟩)
      have hlast := hdeployed' s.deploymentID (List.mem_append_right _ List.mem_cons_self)
      rw [hid] at hlast
      cases hlast
  · refine iff_of_true hdeployed fun hearly => ?_
    have hundeploy := hearly.2.1
    rw [hstop] at hundeploy
    cases hundeploy

theorem undeployed_subset (h : s.act d a = some s') : s.undeployed ⊆ s'.undeployed := by
  obtain ⟨c, -, -, rfl, -⟩ | ⟨rfl, -⟩ | ⟨-, rfl, -⟩ | ⟨-, -, t, rfl, -⟩ | ⟨-, -, rfl⟩ := act_cases h
  · exact fun _ hmem => hmem
  · exact fun _ hmem => hmem
  · exact fun _ hmem => hmem
  · exact List.subset_append_left _ _
  · exact fun _ hmem => hmem

/-- **Exactly when `stop` does its work.** In every interleaving that
brings it to its end, the ID of the deployed verticle is what it passed to
`undeploy`, and the Vert.x instance was closed, if and only if the
callback had recorded the ID by then. -/
theorem stops_iff {acts : List Act} (hundeploy : d.undeploy (some d.id) = .ok ())
    (h : start.run d acts = some s) (hstop : s.stop = .returned ∨ s.stop = .raised) :
    s.undeployed = [some d.id] ∧ s.closed = true ↔
      ∀ v ∈ Run.taken (act d) acts start, ¬ StopsEarly v.1 v.2 := by
  have hinv : Inv d s := Run.preserves (fun _ _ _ hs ha => inv_act ha hs) inv_start h
  rw [← Run.iff_taken (P := UndeploysDeployed d) (fun _ _ _ hs ha => inv_act ha hs)
    (fun _ _ _ hs hdeployed ha => undeploysDeployed_act ha hs hdeployed)
    (fun _ _ _ _ hnot ha hdeployed => hnot fun id hmem => hdeployed id (undeployed_subset ha hmem))
    inv_start (fun id hmem => nomatch hmem) h]
  constructor
  · rintro ⟨hundeployed, -⟩ id hmem
    rw [hundeployed] at hmem
    exact List.mem_singleton.mp hmem
  · intro hdeployed
    have hcalled := hinv.called
    rcases hstop with hstop | hstop
    · rw [Called, hstop] at hcalled
      obtain ⟨⟨id, hid⟩, hclosed⟩ := hcalled
      rw [hid, hdeployed id (by rw [hid]; exact List.mem_cons_self)]
      exact ⟨rfl, hclosed⟩
    · -- what raises is not the ID of the deployed verticle
      rw [Called, hstop] at hcalled
      obtain ⟨id, e, hid, hraises⟩ := hcalled
      rw [hdeployed id (by rw [hid]; exact List.mem_cons_self), hundeploy] at hraises
      cases hraises

/-- `stop` comes to its end by its own steps. -/
theorem stop_ends (d : Deployment) (s : RubyPlatformManager) (hstop : s.stop = .undeploy) :
    ∃ m s', s.run d (List.replicate m .stop) = some s' ∧
      (s'.stop = .returned ∨ s'.stop = .raised) := by
  have hstep : s.act d .stop = some { s with
      undeployed := s.undeployed ++ [s.deploymentID]
      stop :=
        match d.undeploy s.deploymentID with
        | .ok _ => .close
        | .error _ => .raised } := by
    rw [act, stopStep, hstop]
  cases hundeploy : d.undeploy s.deploymentID with
  | ok =>
    rw [hundeploy] at hstep
    exact ⟨2, _, (Run.play_cons hstep).trans (Run.play_cons rfl), Or.inl rfl⟩
  | error e =>
    rw [hundeploy] at hstep
    exact ⟨1, _, Run.play_cons hstep, Or.inr rfl⟩

/-- A deployment, with Vert.x's `undeploy`, which takes no `null`. -/
def deployment : Deployment where
  id := "a".toList
  blockGiven := true
  undeploy
    | some _ => .ok ()
    | none => .error (.other true)

/-- `stop` is called while the start block runs, and goes on when the
callback has returned. -/
def late : List Act := [.callback, .callStop, .callback, .callback, .stop, .stop]

/-- What that leaves. -/
def afterLate : RubyPlatformManager :=
  ⟨some "a".toList, .recorded, .returned, [some "a".toList], true⟩

theorem stops_late : afterLate.undeployed = [some deployment.id] ∧ afterLate.closed = true :=
  (stops_iff rfl (show start.run deployment late = some afterLate from rfl) (Or.inl rfl)).mpr
    (by decide)

/-- **`null` is undeployed**, and nothing is closed, where `stop` goes on
while the start block runs. -/
theorem stops_early : ∃ s, start.run deployment [.callback, .callStop, .stop] = some s ∧
    s.stop = .raised ∧ s.undeployed = [none] ∧ s.closed = false := ⟨_, rfl, rfl, rfl, rfl⟩

end RubyPlatformManager

end Startup

end Jubilee
