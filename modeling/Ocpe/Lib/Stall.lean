import Ocpe.Lib.Run

/-!
# Parties that stop for good

A machine in which a party may, at certain places, stay where it is for ever: none of its steps is
taken from then on, while the others go on.

* `run_steps`: a run of it is a run of the machine itself, so what holds of all of those holds here.
* `stalled_may`: a party that has stopped is still at a place where it may.
-/

namespace Ocpe.Lib

variable {S A P : Type}

/-- A state of the machine, and who has stopped. -/
structure Stalling (S P : Type) where
  state : S
  stalled : P → Bool

inductive Stalling.Action (A P : Type)
  | step (a : A)
  | stall (p : P)

namespace Stalling

def begin (s : S) : Stalling S P := ⟨s, fun _ => false⟩

def Action.base? : Action A P → Option A
  | .step a => some a
  | .stall _ => none

/-- The steps of the machine itself. -/
def steps (as : List (Action A P)) : List A := as.filterMap Action.base?

@[simp] theorem steps_append (as bs : List (Action A P)) :
    steps (as ++ bs) = steps as ++ steps bs := List.filterMap_append

@[simp] theorem steps_map_step (as : List A) :
    steps (as.map (Action.step : A → Action A P)) = as := by
  induction as with
  | nil => rfl
  | cons a as ih => exact congrArg (a :: ·) ih

variable [DecidableEq P]

section Step

variable (next : S → A → Option S) (party? : A → Option P) (may : S → P → Bool)

def step (x : Stalling S P) : Action A P → Option (Stalling S P)
  | .step a =>
    if (party? a).any x.stalled then none
    else (next x.state a).map fun s => { x with state := s }
  | .stall p =>
    if may x.state p then some { x with stalled := Function.update x.stalled p true } else none

end Step

variable {next : S → A → Option S} {party? : A → Option P} {may : S → P → Bool}
  {x y : Stalling S P}

theorem step_step_iff {a : A} : x.step next party? may (.step a) = some y ↔
    (∀ p, party? a = some p → x.stalled p = false) ∧
      next x.state a = some y.state ∧ y.stalled = x.stalled := by
  have hmoves : (party? a).any x.stalled = true ↔
      ¬ ∀ p, party? a = some p → x.stalled p = false := by
    simp [Option.any_eq_true]
  rw [step]
  by_cases hany : (party? a).any x.stalled = true
  · rw [if_pos hany]
    exact iff_of_false nofun fun h => hmoves.mp hany h.1
  · rw [if_neg hany, Option.map_eq_some_iff]
    have hfree := not_not.mp (mt hmoves.mpr hany)
    constructor
    · rintro ⟨s, hs, rfl⟩
      exact ⟨hfree, hs, rfl⟩
    · rintro ⟨-, hs, hstalled⟩
      exact ⟨y.state, hs, by rw [← hstalled]⟩

theorem step_stall_iff {p : P} : x.step next party? may (.stall p) = some y ↔
    may x.state p = true ∧ y.state = x.state ∧ y.stalled = Function.update x.stalled p true := by
  rw [step]
  by_cases hmay : may x.state p = true
  · rw [if_pos hmay, Option.some.injEq]
    constructor
    · rintro rfl
      exact ⟨hmay, rfl, rfl⟩
    · rintro ⟨-, hstate, hstalled⟩
      rw [← hstate, ← hstalled]
  · rw [if_neg hmay]
    exact iff_of_false nofun fun h => hmay h.1

/-- **A run is a run of the machine itself.** -/
theorem run_steps {as : List (Action A P)} (h : run (step next party? may) x as = some y) :
    run next x.state (steps as) = some y.state := by
  refine run_proj (fun x : Stalling S P => x.state) Action.base? h ?_ ?_
  · intro m a m' b hstep hb
    cases a with
    | step a =>
      cases hb
      exact (step_step_iff.mp hstep).2.1
    | stall p => cases hb
  · intro m a m' hstep hb
    cases a with
    | step a => cases hb
    | stall p => exact (step_stall_iff.mp hstep).2.1

theorem run_map_step {as : List A} {s t : S} (h : run next s as = some t) :
    run (step next party? may) (begin s) (as.map .step) = some (begin t) := by
  induction as generalizing s with
  | nil =>
    cases h
    rfl
  | cons a as ih =>
    obtain ⟨m, hm, h⟩ := run_cons_iff.mp h
    exact run_cons_iff.mpr ⟨begin m, step_step_iff.mpr ⟨fun _ _ => rfl, hm, rfl⟩, ih h⟩

/-- **Who has stopped** is where it may, if no step of another takes it away from there. -/
theorem stalled_may (I : S → Prop) {ok : A → Prop} {as : List (Action A P)} (hI : I x.state)
    (h : run (step next party? may) x as = some y) (hok : ∀ a ∈ steps as, ok a)
    (hinv : ∀ s a s', I s → next s a = some s' → I s')
    (hframe : ∀ s a s' p, I s → ok a → next s a = some s' → party? a ≠ some p →
      may s p = true → may s' p = true)
    (h0 : ∀ p, x.stalled p = true → may x.state p = true) :
    ∀ p, y.stalled p = true → may y.state p = true := by
  have hall : ∀ a ∈ as, ∀ b, Action.base? a = some b → ok b := fun a ha b hb =>
    hok b (List.mem_filterMap.mpr ⟨a, ha, hb⟩)
  refine (run_invariant_of (fun y => I y.state ∧ ∀ p, y.stalled p = true → may y.state p = true) h
    hall ⟨hI, h0⟩ ?_).2
  rintro m a m' ⟨hI, hm⟩ ha hstep
  cases a with
  | step a =>
    obtain ⟨hmoves, hnext, hstalled⟩ := step_step_iff.mp hstep
    refine ⟨hinv _ a _ hI hnext, fun p hp => ?_⟩
    rw [hstalled] at hp
    refine hframe _ a _ p hI (ha a rfl) hnext (fun hparty => ?_) (hm p hp)
    rw [hmoves p hparty] at hp
    cases hp
  | stall q =>
    obtain ⟨hmay, hstate, hstalled⟩ := step_stall_iff.mp hstep
    rw [hstate]
    refine ⟨hI, fun p hp => ?_⟩
    rw [hstalled] at hp
    by_cases hq : p = q
    · rw [hq]
      exact hmay
    · rw [Function.update_of_ne hq] at hp
      exact hm p hp

end Stalling

end Ocpe.Lib
