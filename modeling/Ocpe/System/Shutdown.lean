import Ocpe.Lib.Stall
import Ocpe.System.Progress

/-!
# Stopping

`WorkerPool::stop` clears `running_`, and `join` waits until every thread has returned.
After a stop a worker goes through with what it is at, which may still be one `BRPOP`
with its job, and returns at its next test of `running_`.  An evaluation may never return: its
compiler or its program can keep it for ever.

* `not_crashed`: without faults no worker crashes.
* `steps_of_stopped`: after a stop a worker makes seven steps at most.
* `shutdown`: so every worker that is let run returns, unless an exception or its evaluation holds
  it, and when all the others have returned every job waits in the queue, has its result stored or
  is the one of an evaluation that never returns.
-/

namespace Ocpe.System

open Lib Redis RedisClient WorkerPool

/-- The thread of the pool that an action is a step of. -/
def Action.thread? : Action → Option Nat
  | .perform (.worker w) _ => some w
  | .test w _ => some w
  | .next w => some w
  | .terminate w => some w
  | _ => none

/-- The worker is in `evaluate_submission`: the last that it has heard of is its status
`RUNNING`. -/
def Worker.evaluating {cfg : Config} : Worker cfg → Bool
  | .busy _ task _ =>
    match task.trace.getLast? with
    | some (.command (.set _ value _), .reply _) => value = cstr (verdictToString .running)
    | _ => false
  | _ => false

/-- A step of a system in which an evaluation may never return. -/
abbrev stallStep (cfg : Config) : Stalling (Sys cfg) Nat → Stalling.Action Action Nat →
    Option (Stalling (Sys cfg) Nat) :=
  Stalling.step (step cfg) Action.thread? fun s w => (s.workers w).evaluating

variable {cfg : Config} {s s' : Sys cfg} {as bs : List Action}

theorem isBy_iff {a : Action} (hfree : a.FaultFree) (w : Nat) :
    a.isBy w = true ↔ a.thread? = some w := by
  cases a with
  | perform who net => cases who <;> simp [Action.isBy, Action.thread?]
  | test w' m => simp [Action.isBy, Action.thread?]
  | next w' => simp [Action.isBy, Action.thread?]
  | terminate w' => exact hfree.elim
  | crash w' => exact hfree.elim
  | _ => simp [Action.isBy, Action.thread?]

theorem workers_of_step {a : Action} (hfree : a.FaultFree) (h : step cfg s a = some s') {w : Nat}
    (ha : a.thread? ≠ some w) : s'.workers w = s.workers w := by
  cases a with
  | tick ms => cases h; rfl
  | stop => cases h; rfl
  | request r api request env =>
    simp only [step] at h
    split at h
    · cases h; rfl
    · cases h
  | perform who net =>
    obtain ⟨op, -, rfl⟩ := step_perform_iff.mp h
    refine perform_workers_of_ne ?_
    rintro rfl
    exact ha rfl
  | test w' m =>
    obtain ⟨worker, -, rfl⟩ := Option.map_eq_some_iff.mp h
    exact Function.update_of_ne (fun hw => ha (congrArg some hw.symm)) ..
  | next w' =>
    simp only [step] at h
    split at h
    · cases h
      exact Function.update_of_ne (fun hw => ha (congrArg some hw.symm)) ..
    · cases h
  | terminate w' => exact hfree.elim
  | crash w' => exact hfree.elim

theorem running_of_step {a : Action} (h : step cfg s a = some s') (ha : a ≠ .stop) :
    s'.running = s.running := by
  cases a with
  | tick ms => cases h; rfl
  | stop => exact absurd rfl ha
  | request r api request env =>
    simp only [step] at h
    split at h
    · cases h; rfl
    · cases h
  | perform who net =>
    obtain ⟨op, -, rfl⟩ := step_perform_iff.mp h
    cases who <;> rfl
  | test w m =>
    obtain ⟨worker, -, rfl⟩ := Option.map_eq_some_iff.mp h
    rfl
  | next w =>
    simp only [step] at h
    split at h
    · cases h; rfl
    · cases h
  | terminate w =>
    simp only [step] at h
    split at h
    · cases h; rfl
    · cases h
  | crash w => cases h; rfl

theorem running_step {a : Action} (h : step cfg s a = some s') (hs : s.running = false) :
    s'.running = false := by
  by_cases ha : a = .stop
  · subst ha
    cases h
    rfl
  · rw [running_of_step h ha, hs]

theorem Moves.ne_crashed {running : Bool} {x y : Worker cfg} (h : Moves running x y) :
    y ≠ .crashed := by
  cases h with
  | retry => cases running <;> simp
  | test m => cases running <;> simp
  | _ => simp [Worker.feed]

section Run

variable (hrun : Reaches cfg as s) (hfree : ∀ a ∈ as, a.FaultFree)

include hrun hfree

theorem not_crashed (w : Nat) : s.workers w ≠ .crashed := by
  have hinv : Links s ∧ ∀ w, s.workers w ≠ .crashed := by
    refine run_invariant_of (fun s : Sys cfg => Links s ∧ ∀ w, s.workers w ≠ .crashed) hrun hfree
      ⟨⟨fun _ => rfl, fun _ h => h.elim⟩, fun w => by simp⟩ ?_
    rintro m a m' ⟨hlinks, hm⟩ ha h
    refine ⟨links_step h ha.served hlinks, fun w => ?_⟩
    rcases moves_of_step hlinks ha h w with ⟨-, hsame⟩ | ⟨-, hmoves⟩
    · rw [hsame]
      exact hm w
    · exact hmoves.ne_crashed
  exact hinv.2 w

/-- **A worker that has not returned can go on**, unless an exception holds it. -/
theorem step_of_not_left (w : Nat) (m : Machine) :
    s.workers w = .left ∨ (∃ e, (s.workers w).ended = some (.error e)) ∨
      ∃ a s', a.isBy w = true ∧ a.FaultFree ∧ step cfg s a = some s' := by
  have hnot := not_crashed hrun hfree w
  have performs : ∀ op, s.op? (.worker w) = some op →
      ∃ a s', a.isBy w = true ∧ a.FaultFree ∧ step cfg s a = some s' := fun op hop =>
    ⟨.perform (.worker w) .served, _, by simp [Action.isBy], rfl,
      step_perform_iff.mpr ⟨op, hop, rfl⟩⟩
  cases hw : s.workers w with
  | connecting => exact .inr (.inr (performs .connect (by rw [Sys.op?, hw]; rfl)))
  | retrying =>
    exact .inr (.inr ⟨.test w m, _, by simp [Action.isBy], trivial,
      Option.map_eq_some_iff.mpr ⟨_, by rw [hw]; rfl, rfl⟩⟩)
  | ready =>
    exact .inr (.inr ⟨.test w m, _, by simp [Action.isBy], trivial,
      Option.map_eq_some_iff.mpr ⟨_, by rw [hw]; rfl, rfl⟩⟩)
  | left => exact .inl rfl
  | crashed => exact absurd hw hnot
  | busy m' task begun =>
    cases hrest : task.rest with
    | pure u =>
      have hended : (s.workers w).ended = some (.ok ()) := by rw [hw, Worker.ended, hrest]
      exact .inr (.inr ⟨.next w, _, by simp [Action.isBy], trivial, if_pos hended⟩)
    | throw e => exact .inr (.inl ⟨e, by rw [Worker.ended, hrest]⟩)
    | op op next =>
      refine .inr (.inr (performs op ?_))
      rw [Sys.op?, hw]
      exact Task.op?_eq_some.mpr ⟨next, hrest⟩

end Run

/-- **After a stop** a worker makes seven steps at most. -/
theorem steps_of_stopped (hrun : Reaches cfg as s) (hstopped : s.running = false)
    (h : Lib.run (step cfg) s bs = some s') (hfree : ∀ a ∈ as ++ bs, a.FaultFree) (w : Nat) :
    stepsOf w bs + (s'.workers w).toGo ≤ (s.workers w).toGo := by
  have hinv : s'.running = false ∧ stepsOf w bs + (s'.workers w).toGo ≤ (s.workers w).toGo := by
    refine run_invariant_after (fun hist m => m.running = false ∧
      stepsOf w hist + (m.workers w).toGo ≤ (s.workers w).toGo)
      h hfree ⟨hstopped, by simp [stepsOf]⟩ ?_
    rintro hist m a m' hm hall ⟨hrunning, hcount⟩ ha hstep
    have hreaches : Reaches cfg (as ++ hist) m := run_append_iff.mpr ⟨s, hrun, hm⟩
    have hserved : ∀ b ∈ as ++ hist, b.Served := fun b hb => (hall b hb).served
    refine ⟨running_step hstep hrunning, ?_⟩
    rw [stepsOf_append, stepsOf_singleton]
    rcases moves_of_step (links hreaches hserved) ha hstep w with ⟨hby, heq⟩ | ⟨hby, hmoves⟩
    · rw [hby, heq, if_neg Bool.false_ne_true]
      exact hcount
    · rw [if_pos hby]
      rcases hmoves.toGo_lt (worker_replied hreaches hserved w) with hlt | ⟨hwasRunning, -⟩
      · omega
      · rw [hrunning] at hwasRunning
        cases hwasRunning
  exact hinv.2

/-- Where the jobs are when every worker but some has returned, or never begun. -/
theorem job_of_returned (hrun : Reaches cfg as s) (hfree : ∀ a ∈ as, a.FaultFree)
    (hids : DistinctIds s) {stalled : Nat → Prop}
    (hleft : ∀ w, s.workers w = .left ∨ s.workers w = .connecting ∨ stalled w)
    {r : Nat} {k : Handling cfg} {job : SubmissionJob} {payload : Bytes}
    (hr : s.requests r = some k) (henqueued : Enqueued k job payload) :
    s.queued.count payload = 1 ∨
      (∃ w, stalled w ∧ (s.workers w).payload? = some payload) ∨
      ∃ job' m result b t, submissionJobFromJson cfg.format payload = .ok job' ∧
        evaluation cfg m job' = .ok result ∧ ResultOf job' result ∧
        submissionResultFromJson cfg.format b = .ok result ∧
        s.store (resultKey job'.submissionId) = some ⟨.str b, some t⟩ := by
  cases inOnePlace hrun hfree hids hr henqueued with
  | queued once free unfinished => exact .inl once
  | held out one unfinished =>
    obtain ⟨w, hw, -⟩ := one
    rcases hleft w with hleft | hleft | hstalled
    · rw [hleft] at hw
      cases hw
    · rw [hleft] at hw
      cases hw
    · exact .inr (.inl ⟨w, hstalled, hw⟩)
  | completed out free done =>
    obtain ⟨w, hdone⟩ := done
    obtain ⟨job', m, result, b, t, hjob, -, hrest⟩ :=
      result_of_done hrun (fun a ha => (hfree a ha).served) hids hdone
    exact .inr (.inr ⟨job', m, result, b, t, hjob, hrest⟩)

theorem stalled_evaluating {as : List (Stalling.Action Action Nat)} {x : Stalling (Sys cfg) Nat}
    (hrun : Lib.run (stallStep cfg) (.begin {}) as = some x)
    (hfree : ∀ a ∈ Stalling.steps as, a.FaultFree) (w : Nat) (hw : x.stalled w = true) :
    (x.state.workers w).evaluating = true := by
  refine Stalling.stalled_may (fun _ => True) trivial hrun hfree (fun _ _ _ _ _ => trivial) ?_
    (fun _ hw => absurd hw Bool.false_ne_true) w hw
  intro s a s' w _ hfree h hthread hw
  rw [workers_of_step hfree h hthread]
  exact hw

/-- **A graceful stop.**  In a run without faults, in which any evaluation may never return, after
a stop: every worker makes seven steps at most; it can make one until it has returned, unless an
exception or its evaluation holds it; and when all the others that began have returned, every job
that was enqueued waits in the queue, has its result stored, or is held by such an evaluation. -/
theorem shutdown {as bs : List (Stalling.Action Action Nat)} {x y : Stalling (Sys cfg) Nat}
    (hrun : Lib.run (stallStep cfg) (.begin {}) as = some x) (hstopped : x.state.running = false)
    (h : Lib.run (stallStep cfg) x bs = some y)
    (hfree : ∀ a ∈ Stalling.steps (as ++ bs), a.FaultFree) (hids : DistinctIds y.state) :
    (∀ w, stepsOf w (Stalling.steps bs) ≤ 7) ∧
    (∀ w, y.state.workers w = .left ∨ (∃ e, (y.state.workers w).ended = some (.error e)) ∨
      (y.stalled w = true ∧ (y.state.workers w).evaluating = true) ∨
      ∃ a z, a.isBy w = true ∧ a.FaultFree ∧ stallStep cfg y (.step a) = some z) ∧
    ((∀ w, y.state.workers w = .left ∨ y.state.workers w = .connecting ∨ y.stalled w = true) →
      ∀ r k job payload, y.state.requests r = some k → Enqueued k job payload →
        y.state.queued.count payload = 1 ∨
          (∃ w, y.stalled w = true ∧ (y.state.workers w).payload? = some payload) ∨
          ∃ job' m result b t, submissionJobFromJson cfg.format payload = .ok job' ∧
            evaluation cfg m job' = .ok result ∧ ResultOf job' result ∧
            submissionResultFromJson cfg.format b = .ok result ∧
            y.state.store (resultKey job'.submissionId) = some ⟨.str b, some t⟩) := by
  have hall : Lib.run (stallStep cfg) (.begin {}) (as ++ bs) = some y :=
    run_append_iff.mpr ⟨x, hrun, h⟩
  have hreaches : Reaches cfg (Stalling.steps (as ++ bs)) y.state := Stalling.run_steps hall
  refine ⟨fun w => ?_, fun w => ?_, ?_⟩
  · have hcount := steps_of_stopped (Stalling.run_steps hrun) hstopped (Stalling.run_steps h)
      (Stalling.steps_append as bs ▸ hfree) w
    have hseven := (x.state.workers w).toGo_le
    omega
  · rcases step_of_not_left hreaches hfree w (printing "1") with
      hleft | hheld | ⟨a, s, hby, ha, hstep⟩
    · exact .inl hleft
    · exact .inr (.inl hheld)
    cases hw : y.stalled w with
    | true => exact .inr (.inr (.inl ⟨rfl, stalled_evaluating hall hfree w hw⟩))
    | false =>
      refine .inr (.inr (.inr ⟨a, { y with state := s }, hby, ha, ?_⟩))
      refine Stalling.step_step_iff.mpr ⟨fun p hp => ?_, hstep, rfl⟩
      cases ((isBy_iff ha w).mp hby).symm.trans hp
      exact hw
  · intro hleft r k job payload hr henqueued
    exact job_of_returned hreaches hfree hids hleft hr henqueued

/-- The pool is stopped after Ann's job, and its worker returns. -/
theorem shutdown_ann :
    ∃ (s' : Sys textConfig) (k : Handling textConfig) (job : SubmissionJob) (payload : Bytes),
      s'.workers 0 = .left ∧ s'.requests 1 = some k ∧ Enqueued k job payload ∧
      (s'.queued.count payload = 1 ∨
        ∃ job' m result b t, submissionJobFromJson jsonText payload = .ok job' ∧
          evaluation textConfig m job' = .ok result ∧ ResultOf job' result ∧
          submissionResultFromJson jsonText b = .ok result ∧
          s'.store (resultKey job'.submissionId) = some ⟨.str b, some t⟩) := by
  obtain ⟨h₀, h₁, response, henv₀, henv₁, hrequest, hrest, h202, hrun⟩ := ann_in_order
  generalize hs : workerServed textConfig (announced h₀ h₁) 0 zeroJob oneResult oneStored = s
    at hrun
  have hstop : Reaches textConfig (inOrder ++ [.stop]) { s with running := false } :=
    run_concat_iff.mpr ⟨s, hrun, rfl⟩
  have hready : s.workers 0 = .ready := by rw [← hs]; rfl
  have hbegan : ∀ w, w ≠ 0 → s.workers w = .connecting := by
    intro w hw
    rw [← hs]
    exact Function.update_of_ne hw ..
  have htest : Lib.run (step textConfig) { s with running := false } [.test 0 (printing "1")] =
      some { s with running := false, workers := Function.update s.workers 0 .left } :=
    run_single (by simp [step, hready, Worker.test])
  have hfree : ∀ a ∈ inOrder ++ [.stop] ++ [.test 0 (printing "1")], a.FaultFree := by
    intro a ha
    rw [List.append_assoc, List.mem_append] at ha
    rcases ha with ha | ha
    · exact faultFree_inOrder a ha
    · rcases List.mem_pair.mp ha with rfl | rfl <;> trivial
  have hrequests : s.requests =
      Function.update (Function.update (fun _ => none) 0 (some h₀)) 1 (some h₁) := by
    rw [← hs]
    rfl
  have hr : s.requests 1 = some h₁ := by rw [hrequests, Function.update_self]
  obtain ⟨job, payload, henqueued⟩ := enqueued_of_202 hrequest hrest h202
  generalize hleft : { s with running := false, workers := Function.update s.workers 0 .left } = s'
    at htest
  have hworkers : s'.workers = Function.update s.workers 0 .left := by rw [← hleft]
  have hsame : s'.requests = s.requests := by rw [← hleft]
  obtain ⟨-, -, hplace⟩ := shutdown (Stalling.run_map_step hstop) rfl
    (Stalling.run_map_step htest)
    (by rw [Stalling.steps_append, Stalling.steps_map_step, Stalling.steps_map_step]; exact hfree)
    (distinctIds_ann henv₀ henv₁ (hsame.trans hrequests))
  refine ⟨s', h₁, job, payload, by rw [hworkers, Function.update_self], hsame ▸ hr, henqueued, ?_⟩
  have houtside : ∀ w, s'.workers w = .left ∨ s'.workers w = .connecting ∨ false = true := by
    intro w
    by_cases hw : w = 0
    · exact .inl (by rw [hw, hworkers, Function.update_self])
    · exact .inr (.inl ((congrFun hworkers w).trans
        ((Function.update_of_ne hw ..).trans (hbegan w hw))))
  rcases hplace houtside 1 h₁ job payload (hsame ▸ hr) henqueued with
    hqueued | ⟨w, hw, -⟩ | hstored
  · exact .inl hqueued
  · cases hw
  · exact .inr hstored

end Ocpe.System
