import Ocpe.System.Written

/-!
# Every job once

Runs without Redis faults, crashes and escaping exceptions.  Nothing is lost in them
(`not_lost`) and nothing is pushed twice (`pushed_once`), so the one line that a job has
in the ledger says where the job is: `fault_free` is the whole account, from
`enqueue_job` to the stored result, for any interleaving of handlers and workers and a
`stop()` at any point.
-/

namespace Ocpe.System

open Lib Redis RedisClient WorkerPool

variable {cfg : Config} {s s' : Sys cfg}

/-! ### Nothing is lost -/

def Event.Survived : Event → Prop
  | .crashed _ => False
  | .terminated => False
  | _ => True

theorem survived_step {a : Action} (h : step cfg s a = some s') (ha : a.FaultFree)
    (hs : ∀ e ∈ s.log, e.Survived) : ∀ e ∈ s'.log, e.Survived := by
  cases a with
  | tick ms => cases h; exact hs
  | stop => cases h; exact hs
  | request r api request env =>
    simp only [step] at h
    split at h
    · cases h; exact hs
    · cases h
  | perform who net =>
    obtain ⟨op, -, rfl⟩ := step_perform_iff.mp h
    exact forall_log_concat hs perform_log trivial
  | test w m =>
    obtain ⟨worker, -, rfl⟩ := Option.map_eq_some_iff.mp h
    exact hs
  | next w =>
    simp only [step] at h
    split at h
    · cases h
      exact forall_log_concat hs rfl trivial
    · cases h
  | terminate w => exact ha.elim
  | crash w => exact ha.elim

section Run

variable {as : List Action} (hrun : Reaches cfg as s) (hfree : ∀ a ∈ as, a.FaultFree)

include hrun hfree

theorem survived : ∀ e ∈ s.log, e.Survived :=
  run_invariant_of (fun s : Sys cfg => ∀ e ∈ s.log, e.Survived) hrun hfree (by simp)
    fun _ _ _ hm ha h => survived_step h ha hm

/-- **Nothing is lost.** -/
theorem not_lost {i : Nat} {payload : Bytes} (hi : (ledger s.log).pushed[i]? = some payload) :
    (ledger s.log).fates[i]? ≠ some .lost := by
  intro hf
  obtain ⟨before, e, after, hlog, hloses⟩ := loss_of_lost hf hi
  have he : e ∈ s.log := by rw [hlog]; simp
  rcases hloses with ⟨hpop, -⟩ | ⟨w, rfl | rfl, -⟩
  · have hanswered := answered hrun (fun a ha => (hfree a ha).served) e he
    unfold Event.LosesPop at hpop
    split at hpop
    · exact hpop
    · next hno =>
      obtain ⟨reply, -, rfl⟩ := hanswered
      exact hno _ rfl
    · exact hpop
  · exact survived hrun hfree _ he
  · exact survived hrun hfree _ he

end Run

/-! ### Where a job is -/

def Completed (payload : Bytes) (log : List Event) : Prop := ∃ w, (ledger log).Done w payload

/-- The job of the payload is in one of three places, and there once. -/
inductive InOnePlace (s : Sys cfg) (payload : Bytes) : Prop
  | queued (once : s.queued.count payload = 1)
      (free : ∀ w, (s.workers w).payload? ≠ some payload) (unfinished : ¬ Completed payload s.log)
  | held (out : payload ∉ s.queued) (one : ∃! w, (s.workers w).payload? = some payload)
      (unfinished : ¬ Completed payload s.log)
  | completed (out : payload ∉ s.queued) (free : ∀ w, (s.workers w).payload? ≠ some payload)
      (done : Completed payload s.log)

section Run

variable {as : List Action} (hrun : Reaches cfg as s) (hfree : ∀ a ∈ as, a.FaultFree)
  (hids : DistinctIds s)

include hrun hfree hids

/-- **A job is in one place.** -/
theorem inOnePlace {r : Nat} {h : Handling cfg} (hr : s.requests r = some h)
    {job : SubmissionJob} {payload : Bytes} (henqueued : Enqueued h job payload) :
    InOnePlace s payload := by
  have hone := pushed_once hrun (fun a ha => (hfree a ha).served) hids hr henqueued
  have hholds := (accounts hrun).holds
  have hmem : payload ∈ s.queued ↔ payload ∈ (ledger s.log).waiting := by
    rw [queued_eq hrun, List.mem_reverse]
  rcases Ledger.place_of_once hone fun i hi => not_lost hrun hfree hi with
    ⟨hcount, hnot, hopen⟩ | ⟨hout, hheld, hopen⟩ | ⟨hout, hnot, hdone⟩
  · refine .queued ?_ (fun w hw => hnot w ((hholds w payload).mp hw)) fun ⟨w, hw⟩ => hopen w hw
    rw [queued_eq hrun, List.count_reverse]
    exact hcount
  · refine .held (fun h => hout (hmem.mp h)) ?_ fun ⟨w, hw⟩ => hopen w hw
    simpa only [hholds] using hheld
  · exact .completed (fun h => hout (hmem.mp h)) (fun w hw => hnot w ((hholds w payload).mp hw))
      hdone.exists

end Run

/-! ### What a worker leaves behind -/

/-- The machine that the worker's iteration meets. -/
def Worker.machine? : Worker cfg → Option Machine
  | .busy m _ _ => some m
  | _ => none

theorem Worker.feed_machine? (worker : Worker cfg) (a : Answer) :
    (worker.feed a).machine? = worker.machine? := by
  unfold Worker.feed
  split <;> rfl

theorem tested_step {a : Action} (h : step cfg s a = some s') {w : Nat} {m : Machine}
    (hm : (s'.workers w).machine? = some m) :
    (s.workers w).machine? = some m ∨ a = .test w m := by
  have moved : ∀ {w' : Nat} {worker : Worker cfg}, worker.machine? = none →
      (Function.update s.workers w' worker w).machine? = some m →
      (s.workers w).machine? = some m := by
    intro w' worker hnone hsome
    by_cases hw : w = w'
    · subst hw
      rw [Function.update_self, hnone] at hsome
      cases hsome
    · rwa [Function.update_of_ne hw] at hsome
  cases a with
  | tick ms => cases h; exact .inl hm
  | stop => cases h; exact .inl hm
  | request r api request env =>
    simp only [step] at h
    split at h
    · cases h; exact .inl hm
    · cases h
  | perform who net =>
    obtain ⟨op, -, rfl⟩ := step_perform_iff.mp h
    left
    by_cases hw : who = .worker w
    · subst hw
      rwa [perform_worker, Worker.feed_machine?] at hm
    · rwa [perform_workers_of_ne hw] at hm
  | test w' m' =>
    obtain ⟨worker, htest, rfl⟩ := Option.map_eq_some_iff.mp h
    by_cases hw : w = w'
    · subst hw
      simp only [Function.update_self] at hm
      right
      unfold Worker.test at htest
      split at htest
      · cases htest
        split at hm <;> cases hm
      · cases htest
        split at hm
        · cases hm; rfl
        · cases hm
      · cases htest
    · simp only [Function.update_of_ne hw] at hm
      exact .inl hm
  | next w' =>
    simp only [step] at h
    split at h
    · cases h
      exact .inl (moved rfl hm)
    · cases h
  | terminate w' =>
    simp only [step] at h
    split at h
    · cases h
      cases hm
    · cases h
  | crash w' =>
    cases h
    exact .inl (moved rfl hm)

/-- **A worker in its loop body is there since a test**, and meets the machine of the test. -/
theorem tested {as : List Action} (hrun : Reaches cfg as s) {w : Nat} {m : Machine}
    (hm : (s.workers w).machine? = some m) : Action.test w m ∈ as := by
  refine run_invariant_hist
    (fun (as : List Action) (s : Sys cfg) => ∀ w m, (s.workers w).machine? = some m →
      Action.test w m ∈ as) hrun (fun _ _ => trivial) (fun _ _ h => ?_) ?_ w m hm
  · cases h
  · intro as m₁ a m₂ _ hs (_ : True) hstep w m hm
    rcases tested_step hstep hm with hold | rfl
    · exact List.mem_append_left _ (hs w m hold)
    · simp

section Run

variable {as : List Action} (hrun : Reaches cfg as s) (hserved : ∀ a ∈ as, a.Served)
  (hids : DistinctIds s)

include hrun hserved hids

/-- **A job that a worker is through with** was evaluated in the machine that the worker
met, and the result of the evaluation is what the result key of the job holds. -/
theorem result_of_done {w : Nat} {payload : Bytes} (hdone : (ledger s.log).Done w payload) :
    ∃ job m result b t, submissionJobFromJson cfg.format payload = .ok job ∧
      Action.test w m ∈ as ∧ evaluation cfg m job = .ok result ∧ ResultOf job result ∧
      submissionResultFromJson cfg.format b = .ok result ∧
      s.store (resultKey job.submissionId) = some ⟨.str b, some t⟩ := by
  obtain ⟨i, hf, hi⟩ := hdone
  obtain ⟨as₁, as₂, s₁, -, rfl, hrun₁, hrest, -, hended, hat⟩ := at_finished hrun hf hi
  have hserved₁ : ∀ a ∈ as₁, a.Served := fun a ha => hserved a (List.mem_append_left _ ha)
  have hlife₁ := life_of_run hrun₁ hserved₁ (hids.of_run hrest)
  have hlife := life_of_run hrun hserved hids
  obtain ⟨job, hline, hpayload⟩ := line_of_pushed hrun₁ hat.2
  obtain ⟨m, q, hstage, task, begun, hw, rfl⟩ := hlife₁.taken i job _ hline hat.1
  rw [hw] at hended
  rw [rest_of_ended hended] at hstage
  obtain ⟨result, b, heval, hb, hsent⟩ := hstage.of_pure
  have hmem₁ : b ∈ s₁.log.filterMap (Event.result? job.submissionId) := by
    rw [filterMap_result?, hsent]
    simp
  have hmem : b ∈ s.log.filterMap (Event.result? job.submissionId) := by
    obtain ⟨es, hes⟩ := (grows_run hrest).log
    rw [← hes, List.filterMap_append]
    exact List.mem_append_left _ hmem₁
  obtain ⟨-, -, -, t, -, -, -, hstore⟩ :=
    result_held hrun hserved hlife (nulFree_of_line hrun₁ hline) hmem
  exact ⟨job, m, result, b, _, jobFromJson_toJson hpayload,
    List.mem_append_left _ (tested hrun₁ (by rw [hw]; rfl)), heval, (evaluateSubmission_ok heval).1,
    resultFromJson_toJson hb, hstore⟩

end Run

/-- **Every job once**, in every run without faults: a job that was enqueued is in one
place, the workers take the jobs in the order of the queue, a job that is completed has
its result stored, and a worker that has left its loop holds nothing. -/
theorem fault_free {as : List Action} (hrun : Reaches cfg as s)
    (hfree : ∀ a ∈ as, a.FaultFree) (hids : DistinctIds s) :
    (∀ r h job payload, s.requests r = some h → Enqueued h job payload → InOnePlace s payload) ∧
    s.log.filterMap Event.pops? <+: s.log.filterMap Event.pushes? ∧
    (∀ w payload, (ledger s.log).Done w payload →
      ∃ job m result b t, submissionJobFromJson cfg.format payload = .ok job ∧
        Action.test w m ∈ as ∧ evaluation cfg m job = .ok result ∧ ResultOf job result ∧
        submissionResultFromJson cfg.format b = .ok result ∧
        s.store (resultKey job.submissionId) = some ⟨.str b, some t⟩) ∧
    ∀ w, s.workers w = .left → ∀ payload, ¬ (ledger s.log).Holds w payload := by
  refine ⟨fun r h job payload hr => inOnePlace hrun hfree hids hr, ?_, fun w payload => ?_,
    fun w hw payload hholds => ?_⟩
  · rw [popped_eq_taken hrun, ← ledger_pushed]
    exact Ledger.taken_prefix
  · exact result_of_done hrun (fun a ha => (hfree a ha).served) hids
  · have hpayload := ((accounts hrun).holds w payload).mpr hholds
    rw [hw] at hpayload
    cases hpayload

theorem fault_free_overtaking :
    ∃ s h job payload, Reaches textConfig (overtaking 0) s ∧ s.requests 1 = some h ∧
      Enqueued h job payload ∧ InOnePlace s payload ∧ (ledger s.log).Done 0 zeroPayload ∧
      ∃ job m result b t, submissionJobFromJson jsonText zeroPayload = .ok job ∧
        Action.test 0 m ∈ overtaking 0 ∧ evaluation textConfig m job = .ok result ∧
        ResultOf job result ∧ submissionResultFromJson jsonText b = .ok result ∧
        s.store (resultKey job.submissionId) = some ⟨.str b, some t⟩ := by
  obtain ⟨h₀, h, response, henv₀, henv, hrequest, hrest, h202, hrun⟩ := ann_overtaken 0
  have hids : DistinctIds (overtaken h₀ h 0) := distinctIds_ann henv₀ henv rfl
  obtain ⟨hplace, -, hresult, -⟩ := fault_free hrun (faultFree_overtaking 0) hids
  have hr : (overtaken h₀ h 0).requests 1 = some h := by simp [overtaken, workerServed, enqueued]
  obtain ⟨job, payload, henqueued⟩ := enqueued_of_202 hrequest hrest h202
  have hdone : (ledger (overtaken h₀ h 0).log).Done 0 zeroPayload := ⟨0, rfl, rfl⟩
  exact ⟨_, h, job, payload, hrun, hr, henqueued, hplace 1 h job payload hr henqueued, hdone,
    hresult 0 _ hdone⟩

end Ocpe.System
