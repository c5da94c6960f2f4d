import Ocpe.System.FaultFree

/-!
# How long a job waits

The workers' steps are what makes the queue go on, and a fixed number of them is enough.
`Moves` says what one step of a worker can be in a run without faults, and
`Worker.toGo` counts the steps that are left to the test of `running_` at which it would
leave.  An iteration takes five operations at most (`iteration_within`), so every step
but the test itself lowers the count (`Moves.toGo_lt`).

* `taken_of_steps`: with `k` jobs ahead of it in the queue, a job has been taken when any one
  worker has made `7 * (k + 1)` steps.
* `done_of_steps`: a job that was taken is through when its worker has made five more.
* `progress`: both together, with the stored result.
-/

namespace Ocpe

open Lib Redis RedisClient WorkerPool

/-! ### The length of an iteration -/

def ByReply (op : Wire) (a : Answer) : Prop := ∀ c, op = .command c → ∃ r, a = .reply r

theorem execCommand_within (c : Cmd) : (execCommand c).Within ByReply 1 := by
  intro a ha
  obtain ⟨r, rfl⟩ := ha c rfl
  trivial

theorem succeeds_within (c : Cmd) : (succeeds c).Within ByReply 1 :=
  Prog.within_bind (n := 0) (execCommand_within c) (fun r => by cases r <;> trivial) (by decide)

theorem dequeueJob_within (F : JsonFormat) (timeoutSec : Nat) :
    (dequeueJob F timeoutSec).Within ByReply 1 := by
  refine Prog.within_bind (n := 0) (execCommand_within _) (fun r => ?_) (by decide)
  split
  · exact Prog.within_bind (m := 0) (n := 0) (Prog.within_ofExcept _) (fun _ => Prog.within_pure _)
      (by decide)
  · trivial

theorem setResult_within (F : JsonFormat) (result : SubmissionResult) :
    (setResult F result).Within ByReply 1 :=
  Prog.within_bind (m := 0) (Prog.within_ofExcept _) (fun _ => succeeds_within _) (by decide)

variable {cfg : Config} {m : Machine}

theorem closeJob_within (job : SubmissionJob) (result : SubmissionResult) :
    (closeJob job result).Within ByReply 1 :=
  Prog.within_bind (n := 0) (succeeds_within _) (fun _ => Prog.within_pure _) (by decide)

theorem evaluateJob_within (job : SubmissionJob) : (evaluateJob cfg m job).Within ByReply 2 := by
  refine Prog.within_bind (m := 0) (n := 2) (Prog.within_ofExcept _) (fun result => ?_) (by decide)
  exact Prog.within_bind (setResult_within _ _) (fun _ => closeJob_within job result) (by decide)

theorem processJob_within (job : SubmissionJob) : (processJob cfg m job).Within ByReply 4 := by
  refine Prog.within_bind (n := 3) (succeeds_within _) (fun _ => ?_) (by decide)
  exact Prog.within_bind (succeeds_within _) (fun _ => evaluateJob_within job) (by decide)

/-- **An iteration takes five operations at most.** -/
theorem iteration_within : (iteration cfg m).Within ByReply 5 := by
  refine Prog.within_bind (n := 4) (dequeueJob_within _ _) (fun job => ?_) (by decide)
  cases job with
  | none => trivial
  | some job => exact processJob_within job

namespace System

variable {s s' : Sys cfg}

/-! ### The steps of a worker -/

def Action.isBy (w : Nat) : Action → Bool
  | .perform who _ => who = .worker w
  | .test w' _ => w' = w
  | .next w' => w' = w
  | _ => false

def stepsOf (w : Nat) (as : List Action) : Nat := as.countP (Action.isBy w)

@[simp] theorem stepsOf_append (w : Nat) (as bs : List Action) :
    stepsOf w (as ++ bs) = stepsOf w as + stepsOf w bs := List.countP_append ..

theorem stepsOf_singleton (w : Nat) (a : Action) :
    stepsOf w [a] = if a.isBy w = true then 1 else 0 := by
  simp [stepsOf, List.countP_cons]

/-- One step of a worker, when nothing fails. -/
inductive Moves (running : Bool) : Worker cfg → Worker cfg → Prop
  | connect : Moves running .connecting .ready
  | retry : Moves running .retrying (if running then .connecting else .left)
  | test (m : Machine) :
      Moves running .ready
        (if running then .busy m (.begin (iteration cfg m)) rfl else .left)
  | answer (m : Machine) (task : Task Wire Answer Exn Unit)
      (begun : task.start = iteration cfg m) (op : Wire) (a : Answer) (hop : task.op? = some op)
      (ha : ByReply op a) :
      Moves running (.busy m task begun) ((Worker.busy m task begun).feed a)
  | next (m : Machine) (task : Task Wire Answer Exn Unit) (begun : task.start = iteration cfg m)
      (hrest : task.rest = .pure ()) : Moves running (.busy m task begun) .ready

theorem Links.byReply (hs : Links s) {who : Party} {op : Wire} (hop : s.op? who = some op) :
    ByReply op (s.answer who op .served) := by
  rintro c rfl
  exact ⟨_, hs.answer hop⟩

theorem answer_connect (who : Party) : s.answer who .connect .served = .connected true := by
  unfold Sys.answer
  cases s.ctx (s.client who) <;> rfl

/-- **What a step does to a worker** in a run without faults: one move, or nothing. -/
theorem moves_of_step (hs : Links s) {a : Action} (ha : a.FaultFree) (h : step cfg s a = some s')
    (w : Nat) :
    (a.isBy w = false ∧ s'.workers w = s.workers w) ∨
      (a.isBy w = true ∧ Moves s.running (s.workers w) (s'.workers w)) := by
  cases a with
  | tick ms => cases h; exact .inl ⟨rfl, rfl⟩
  | stop => cases h; exact .inl ⟨rfl, rfl⟩
  | request r api request env =>
    simp only [step] at h
    split at h
    · cases h; exact .inl ⟨rfl, rfl⟩
    · cases h
  | perform who net =>
    obtain rfl : net = .served := ha
    obtain ⟨op, hop, rfl⟩ := step_perform_iff.mp h
    by_cases hw : who = .worker w
    · subst hw
      refine .inr ⟨by simp [Action.isBy], ?_⟩
      rw [perform_worker]
      have hreply := hs.byReply hop
      change (s.workers w).op? = some op at hop
      cases hworker : s.workers w with
      | connecting =>
        rw [hworker] at hop
        cases hop
        rw [answer_connect]
        exact .connect
      | busy m task begun =>
        rw [hworker] at hop
        exact .answer m task begun op _ hop hreply
      | _ => rw [hworker] at hop; cases hop
    · exact .inl ⟨by simp [Action.isBy, hw], perform_workers_of_ne hw⟩
  | test w' m =>
    obtain ⟨worker, htest, rfl⟩ := Option.map_eq_some_iff.mp h
    by_cases hw : w' = w
    · subst hw
      refine .inr ⟨by simp [Action.isBy], ?_⟩
      simp only [Function.update_self]
      cases hworker : s.workers w' with
      | retrying => rw [hworker] at htest; cases htest; exact .retry
      | ready => rw [hworker] at htest; cases htest; exact .test m
      | _ => rw [hworker] at htest; cases htest
    · exact .inl ⟨by simp [Action.isBy, hw], Function.update_of_ne (Ne.symm hw) ..⟩
  | next w' =>
    simp only [step] at h
    split at h
    · next hended =>
      cases h
      by_cases hw : w' = w
      · subst hw
        refine .inr ⟨by simp [Action.isBy], ?_⟩
        simp only [Function.update_self]
        cases hworker : s.workers w' with
        | busy m task begun =>
          rw [hworker] at hended
          exact .next m task begun (rest_of_ended hended)
        | _ => rw [hworker] at hended; cases hended
      · exact .inl ⟨by simp [Action.isBy, hw], Function.update_of_ne (Ne.symm hw) ..⟩
    · cases h
  | terminate w' => exact ha.elim
  | crash w' => exact ha.elim

/-- The steps that are left to a worker at most, if the next test of `running_` were to fail. -/
def Worker.toGo : Worker cfg → Nat
  | .connecting => 2
  | .retrying => 3
  | .ready => 1
  | .busy _ task _ => if task.op?.isSome then 7 - task.trace.length else 2
  | .left => 0
  | .crashed => 0

theorem Worker.toGo_busy (m : Machine) (task : Task Wire Answer Exn Unit)
    (begun : task.start = iteration cfg m) :
    (Worker.busy m task begun).toGo = if task.op?.isSome then 7 - task.trace.length else 2 := rfl

/-- The worker is about to send the `BRPOP` of an iteration. -/
def Worker.AtPop : Worker cfg → Prop
  | .busy _ task _ => task.trace = []
  | _ => False

theorem length_trace_le {m : Machine} {task : Task Wire Answer Exn Unit}
    (begun : task.start = iteration cfg m) (ht : Replied task.trace) {op : Wire}
    (hop : task.op? = some op) : task.trace.length ≤ 4 := by
  obtain ⟨next, hrest⟩ := Task.op?_eq_some.mp hop
  have hpath := task.path
  rw [begun, hrest] at hpath
  have hlt := iteration_within.length_lt hpath fun x hx c hc => ht x hx c hc
  omega

/-- **Every move lowers the count**, except that of a test that lets the worker in. -/
theorem Moves.toGo_lt {running : Bool} {x y : Worker cfg} (h : Moves running x y)
    (ht : Replied x.trace) : y.toGo < x.toGo ∨ (running = true ∧ x = .ready ∧ y.AtPop) := by
  cases h with
  | connect => exact .inl (by simp [Worker.toGo])
  | retry => cases running <;> exact .inl (by simp [Worker.toGo])
  | test m =>
    cases running with
    | true => exact .inr ⟨rfl, rfl, rfl⟩
    | false => exact .inl (by simp [Worker.toGo])
  | answer m task begun op a hop ha =>
    left
    have hle := length_trace_le begun ht hop
    have htrace := Task.feed_trace hop a
    simp only [Worker.feed, Worker.toGo, hop, Option.isSome_some, if_true]
    split
    · rw [htrace, List.length_append, List.length_singleton]
      omega
    · omega
  | next m task begun hrest =>
    left
    simp [Worker.toGo, Task.op?, hrest]

/-! ### The next job is taken -/

section Take

variable {as bs : List Action}

theorem length_fates (hrun : Reaches cfg as s) :
    (ledger s.log).fates.length = (s.log.filterMap Event.pops?).length := by
  rw [popped_eq_taken hrun, Ledger.taken, List.length_take, Nat.min_eq_left (ledger s.log).le]

theorem length_fates_mono (hrun : Reaches cfg as s) (h : Lib.run (step cfg) s bs = some s') :
    (ledger s.log).fates.length ≤ (ledger s'.log).fates.length := by
  rw [length_fates hrun, length_fates (run_append_iff.mpr ⟨s, hrun, h⟩)]
  exact ((grows_run h).log.filterMap _).length_le

theorem pushed_later_of_run (h : Lib.run (step cfg) s bs = some s') :
    (ledger s.log).pushed <+: (ledger s'.log).pushed := by
  rw [ledger_pushed, ledger_pushed]
  exact (grows_run h).log.filterMap _

theorem op?_of_atPop {w : Nat} (hat : (s.workers w).AtPop) :
    s.op? (.worker w) = some (.command (.brpop queueKey 5)) := by
  rw [Sys.op?]
  cases hw : s.workers w with
  | busy m task begun =>
    rw [hw] at hat
    have hpath := task.path
    rw [begun, show task.trace = [] from hat] at hpath
    exact Task.op?_eq_some.mpr ⟨_, (Prog.path_nil.mp hpath).symm⟩
  | _ => rw [hw] at hat; exact hat.elim

theorem pushed_later (h : Lib.run (step cfg) s bs = some s') {i : Nat} {payload : Bytes}
    (hi : (ledger s.log).pushed[i]? = some payload) :
    (ledger s'.log).pushed[i]? = some payload := by
  obtain ⟨later, hlater⟩ := pushed_later_of_run h
  rw [← hlater, List.getElem?_append_left (List.getElem?_eq_some_iff.mp hi).1]
  exact hi

/-- **A worker at its `BRPOP` takes the next job**, if one is waiting. -/
theorem pop_takes (hrun : Reaches cfg as s) (hs : Links s) {w : Nat} (hat : (s.workers w).AtPop)
    {a : Action} (ha : a.FaultFree) (hby : a.isBy w = true) (h : step cfg s a = some s')
    (hwaiting : (ledger s.log).waiting ≠ []) :
    (ledger s.log).fates.length + 1 ≤ (ledger s'.log).fates.length := by
  have hop := op?_of_atPop hat
  have hreaches : Reaches cfg (as ++ [a]) s' := run_concat_iff.mpr ⟨s, hrun, h⟩
  cases a with
  | perform who net =>
    obtain rfl : who = .worker w := by simpa [Action.isBy] using hby
    obtain rfl : net = .served := ha
    obtain ⟨op, hop', rfl⟩ := step_perform_iff.mp h
    obtain rfl : Wire.command (.brpop queueKey 5) = op := Option.some.inj (hop.symm.trans hop')
    rw [length_fates hrun, length_fates hreaches, perform_log, List.filterMap_append,
      List.length_append, hs.event hop]
    obtain ⟨j, js, hj⟩ := List.exists_cons_of_ne_nil hwaiting
    have hlive : s.store.live s.now queueKey = some (.list (js.reverse ++ [j])) := by
      rw [(accounts hrun).live s.now, hj]
      simp
    simp [exec, hlive, Event.pops?]
  | test w' m =>
    obtain rfl : w' = w := by simpa [Action.isBy] using hby
    obtain ⟨worker, htest, -⟩ := Option.map_eq_some_iff.mp h
    cases hw : s.workers w' with
    | busy m task begun => rw [hw] at htest; cases htest
    | _ => rw [hw] at hat; exact hat.elim
  | next w' =>
    obtain rfl : w' = w := by simpa [Action.isBy] using hby
    simp only [step] at h
    split at h
    · next hended =>
      cases hw : s.workers w' with
      | busy m task begun =>
        rw [hw] at hended
        rw [Sys.op?, hw, Worker.op?, Task.op?, rest_of_ended hended] at hop
        cases hop
      | _ => rw [hw] at hat; exact hat.elim
    · cases h
  | _ => cases hby

/-- The steps that are left to the next `BRPOP` at most, while the worker stays. -/
def Worker.toPop : Worker cfg → Nat
  | .busy m task begun => if task.trace.isEmpty then 0 else (Worker.busy m task begun).toGo
  | worker => worker.toGo

theorem Worker.toGo_le (worker : Worker cfg) : worker.toGo ≤ 7 := by
  cases worker with
  | busy m task begun =>
    rw [toGo_busy]
    split <;> omega
  | _ => simp [Worker.toGo]

theorem Worker.toPop_of_atPop {worker : Worker cfg} (h : worker.AtPop) : worker.toPop = 0 := by
  cases worker with
  | busy m task begun => exact if_pos (List.isEmpty_iff.mpr h)
  | _ => exact h.elim

theorem Worker.toPop_of_not_atPop {worker : Worker cfg} (h : ¬ worker.AtPop) :
    worker.toPop = worker.toGo := by
  cases worker with
  | busy m task begun => exact if_neg fun hnil => h (List.isEmpty_iff.mp hnil)
  | _ => rfl

theorem Worker.toPop_le (worker : Worker cfg) : worker.toPop ≤ worker.toGo := by
  by_cases h : worker.AtPop
  · rw [toPop_of_atPop h]
    exact Nat.zero_le _
  · rw [toPop_of_not_atPop h]

/-- **Between two pops** every move lowers the count. -/
theorem Moves.toPop {running : Bool} {x y : Worker cfg} (h : Moves running x y)
    (ht : Replied x.trace) : (x.AtPop ∧ y.toPop ≤ 6) ∨ (¬ x.AtPop ∧ y.toPop < x.toPop) := by
  have hy := y.toPop_le
  have hx := x.toGo_le
  by_cases hat : x.AtPop
  · refine .inl ⟨hat, ?_⟩
    rcases h.toGo_lt ht with hlt | ⟨-, rfl, -⟩
    · omega
    · exact hat.elim
  · refine .inr ⟨hat, ?_⟩
    rw [Worker.toPop_of_not_atPop hat]
    rcases h.toGo_lt ht with hlt | ⟨-, rfl, hat'⟩
    · omega
    · rw [Worker.toPop_of_atPop hat']
      exact Nat.one_pos

theorem Worker.toPop_le_six (worker : Worker cfg) : worker.toPop ≤ 6 := by
  cases worker with
  | busy m task begun =>
    by_cases hnil : task.trace = []
    · rw [@toPop_of_atPop _ (.busy m task begun) hnil]
      decide
    · have hlen := List.length_pos_iff.mpr hnil
      rw [@toPop_of_not_atPop _ (.busy m task begun) hnil, toGo_busy]
      split <;> omega
  | _ => simp [Worker.toPop, Worker.toGo]

/-- **The next jobs are taken**: within seven steps of any one worker for each of them. -/
theorem taken_of_steps (hrun : Reaches cfg as s) (h : Lib.run (step cfg) s bs = some s')
    (hfree : ∀ a ∈ as ++ bs, a.FaultFree) {w i n : Nat}
    (hi : i < (ledger s.log).pushed.length) (hn : i < (ledger s.log).fates.length + n)
    (hsteps : 7 * n ≤ stepsOf w bs) : i < (ledger s'.log).fates.length := by
  -- `k` is the number of pops so far, and each of them took a job while the line waited
  obtain ⟨k, hcount, htaken⟩ : ∃ k,
      stepsOf w bs + (s'.workers w).toPop ≤ (s.workers w).toPop + 7 * k ∧
        min (i + 1) ((ledger s.log).fates.length + k) ≤ (ledger s'.log).fates.length := by
    refine run_invariant_after (fun hist m => ∃ k,
      stepsOf w hist + (m.workers w).toPop ≤ (s.workers w).toPop + 7 * k ∧
        min (i + 1) ((ledger s.log).fates.length + k) ≤ (ledger m.log).fates.length)
      h hfree ⟨0, by simp [stepsOf], by omega⟩ ?_
    rintro hist m a m' hm hall ⟨k, hcount, htaken⟩ ha hstep
    have hreaches : Reaches cfg (as ++ hist) m := run_append_iff.mpr ⟨s, hrun, hm⟩
    have hserved : ∀ b ∈ as ++ hist, b.Served := fun b hb => (hall b hb).served
    have hmono := length_fates_mono hreaches (run_single hstep)
    rw [stepsOf_append, stepsOf_singleton]
    rcases moves_of_step (links hreaches hserved) ha hstep w with ⟨hby, hsame⟩ | ⟨hby, hmoves⟩
    · refine ⟨k, ?_, by omega⟩
      rw [hby, hsame, if_neg Bool.false_ne_true]
      omega
    · rw [if_pos hby]
      rcases hmoves.toPop (worker_replied hreaches hserved w) with ⟨hat, hle⟩ | ⟨hat, hlt⟩
      · rw [Worker.toPop_of_atPop hat] at hcount
        refine ⟨k + 1, by omega, ?_⟩
        by_cases hwaiting : (ledger m.log).waiting = []
        · have hdrained : (ledger m.log).pushed.length ≤ (ledger m.log).fates.length :=
            List.drop_eq_nil_iff.mp hwaiting
          have hlen := (pushed_later_of_run hm).length_le
          omega
        · have htakes := pop_takes hreaches (links hreaches hserved) hat ha hby hstep hwaiting
          omega
      · exact ⟨k, by omega, by omega⟩
  have hsix := (s.workers w).toPop_le_six
  omega

/-! ### A job that was taken is finished -/

/-- **What becomes of a job that was taken**: nothing, or its worker has finished with it. -/
theorem fate_step {a : Action} (hrun : Reaches cfg as s) (h : step cfg s a = some s')
    (hfree : ∀ b ∈ as ++ [a], b.FaultFree) {i : Nat} {f : Fate Nat} {payload : Bytes}
    (hf : (ledger s.log).fates[i]? = some f) (hi : (ledger s.log).pushed[i]? = some payload) :
    (ledger s'.log).fates[i]? = some f ∨
      ∃ w, f = .held w ∧ (ledger s'.log).fates[i]? = some (.done w) := by
  have hone : Lib.run (step cfg) s [a] = some s' := run_single h
  have hreaches : Reaches cfg (as ++ [a]) s' := run_append_iff.mpr ⟨s, hrun, hone⟩
  have hlen := (List.getElem?_eq_some_iff.mp hf).1
  have hi' := pushed_later hone hi
  obtain ⟨g, hg⟩ : ∃ g, (ledger s'.log).fates[i]? = some g :=
    ⟨_, List.getElem?_eq_getElem (hlen.trans_le (length_fates_mono hrun hone))⟩
  have appended : ∀ e, s'.log = s.log ++ [e] →
      (ledger s'.log).fates[i]? = some f ∨
        ∃ w, f = .held w ∧ (ledger s'.log).fates[i]? = some (.done w) := by
    intro e he
    have hg' := hg
    have hi'' := hi'
    rw [he, ledger_concat] at hg' hi''
    rcases fate_cases hg' hi'' with ⟨hsame, -⟩ | ⟨heq, -⟩ | ⟨w, hat, hend⟩
    · exact .inl (hg.trans (hsame.symm.trans hf))
    · omega
    · obtain rfl : f = .held w := Option.some.inj (hf.symm.trans hat.1)
      rcases hend with ⟨rfl, -⟩ | ⟨rfl, -⟩
      · exact .inr ⟨w, rfl, hg⟩
      · exact absurd hg (not_lost hreaches hfree hi')
  rcases step_cases h with ⟨who, net, op, rfl, hop, rfl⟩ | hquiet
  · exact appended _ perform_log
  · rcases hquiet.log with heq | ⟨e, heq, -⟩
    · rw [heq]
      exact .inl hf
    · exact appended e heq

/-- A worker with a job is busy with it, and has more than a step to go. -/
theorem two_le_toGo (hrun : Reaches cfg as s) {i w : Nat} {payload : Bytes}
    (hat : (ledger s.log).HoldsAt i w payload) (hserved : ∀ a ∈ as, a.Served) :
    ¬ (s.workers w).AtPop ∧ 2 ≤ (s.workers w).toGo := by
  have hpayload := ((accounts hrun).holds w payload).mpr ⟨i, hat⟩
  have hreplied := worker_replied hrun hserved w
  cases hw : s.workers w with
  | busy m task begun =>
    rw [hw] at hpayload hreplied
    refine ⟨fun hnil => ?_, ?_⟩
    · rw [Worker.payload?, show (Worker.busy m task begun).trace = [] from hnil] at hpayload
      cases hpayload
    · rw [Worker.toGo_busy]
      split
      · next hop =>
        obtain ⟨op, hop⟩ := Option.isSome_iff_exists.mp hop
        have hle := length_trace_le begun hreplied hop
        omega
      · exact Nat.le_refl 2
  | _ => rw [hw] at hpayload; cases hpayload

/-- **A job in hands is through** when its worker has made five more steps. -/
theorem done_of_steps (hrun : Reaches cfg as s) (h : Lib.run (step cfg) s bs = some s')
    (hfree : ∀ a ∈ as ++ bs, a.FaultFree) {w i : Nat} {payload : Bytes}
    (hi : (ledger s.log).pushed[i]? = some payload)
    (hline : (ledger s.log).fates[i]? = some (.done w) ∨
      ((ledger s.log).fates[i]? = some (.held w) ∧ 5 ≤ stepsOf w bs)) :
    (ledger s'.log).fates[i]? = some (.done w) := by
  have hinv : (ledger s'.log).fates[i]? = some (.done w) ∨
      ((ledger s.log).fates[i]? = some (.held w) ∧ (ledger s'.log).fates[i]? = some (.held w) ∧
        stepsOf w bs + (s'.workers w).toGo ≤ (s.workers w).toGo) := by
    refine run_invariant_after (fun hist m => (ledger m.log).fates[i]? = some (.done w) ∨
      ((ledger s.log).fates[i]? = some (.held w) ∧ (ledger m.log).fates[i]? = some (.held w) ∧
        stepsOf w hist + (m.workers w).toGo ≤ (s.workers w).toGo)) h hfree ?_ ?_
    · rcases hline with hdone | ⟨hheld, -⟩
      · exact .inl hdone
      · exact .inr ⟨hheld, hheld, by simp [stepsOf]⟩
    rintro hist m a m' hm hall hline ha hstep
    have hreaches : Reaches cfg (as ++ hist) m := run_append_iff.mpr ⟨s, hrun, hm⟩
    have hserved : ∀ b ∈ as ++ hist, b.Served := fun b hb => (hall b hb).served
    have hfree' : ∀ b ∈ as ++ hist ++ [a], b.FaultFree :=
      List.forall_mem_append.mpr ⟨hall, List.forall_mem_singleton.mpr ha⟩
    have hi' := pushed_later hm hi
    rcases hline with hdone | ⟨hfirst, hheld, hcount⟩
    · rcases fate_step hreaches hstep hfree' hdone hi' with hsame | ⟨w', heq, -⟩
      · exact .inl hsame
      · cases heq
    · rcases fate_step hreaches hstep hfree' hheld hi' with hsame | ⟨w', heq, hdone⟩
      · refine .inr ⟨hfirst, hsame, ?_⟩
        rw [stepsOf_append, stepsOf_singleton]
        rcases moves_of_step (links hreaches hserved) ha hstep w with ⟨hby, heq⟩ | ⟨hby, hmoves⟩
        · rw [hby, heq, if_neg Bool.false_ne_true]
          exact hcount
        · rw [if_pos hby]
          have htwo := (two_le_toGo hreaches ⟨hheld, hi'⟩ hserved).2
          rcases hmoves.toGo_lt (worker_replied hreaches hserved w) with hlt | ⟨-, hready, -⟩
          · omega
          · rw [hready] at htwo
            exact absurd htwo (by simp [Worker.toGo])
      · cases heq
        exact .inl hdone
  have hserved : ∀ a ∈ as, a.Served := fun a ha => (hfree a (List.mem_append_left bs ha)).served
  have hall : ∀ a ∈ as ++ bs, a.Served := fun a ha => (hfree a ha).served
  rcases hinv with hdone | ⟨hfirst, hheld, hcount⟩
  · exact hdone
  · have hnot := (two_le_toGo hrun ⟨hfirst, hi⟩ hserved).1
    have hsix := (s.workers w).toPop_le_six
    rw [Worker.toPop_of_not_atPop hnot] at hsix
    have htwo := (two_le_toGo (run_append_iff.mpr ⟨s, hrun, h⟩) ⟨hheld, pushed_later h hi⟩ hall).2
    rcases hline with hdone | ⟨-, hsteps⟩
    · rw [hfirst] at hdone
      cases hdone
    · omega

theorem line_of_queued (hrun : Reaches cfg as s) {behind ahead : List Bytes} {payload : Bytes}
    (hqueue : s.queued = behind ++ payload :: ahead) :
    (ledger s.log).pushed[(ledger s.log).fates.length + ahead.length]? = some payload := by
  have hwaiting : (ledger s.log).waiting = ahead.reverse ++ payload :: behind.reverse := by
    rw [← List.reverse_reverse (ledger s.log).waiting, ← queued_eq hrun, hqueue]
    simp
  rw [← List.getElem?_drop, ← Ledger.waiting, hwaiting, ← @List.length_reverse _ ahead,
    List.getElem?_append_right (Nat.le_refl _)]
  simp

end Take

/-- **A bound on the wait.**  In a run without faults, a job with `k` jobs ahead of it has been
taken when any one worker has made `7 * (k + 1)` steps, and when the worker that has it has
made five more, its result is stored. -/
theorem progress {as bs cs : List Action} {s s₁ s₂ : Sys cfg} (hrun : Reaches cfg as s)
    (h₁ : Lib.run (step cfg) s bs = some s₁) (h₂ : Lib.run (step cfg) s₁ cs = some s₂)
    (hfree : ∀ a ∈ as ++ bs ++ cs, a.FaultFree) (hids : DistinctIds s₂)
    {behind ahead : List Bytes} {payload : Bytes} (hqueue : s.queued = behind ++ payload :: ahead)
    {w : Nat} (hsteps : 7 * (ahead.length + 1) ≤ stepsOf w bs) :
    ∃ w', ((ledger s₁.log).Holds w' payload ∨ (ledger s₁.log).Done w' payload) ∧
      ((ledger s₁.log).Done w' payload ∨ 5 ≤ stepsOf w' cs →
        ∃ job m result b t, submissionJobFromJson cfg.format payload = .ok job ∧
          evaluation cfg m job = .ok result ∧ ResultOf job result ∧
          submissionResultFromJson cfg.format b = .ok result ∧
          s₂.store (resultKey job.submissionId) = some ⟨.str b, some t⟩) := by
  have hrun₁ : Reaches cfg (as ++ bs) s₁ := run_append_iff.mpr ⟨s, hrun, h₁⟩
  have hrun₂ : Reaches cfg (as ++ bs ++ cs) s₂ := run_append_iff.mpr ⟨s₁, hrun₁, h₂⟩
  have hfree₁ : ∀ a ∈ as ++ bs, a.FaultFree := fun a ha => hfree a (List.mem_append_left cs ha)
  have hi := line_of_queued hrun hqueue
  have hi₁ := pushed_later h₁ hi
  have hlt := taken_of_steps hrun h₁ hfree₁ (List.getElem?_eq_some_iff.mp hi).1
    (Nat.add_lt_add_left (Nat.lt_succ_self _) _) hsteps
  have finished : ∀ {w' i : Nat}, (ledger s₁.log).pushed[i]? = some payload →
      (ledger s₁.log).fates[i]? = some (.done w') ∨
        ((ledger s₁.log).fates[i]? = some (.held w') ∧ 5 ≤ stepsOf w' cs) →
      ∃ job m result b t, submissionJobFromJson cfg.format payload = .ok job ∧
        evaluation cfg m job = .ok result ∧ ResultOf job result ∧
        submissionResultFromJson cfg.format b = .ok result ∧
        s₂.store (resultKey job.submissionId) = some ⟨.str b, some t⟩ := by
    intro w' i hi' hline
    have hdone := done_of_steps hrun₁ h₂ hfree hi' hline
    obtain ⟨job, m, result, b, t, hjob, -, hrest⟩ :=
      result_of_done hrun₂ (fun a ha => (hfree a ha).served) hids ⟨_, hdone, pushed_later h₂ hi'⟩
    exact ⟨job, m, result, b, t, hjob, hrest⟩
  cases hf : (ledger s₁.log).fates[(ledger s.log).fates.length + ahead.length]? with
  | none =>
    rw [List.getElem?_eq_none_iff] at hf
    omega
  | some f =>
    cases f with
    | lost => exact absurd hf (not_lost hrun₁ hfree₁ hi₁)
    | done w' => exact ⟨w', .inr ⟨_, hf, hi₁⟩, fun _ => finished hi₁ (.inl hf)⟩
    | held w' =>
      refine ⟨w', .inl ⟨_, hf, hi₁⟩, ?_⟩
      rintro (⟨i, hdone, hi'⟩ | hfive)
      · exact finished hi' (.inl hdone)
      · exact finished hi₁ (.inr ⟨hf, hfive⟩)

/-- Ann's job is served by the only worker. -/
theorem progress_ann :
    ∃ (s₁ : Sys textConfig) (w' : Nat), (ledger s₁.log).Done w' zeroPayload ∧
      ∃ job m result b t, submissionJobFromJson jsonText zeroPayload = .ok job ∧
        evaluation textConfig m job = .ok result ∧ ResultOf job result ∧
        submissionResultFromJson jsonText b = .ok result ∧
        s₁.store (resultKey job.submissionId) = some ⟨.str b, some t⟩ := by
  obtain ⟨h₀, h₁, henv₀, henv₁, -, -, -, henqueued⟩ := ann_enqueues
  have hserved := worker_serves (s := enqueued h₀ h₁) (w := 0) (m := printing "1") rfl rfl
    (enqueued_queue h₀ h₁) zeroJob_payload evaluation_one oneResult_stored
  have hfree : ∀ a ∈ signUpActions ++ [.request 1 0 annSubmits zeroSurroundings] ++
      enqueueScript.map (fun x => .perform (.handler 1) x.2) ++
      workerActions 0 (printing "1") zeroJob oneResult oneStored ++ [], a.FaultFree := by
    intro a ha
    rw [List.append_nil] at ha
    rcases List.mem_append.mp ha with ha | ha
    · exact faultFree_enqueueing a ha
    · exact workerActions_faultFree _ _ _ _ _ a ha
  have hids : DistinctIds
      (workerServed textConfig (enqueued h₀ h₁) 0 zeroJob oneResult oneStored) :=
    distinctIds_ann henv₀ henv₁ rfl
  obtain ⟨w', hplace, hresult⟩ := progress henqueued hserved
    (run_nil _) hfree hids (show Sys.queued _ = [] ++ zeroPayload :: [] from rfl)
    (show 7 * ([].length + 1) ≤ stepsOf 0 _ by decide)
  have hdone : (ledger (workerServed textConfig (enqueued h₀ h₁) 0 zeroJob oneResult
      oneStored).log).Done w' zeroPayload := by
    rcases hplace with ⟨i, hf, -⟩ | hdone
    · change [Fate.done 0][i]? = some (Fate.held w') at hf
      cases i <;> simp at hf
    · exact hdone
  exact ⟨_, w', hdone, hresult (.inl hdone)⟩

end System

end Ocpe
