import Ocpe.Shared.Direct
import Ocpe.System.History

/-!
# A party alone

A part of a run in which one party moves alone is given by its script: the operations
and what becomes of each.  The store, the connection, the answers and the log are
computed from it.  `handler_alone` and `worker_alone`: when the program of the party
has the script on its path, the script is a run, and nothing else in the system
changes.  Runs of several parties are put together from such parts.
-/

namespace Ocpe.System

open Lib Redis

variable {cfg : Config} {s : Sys cfg}

abbrev Script := List (Wire × Net)

namespace Script

def ending (now : Nat) : Store → Ctx → Script → Store × Ctx
  | store, ctx, [] => (store, ctx)
  | store, ctx, (op, net) :: script =>
    let r := exchange now store ctx op net
    ending now r.1 r.2.1 script

def trace (now : Nat) : Store → Ctx → Script → List (Wire × Answer)
  | _, _, [] => []
  | store, ctx, (op, net) :: script =>
    let r := exchange now store ctx op net
    (op, r.2.2) :: trace now r.1 r.2.1 script

def log (who : Party) (now : Nat) : Store → Ctx → Script → List Event
  | _, _, [] => []
  | store, ctx, (op, net) :: script =>
    let r := exchange now store ctx op net
    .wire who now op (Sys.executed now store ctx op net) r.2.2 :: log who now r.1 r.2.1 script

def served (cmds : List Cmd) : Script := cmds.map fun c => (.command c, .served)

end Script

theorem ownTrace_scriptLog (who : Party) (script : Script) {now : Nat} {store : Store} {ctx : Ctx} :
    ownTrace who (script.log who now store ctx) = script.trace now store ctx := by
  induction script generalizing store ctx with
  | nil => rfl
  | cons x script ih =>
    rw [Script.log, ← List.singleton_append, ownTrace_append, ih]
    simp [ownTrace, Script.trace]

theorem path_cons {α : Type} {p q : Talk α} {op : Wire} {a : Answer} {t : List (Wire × Answer)}
    (h : p.Path ((op, a) :: t) q) : ∃ next, p = .op op next ∧ (next a).Path t q := by
  cases p with
  | pure b => cases h
  | throw e => cases h
  | op op' next =>
    obtain ⟨rfl, h⟩ := h
    exact ⟨next, rfl, h⟩

/-- **A handler alone.** -/
theorem handler_alone {r : Nat} {h : Handling cfg} {script : Script} {q : Talk Response}
    (hr : s.requests r = some h)
    (hpath : h.task.rest.Path (script.trace s.now s.store (s.ctx (.api h.api))) q) :
    ∃ h' : Handling cfg, h'.api = h.api ∧ h'.request = h.request ∧ h'.env = h.env ∧
      h'.task.rest = q ∧
      Lib.run (step cfg) s (script.map fun x => .perform (.handler r) x.2) =
        some { s with
          store := (script.ending s.now s.store (s.ctx (.api h.api))).1
          ctx := Function.update s.ctx (.api h.api)
            (script.ending s.now s.store (s.ctx (.api h.api))).2
          requests := Function.update s.requests r (some h')
          log := s.log ++ script.log (.handler r) s.now s.store (s.ctx (.api h.api)) } := by
  induction script generalizing s h with
  | nil => exact ⟨h, rfl, rfl, rfl, Prog.path_nil.mp hpath, by simp [Script.ending, Script.log, ← hr]⟩
  | cons x script ih =>
    obtain ⟨op, net⟩ := x
    obtain ⟨next, hrest, hpath⟩ := path_cons hpath
    have hop : s.op? (.handler r) = some op :=
      op?_handler_iff.mpr ⟨h, hr, Task.op?_eq_some.mpr ⟨next, hrest⟩⟩
    have hclient : s.client (.handler r) = .api h.api := by simp [Sys.client, hr]
    have hr₁ : (s.perform (.handler r) op net).requests r =
        some (h.feed (s.answer (.handler r) op net)) := by
      simp [perform_requests, Sys.feed, hr]
    have hrest₁ := (Task.feed_of_rest hrest (s.answer (.handler r) op net)).2
    obtain ⟨h', happi, hrequest, henv, hrest', hrun⟩ := ih hr₁ (by
      rw [Handling.feed, hrest₁, Sys.answer, hclient]
      simpa [Sys.perform, Sys.feed, hclient] using hpath)
    refine ⟨h', happi, hrequest, henv, hrest', ?_⟩
    refine run_cons_iff.mpr ⟨_, step_perform_iff.mpr ⟨op, hop, rfl⟩, ?_⟩
    rw [hrun]
    simp [Sys.perform, Sys.feed, hclient, Handling.feed, Script.ending, Script.log]

/-- **A handler that is served in one piece** does what its program does alone with
Redis. -/
theorem handler_direct {r : Nat} {h : Handling cfg} (hr : s.requests r = some h)
    (hctx : s.ctx (.api h.api) = .good) :
    ∃ n s' h', Lib.run (step cfg) s (List.replicate n (.perform (.handler r) .served)) = some s' ∧
      s'.store = (Talk.direct s.now s.store h.task.rest).1 ∧ s'.now = s.now ∧
      s'.ctx = s.ctx ∧ (∀ r', r' ≠ r → s'.requests r' = s.requests r') ∧
      s'.requests r = some h' ∧ h'.request = h.request ∧ h'.env = h.env ∧
      ((∃ response, (Talk.direct s.now s.store h.task.rest).2 = .ok response ∧
          h'.task.rest = .pure response) ∨
        ∃ e, (Talk.direct s.now s.store h.task.rest).2 = .error e ∧ h'.task.rest = .throw e) := by
  generalize hrest : h.task.rest = p
  induction p generalizing s h with
  | pure response =>
    exact ⟨0, s, h, rfl, rfl, rfl, rfl, fun _ _ => rfl, hr, rfl, rfl, .inl ⟨response, rfl, hrest⟩⟩
  | throw e => exact ⟨0, s, h, rfl, rfl, rfl, rfl, fun _ _ => rfl, hr, rfl, rfl, .inr ⟨e, rfl, hrest⟩⟩
  | op op next ih =>
    have hop : s.op? (.handler r) = some op :=
      op?_handler_iff.mpr ⟨h, hr, Task.op?_eq_some.mpr ⟨next, hrest⟩⟩
    have hclient : s.client (.handler r) = .api h.api := by simp [Sys.client, hr]
    have hr₁ : (s.perform (.handler r) op .served).requests r =
        some (h.feed (s.answer (.handler r) op .served)) := by
      simp [perform_requests, Sys.feed, hr]
    have hrest₁ := (Task.feed_of_rest hrest (s.answer (.handler r) op .served)).2
    have hexchange : (upServe s.now (s.store, .good) op).1.2 = .good := by
      cases op <;> rfl
    have hctx₁ : (s.perform (.handler r) op .served).ctx = s.ctx := by
      show Function.update s.ctx (s.client (.handler r))
        (exchange s.now s.store (s.ctx (s.client (.handler r))) op .served).2.1 = s.ctx
      rw [hclient, hctx]
      show Function.update s.ctx (.api h.api) (upServe s.now (s.store, .good) op).1.2 = s.ctx
      rw [hexchange, ← hctx, Function.update_eq_self]
    obtain ⟨n, s', h', hrun, hstore, hnow, hctx', hothers, hr', hrequest, henv, hend⟩ :=
      ih (s.answer (.handler r) op .served) hr₁ (by rw [hctx₁]; exact hctx) hrest₁
    have hone : Talk.direct s.now s.store (.op op next) =
        Talk.direct (s.perform (.handler r) op .served).now
          (s.perform (.handler r) op .served).store
          (next (s.answer (.handler r) op .served)) := by
      have hanswer : s.answer (.handler r) op .served = (upServe s.now (s.store, .good) op).2 := by
        rw [Sys.answer, hclient, hctx]
        rfl
      have hstore : (s.perform (.handler r) op .served).store =
          (upServe s.now (s.store, .good) op).1.1 := by
        show (exchange s.now s.store (s.ctx (s.client (.handler r))) op .served).1 = _
        rw [hclient, hctx]
        rfl
      rw [hanswer, hstore, perform_now]
      cases op <;> rfl
    rw [hone]
    refine ⟨n + 1, s', h', ?_, hstore, hnow.trans perform_now, hctx'.trans hctx₁,
      fun r' hne => (hothers r' hne).trans ?_, hr', hrequest, henv, hend⟩
    · exact run_cons_iff.mpr ⟨_, step_perform_iff.mpr ⟨op, hop, rfl⟩, hrun⟩
    · rw [perform_requests]
      exact Function.update_of_ne hne ..

/-- **A worker alone in its iteration.** -/
theorem worker_alone {w : Nat} {m : Machine} {task : Task Wire Answer Exn Unit}
    {begun : task.start = WorkerPool.iteration cfg m} {script : Script} {q : Talk Unit}
    (hw : s.workers w = .busy m task begun)
    (hpath : task.rest.Path (script.trace s.now s.store (s.ctx (.worker w))) q) :
    ∃ (task' : Task Wire Answer Exn Unit) (begun' : task'.start = WorkerPool.iteration cfg m),
      task'.rest = q ∧
      Lib.run (step cfg) s (script.map fun x => .perform (.worker w) x.2) =
        some { s with
          store := (script.ending s.now s.store (s.ctx (.worker w))).1
          ctx := Function.update s.ctx (.worker w)
            (script.ending s.now s.store (s.ctx (.worker w))).2
          workers := Function.update s.workers w (.busy m task' begun')
          log := s.log ++ script.log (.worker w) s.now s.store (s.ctx (.worker w)) } := by
  induction script generalizing s task with
  | nil => exact ⟨task, begun, Prog.path_nil.mp hpath, by simp [Script.ending, Script.log, ← hw]⟩
  | cons x script ih =>
    obtain ⟨op, net⟩ := x
    obtain ⟨next, hrest, hpath⟩ := path_cons hpath
    have hop : s.op? (.worker w) = some op := by
      rw [Sys.op?, hw]
      exact Task.op?_eq_some.mpr ⟨next, hrest⟩
    have hw₁ : (s.perform (.worker w) op net).workers w =
        .busy m (task.feed (s.answer (.worker w) op net)) ((Task.feed_start _).trans begun) := by
      simp [perform_workers, Sys.feed, hw, Worker.feed]
    have hrest₁ := (Task.feed_of_rest hrest (s.answer (.worker w) op net)).2
    obtain ⟨task', begun', hrest', hrun⟩ := ih hw₁ (by
      rw [hrest₁, Sys.answer, Sys.client]
      simpa [Sys.perform, Sys.feed, Sys.client] using hpath)
    refine ⟨task', begun', hrest', ?_⟩
    refine run_cons_iff.mpr ⟨_, step_perform_iff.mpr ⟨op, hop, rfl⟩, ?_⟩
    rw [hrun]
    simp [Sys.perform, Sys.feed, Sys.client, Script.ending, Script.log]

theorem iteration_begun (cfg : Config) (m : Machine) :
    (Task.begin (WorkerPool.iteration cfg m)).start = WorkerPool.iteration cfg m := rfl

def workerStarted (s : Sys cfg) (w : Nat) (m : Machine) : Sys cfg :=
  { s with
    ctx := Function.update s.ctx (.worker w) .good
    workers :=
      Function.update s.workers w
        (.busy m (.begin (WorkerPool.iteration cfg m)) (iteration_begun cfg m))
    log := s.log ++ [.wire (.worker w) s.now .connect none (.connected true)] }

/-- **A worker starts**: it connects and begins an iteration. -/
theorem worker_starts {w : Nat} (m : Machine) (hw : s.workers w = .connecting)
    (hrunning : s.running = true) :
    Lib.run (step cfg) s [.perform (.worker w) .served, .test w m] =
      some (workerStarted s w m) := by
  have hop : s.op? (.worker w) = some .connect := by rw [Sys.op?, hw]; rfl
  refine run_cons_iff.mpr ⟨_, step_perform_iff.mpr ⟨.connect, hop, rfl⟩, ?_⟩
  refine run_cons_iff.mpr ⟨_, ?_, rfl⟩
  cases hctx : s.ctx (.worker w) <;>
    simp [step, Sys.perform, Sys.feed, Sys.client, exchange, Sys.executed, hw, hrunning, hctx,
      Worker.feed, Worker.test, workerStarted]

theorem worker_next {w : Nat} {m : Machine} {task : Task Wire Answer Exn Unit}
    {begun : task.start = WorkerPool.iteration cfg m} (hw : s.workers w = .busy m task begun)
    (hrest : task.rest = .pure ()) :
    step cfg s (.next w) =
      some { s with
        workers := Function.update s.workers w .ready
        log := s.log ++ [.finished w] } := by
  have hended : (s.workers w).ended = some (.ok ()) := by rw [hw, Worker.ended, hrest]
  simp [step, hended]

end Ocpe.System
