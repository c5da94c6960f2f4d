import Mathlib.Algebra.Order.BigOperators.Group.Finset
import Ocpe.System.WorkerProcess

/-!
# How the worker process ends

* `running_iff`: from `start` on, `running_` is clear exactly if a signal has arrived since.
* `worker_process`: `main` returns only then, after every thread; a signal that comes before
  `start` is forgotten.
* `toGo_step`: once `running_` is clear, every step of the process lowers a count.
* `process_stops`: so the process ends after a bounded number of steps, with every job waiting or
  done, unless an exception or an evaluation that never returns holds one of its threads.
-/

namespace Ocpe.System

open Lib Redis RedisClient WorkerPool

namespace WorkerProcess

variable {cfg : Config} {p p' : WorkerProcess cfg} {as bs : List Action} {a : Action}

/-! ### Who stops the pool -/

/-- A signal has arrived after `running_ = true`. -/
def StopRequested (cfg : Config) (as : List Action) : Prop :=
  ∃ (before : List Action) (signal : Signal) (after : List Action) (q : WorkerProcess cfg),
    as = before ++ .signal signal :: after ∧ Reaches cfg before q ∧ q.main.begun = true

theorem StopRequested.append (h : StopRequested cfg as) (bs : List Action) :
    StopRequested cfg (as ++ bs) := by
  obtain ⟨before, signal, after, q, rfl, hq, hbegun⟩ := h
  exact ⟨before, signal, after ++ bs, q, by simp, hq, hbegun⟩

theorem stopRequested_concat (hrun : Reaches cfg as p) :
    StopRequested cfg (as ++ [a]) ↔
      StopRequested cfg as ∨ (∃ signal, a = .signal signal) ∧ p.main.begun = true := by
  constructor
  · rintro ⟨before, signal, after, q, heq, hq, hbegun⟩
    rcases List.eq_nil_or_concat after with rfl | ⟨after, b, rfl⟩
    · obtain ⟨rfl, hlast⟩ := List.append_inj' heq rfl
      cases hrun.symm.trans hq
      exact .inr ⟨⟨signal, (List.cons.inj hlast).1⟩, hbegun⟩
    · have heq' : as ++ [a] = before ++ .signal signal :: after ++ [b] := by simpa using heq
      exact .inl ⟨before, signal, after, q, (List.append_inj' heq' rfl).1, hq, hbegun⟩
  · rintro (h | ⟨⟨signal, rfl⟩, hbegun⟩)
    · exact h.append [a]
    · exact ⟨as, signal, [], p, rfl, hrun, hbegun⟩

theorem waiting_of_step (h : p.step a = some p') (hwaiting : p'.main.waiting = true) :
    p.main.waiting = true := by
  cases a with
  | main =>
    cases advances_of_step h with
    | interruptible hmain => rw [hmain]; rfl
    | stoppable hmain => rw [hmain]; rfl
    | spawn hmain hlt => exact hwaiting
    | _ => cases hwaiting
  | signal signal =>
    obtain ⟨-, ⟨-, rfl⟩ | ⟨-, rfl⟩⟩ := step_signal_iff.mp h
    · exact hwaiting
    · cases hwaiting
  | kill =>
    obtain ⟨-, rfl⟩ := step_kill_iff.mp h
    cases hwaiting
  | services a =>
    obtain ⟨-, s, -, rfl⟩ := step_services_iff.mp h
    rcases p.after_main a s with hended | ⟨hsame, -⟩
    · rw [hended] at hwaiting
      cases hwaiting
    · exact hsame ▸ hwaiting

theorem not_begun_of_waiting {main : MainThread} (h : main.waiting = true) :
    main.begun = false := by
  cases main with
  | configured => rfl
  | interruptible => rfl
  | stoppable => rfl
  | _ => cases h

theorem running_of_begun (h : p.step a = some p') (hbegun : p'.main.begun = true) :
    (p.main.waiting = true ∧ p'.sys.running = true ∧ a = .main) ∨
      (p.main.begun = true ∧ (∃ signal, a = .signal signal) ∧ p'.sys.running = false) ∨
      (p.main.begun = true ∧ (∀ signal, a ≠ .signal signal) ∧
        p'.sys.running = p.sys.running) := by
  cases a with
  | main =>
    cases advances_of_step h with
    | interruptible hmain => cases hbegun
    | stoppable hmain => cases hbegun
    | start hmain => exact .inl ⟨by rw [hmain]; rfl, rfl, rfl⟩
    | refused hmain hcount => cases hbegun
    | reserved hmain hcount => exact .inr (.inr ⟨by rw [hmain]; rfl, nofun, rfl⟩)
    | spawn hmain hlt => exact .inr (.inr ⟨hbegun, nofun, rfl⟩)
    | spawned hmain hle => exact .inr (.inr ⟨by rw [hmain]; rfl, nofun, rfl⟩)
    | join i hmain hlt hleft => exact .inr (.inr ⟨by rw [hmain]; rfl, nofun, rfl⟩)
    | joined i hmain hle => exact .inr (.inr ⟨by rw [hmain]; rfl, nofun, rfl⟩)
  | signal signal =>
    obtain ⟨-, ⟨-, rfl⟩ | ⟨-, rfl⟩⟩ := step_signal_iff.mp h
    · exact .inr (.inl ⟨hbegun, ⟨signal, rfl⟩, rfl⟩)
    · cases hbegun
  | kill =>
    obtain ⟨-, rfl⟩ := step_kill_iff.mp h
    cases hbegun
  | services a =>
    obtain ⟨hadmits, s, hstep, rfl⟩ := step_services_iff.mp h
    rcases p.after_main a s with hended | ⟨hsame, -⟩
    · rw [hended] at hbegun
      cases hbegun
    · refine .inr (.inr ⟨hsame ▸ hbegun, nofun, ?_⟩)
      rw [after_sys]
      exact running_of_step hstep (ne_stop_of_services (admits_iff.mp hadmits).1)

/-- **From `start` on, `running_` is clear exactly if a signal has arrived since.** -/
theorem running_iff (hrun : Reaches cfg as p) :
    (p.main.waiting = true → ¬ StopRequested cfg as) ∧
      (p.main.begun = true → (p.sys.running = false ↔ StopRequested cfg as)) := by
  refine @run_invariant_hist _ _ _ (fun _ => True) (fun hist m =>
    (m.main.waiting = true → ¬ StopRequested cfg hist) ∧
      (m.main.begun = true → (m.sys.running = false ↔ StopRequested cfg hist)))
    _ _ _ hrun (fun _ _ => trivial) ⟨?_, nofun⟩ ?_
  · rintro - ⟨before, signal, after, q, heq, -⟩
    cases before <;> cases heq
  rintro hist m a m' hm ⟨hnone, hsome⟩ - h
  rw [stopRequested_concat hm]
  constructor
  · rintro hwaiting (hstop | ⟨-, hbegun⟩)
    · exact hnone (waiting_of_step h hwaiting) hstop
    · rw [not_begun_of_waiting (waiting_of_step h hwaiting)] at hbegun
      cases hbegun
  · intro hbegun
    rcases running_of_begun h hbegun with ⟨hwaiting, hset, rfl⟩ | ⟨hbefore, hsignal, hclear⟩ |
      ⟨hbefore, hnot, hkept⟩
    · simp [hset, hnone hwaiting]
    · simp [hclear, hsignal, hbefore]
    · rw [hkept, hsome hbefore]
      simp [hnot]

theorem not_waiting_of_stopRequested (hrun : Reaches cfg as p) (hstop : StopRequested cfg as) :
    p.main.waiting = false := by
  cases hwaiting : p.main.waiting with
  | false => rfl
  | true => exact absurd hstop ((running_iff hrun).1 hwaiting)

/-- **The worker process.**  The services see the pool of the system.  From `start` on, `running_`
is clear exactly if a signal has arrived since, and a signal that comes before changes nothing.
`main` returns only when every thread has returned, which takes such a signal unless there is
none. -/
theorem worker_process (hrun : Reaches cfg as p) :
    (∃ bs, System.Reaches cfg bs p.view) ∧
    (p.main.begun = true → (p.sys.running = false ↔ StopRequested cfg as)) ∧
    (∀ signal q, p.main.waiting = true → p.main.handles signal = true →
      p.step (.signal signal) = some q → q = p) ∧
    (p.main = .returned → (p.threads : Int) = cfg.workerCount.toInt ∧
      (∀ w < p.threads, p.sys.workers w = .left) ∧ (p.threads = 0 ∨ StopRequested cfg as)) := by
  obtain ⟨bs, hreaches, -⟩ := view_reaches hrun
  have hsound := sound hrun
  have hrunning := (running_iff hrun).2
  refine ⟨⟨bs, hreaches⟩, hrunning, ?_, ?_⟩
  · intro signal q hwaiting hhandles h
    obtain ⟨-, ⟨-, rfl⟩ | ⟨hnot, -⟩⟩ := step_signal_iff.mp h
    · rw [← (hsound.waiting hwaiting).2]
    · rw [hhandles] at hnot
      cases hnot
  · intro hreturned
    have hbegun : p.main.begun = true := by rw [hreturned]; rfl
    have hshape := hsound.shape
    rw [hreturned] at hshape
    obtain ⟨hcount, hall⟩ := hshape
    refine ⟨hcount, hall, ?_⟩
    rcases Nat.eq_zero_or_pos p.threads with hzero | hpos
    · exact .inl hzero
    · exact .inr ((hrunning hbegun).mp (hsound.stopped hbegun 0 (hall 0 hpos)))

def oneThread : Config := { textConfig with workerCount := 1 }

/-- A pool of one thread is started and stopped; the `SIGINT` comes too early to count. -/
def startStop : List Action :=
  [.main, .signal .sigint, .main, .main, .main, .main, .services (.perform (.worker 0) .served),
    .signal .sigterm]

def wayOut : List Action := [.services (.test 0 (printing "1")), .main, .main, .main]

theorem startStop_reaches : ∃ p, Reaches oneThread startStop p ∧
    ∃ p', Lib.run step p wayOut = some p' ∧ p'.main = .returned ∧
      p'.sys.requests = fun _ => none :=
  ⟨_, rfl, _, rfl, rfl, rfl⟩

theorem stopRequested_startStop : StopRequested oneThread startStop :=
  ⟨[.main, .signal .sigint, .main, .main, .main, .main, .services (.perform (.worker 0) .served)],
    .sigterm, [], _, rfl, rfl, rfl⟩

theorem worker_process_one : ∃ p, Reaches oneThread (startStop ++ wayOut) p ∧
    p.main = .returned ∧ p.threads = 1 ∧ p.sys.workers 0 = .left ∧
    StopRequested oneThread (startStop ++ wayOut) := by
  obtain ⟨p, hp, p', hp', hreturned, -⟩ := startStop_reaches
  have hrun : Reaches oneThread (startStop ++ wayOut) p' := run_append_iff.mpr ⟨p, hp, hp'⟩
  obtain ⟨-, -, -, hmain⟩ := worker_process hrun
  obtain ⟨hcount, hall, hstop⟩ := hmain hreturned
  have hthreads : p'.threads = 1 := Int.ofNat_inj.mp hcount
  refine ⟨p', hrun, hreturned, hthreads, hall 0 (by omega), ?_⟩
  rcases hstop with hzero | hstop
  · omega
  · exact hstop

/-! ### How the process comes to its end -/

/-- A step of the main thread or of a thread of the pool. -/
def Action.own : Action → Bool
  | .main => true
  | .services a => a.thread?.isSome
  | _ => false

/-- The thread of the pool that it is a step of. -/
def Action.thread? : Action → Option Nat
  | .services a => a.thread?
  | _ => none

/-- A step of a process in which an evaluation may never return. -/
abbrev stallStep (cfg : Config) : Stalling (WorkerProcess cfg) Nat →
    Stalling.Action Action Nat → Option (Stalling (WorkerProcess cfg) Nat) :=
  Stalling.step step Action.thread? fun p w => (p.sys.workers w).evaluating

/-- The steps that are left to the main thread, with `count` threads to start in all. -/
def mainToGo (count threads : Nat) : MainThread → Nat
  | .configured => 2 * count + 6
  | .interruptible => 2 * count + 5
  | .stoppable => 2 * count + 4
  | .started => 2 * count + 3
  | .spawning => 2 * count + 2 - threads
  | .joining i => count + 1 - i
  | .returned => 0
  | .ended => 0

abbrev count (cfg : Config) : Nat := cfg.workerCount.toInt.toNat

/-- The steps that are left to the process at most, once `running_` is clear. -/
def toGo (p : WorkerProcess cfg) : Nat :=
  mainToGo (count cfg) p.threads p.main +
    ∑ w ∈ Finset.range (count cfg), (p.sys.workers w).toGo

theorem toGo_le (h : p.main.waiting = false) : p.toGo ≤ 9 * count cfg + 3 := by
  have hmain : mainToGo (count cfg) p.threads p.main ≤ 2 * count cfg + 3 := by
    cases hmain : p.main with
    | configured => rw [hmain] at h; cases h
    | interruptible => rw [hmain] at h; cases h
    | stoppable => rw [hmain] at h; cases h
    | _ => simp only [mainToGo]; omega
  have hthreads : ∑ w ∈ Finset.range (count cfg), (p.sys.workers w).toGo ≤ 7 * count cfg := by
    have hsum := Finset.sum_le_card_nsmul (Finset.range (count cfg))
      (fun w => (p.sys.workers w).toGo) 7 fun w _ => (p.sys.workers w).toGo_le
    rw [Finset.card_range, nsmul_eq_mul] at hsum
    simpa [Nat.mul_comm] using hsum
  rw [toGo]
  omega

theorem Sound.threads_le (hp : p.Sound) (h : p.main.live = true) : p.threads ≤ count cfg := by
  have hcount : count cfg = cfg.workerCount.toInt.toNat := rfl
  have hshape := hp.shape
  cases hmain : p.main with
  | started =>
    rw [hmain] at hshape
    have hzero : p.threads = 0 := hshape
    omega
  | spawning =>
    rw [hmain] at hshape
    have hle : (p.threads : Int) ≤ cfg.workerCount.toInt := hshape
    omega
  | joining i =>
    rw [hmain] at hshape
    have heq := hshape.1
    omega
  | returned => rw [hmain] at h; cases h
  | ended => rw [hmain] at h; cases h
  | _ =>
    rw [hmain] at hshape
    have hzero := hshape.1
    omega

theorem toGo_advance (hp : p.Sound) (hwaiting : p.main.waiting = false) (h : Advances p p') :
    p'.toGo + 1 ≤ p.toGo := by
  have hn : count cfg = cfg.workerCount.toInt.toNat := rfl
  have hshape := hp.shape
  cases h with
  | interruptible hmain => rw [hmain] at hwaiting; cases hwaiting
  | stoppable hmain => rw [hmain] at hwaiting; cases hwaiting
  | start hmain => rw [hmain] at hwaiting; cases hwaiting
  | refused hmain hcount =>
    have hzero : count cfg = 0 := Int.toNat_eq_zero.mpr (Int.le_of_lt hcount)
    simp [toGo, killed, mainToGo, hmain, hzero]
  | reserved hmain hcount =>
    rw [hmain] at hshape
    have hzero : p.threads = 0 := hshape
    simp only [toGo, mainToGo, hmain]
    omega
  | spawn hmain hlt =>
    simp only [toGo, mainToGo, hmain]
    omega
  | spawned hmain hle =>
    rw [hmain] at hshape
    have hcount : (p.threads : Int) ≤ cfg.workerCount.toInt := hshape
    simp only [toGo, mainToGo, hmain]
    omega
  | join i hmain hlt hleft =>
    have hthreads := hp.threads_le (by rw [hmain]; rfl)
    simp only [toGo, mainToGo, hmain]
    omega
  | joined i hmain hle =>
    rw [hmain] at hshape
    obtain ⟨hcount, hi, -⟩ := hshape
    simp only [toGo, mainToGo, hmain]
    omega

theorem sum_toGo_of_step {s s' : Sys cfg} (hlinks : Links s)
    (hreplied : ∀ w, Replied (s.workers w).trace) (hclear : s.running = false) {a : System.Action}
    (hfree : a.FaultFree) (h : System.step cfg s a = some s') {n : Nat}
    (hn : ∀ w, a.thread? = some w → w < n) :
    ∑ w ∈ Finset.range n, (s'.workers w).toGo + (if a.thread?.isSome then 1 else 0) ≤
      ∑ w ∈ Finset.range n, (s.workers w).toGo := by
  have hmoves := moves_of_step hlinks hfree h
  have hlt : ∀ w, a.thread? = some w → (s'.workers w).toGo < (s.workers w).toGo := by
    intro w hw
    have hby := (isBy_iff hfree w).mpr hw
    rcases hmoves w with ⟨hnot, -⟩ | ⟨-, hmove⟩
    · rw [hby] at hnot
      cases hnot
    · rcases hmove.toGo_lt (hreplied w) with hlt | ⟨hrunning, -⟩
      · exact hlt
      · rw [hclear] at hrunning
        cases hrunning
  have hle : ∀ w, (s'.workers w).toGo ≤ (s.workers w).toGo := by
    intro w
    rcases hmoves w with ⟨-, hsame⟩ | ⟨hby, -⟩
    · rw [hsame]
    · exact Nat.le_of_lt (hlt w ((isBy_iff hfree w).mp hby))
  cases hthread : a.thread? with
  | none =>
    rw [if_neg nofun, Nat.add_zero]
    exact Finset.sum_le_sum fun w _ => hle w
  | some w =>
    have hsum := Finset.sum_lt_sum (fun w _ => hle w)
      ⟨w, Finset.mem_range.mpr (hn w hthread), hlt w hthread⟩
    exact hsum

/-- **Every step of the process itself lowers the count**, and no other step raises it. -/
theorem toGo_step (hp : p.Sound) (hlinks : Links p.sys)
    (hreplied : ∀ w, Replied (p.sys.workers w).trace) (hwaiting : p.main.waiting = false)
    (hclear : p.main.live = true → p.sys.running = false) (hfree : a.FaultFree)
    (h : p.step a = some p') : p'.toGo + (if a.own then 1 else 0) ≤ p.toGo := by
  cases a with
  | main => exact toGo_advance hp hwaiting (advances_of_step h)
  | signal signal =>
    obtain ⟨-, ⟨-, rfl⟩ | ⟨hhandles, -⟩⟩ := step_signal_iff.mp h
    · exact Nat.le_refl _
    · rw [waiting_of_not_handles hhandles] at hwaiting
      cases hwaiting
  | kill => exact hfree.elim
  | services a =>
    obtain ⟨hadmits, s, hstep, rfl⟩ := step_services_iff.mp h
    obtain ⟨hservices, hthread⟩ := admits_iff.mp hadmits
    have hafter : p.after a s = { p with sys := s } := by
      unfold after
      split
      · exact hfree.elim
      · rfl
    rw [hafter]
    have hsum : ∑ w ∈ Finset.range (count cfg), (s.workers w).toGo +
        (if a.thread?.isSome then 1 else 0) ≤
          ∑ w ∈ Finset.range (count cfg), (p.sys.workers w).toGo := by
      cases hlive : p.main.live with
      | true =>
        refine sum_toGo_of_step hlinks hreplied (hclear hlive) hfree hstep fun w hw => ?_
        have hle := hp.threads_le hlive
        have hlt := (hthread w hw).2
        omega
      | false =>
        -- nothing is left of the process, so the step is the API's
        have hnone : ∀ w, a.thread? ≠ some w := by
          intro w hw
          have hnot := (hthread w hw).1
          rw [hlive] at hnot
          cases hnot
        have hsame : ∀ w, s.workers w = p.sys.workers w := by
          intro w
          rcases moves_of_step hlinks hfree hstep w with ⟨-, hsame⟩ | ⟨hby, -⟩
          · exact hsame
          · exact absurd ((isBy_iff hfree w).mp hby) (hnone w)
        simp [Option.eq_none_iff_forall_ne_some.mpr hnone, hsame]
    have hown : Action.own (.services a) = a.thread?.isSome := rfl
    rw [hown]
    simp only [toGo]
    omega

theorem waits_in_join (hlive : p.main.live = true) (h : p.advance = none) :
    ∃ i, p.main = .joining i ∧ i < p.threads ∧ p.sys.workers i ≠ .left := by
  unfold advance at h
  split at h
  · cases h
  · cases h
  · cases h
  · split at h
    · cases h
    · cases h
  · split at h
    · cases h
    · cases h
  · next i hmain =>
    split at h
    · next hlt =>
      split at h
      · cases h
      · next hnot => exact ⟨i, hmain, hlt, hnot⟩
    · cases h
  · next hmain =>
    rw [hmain] at hlive
    cases hlive
  · next hmain =>
    rw [hmain] at hlive
    cases hlive

/-- The main thread can go on, or a thread that it waits for and that has not stopped for good,
unless an exception holds that. -/
theorem step_of_live (hrun : Reaches cfg as p) (hfree : ∀ a ∈ as, a.FaultFree)
    (hlive : p.main.live = true) (stalled : Nat → Bool) :
    (∃ w e, (p.sys.workers w).ended = some (.error e)) ∨ (∃ w, stalled w = true) ∨
      ∃ a q, a.own = true ∧ a.FaultFree ∧ (∀ w, a.thread? = some w → stalled w = false) ∧
        p.step a = some q := by
  cases hadvance : p.advance with
  | some q =>
    exact .inr (.inr ⟨.main, q, rfl, trivial, fun w hw => absurd hw.symm (Option.some_ne_none w),
      hadvance⟩)
  | none =>
  obtain ⟨i, hplace, hlt, hnot⟩ := waits_in_join hlive hadvance
  cases hi : stalled i with
  | true => exact .inr (.inl ⟨i, hi⟩)
  | false =>
  obtain ⟨bs, hreaches, hbs⟩ := view_reaches hrun
  have hview : p.view = p.sys := view_of_not_waiting (by rw [hplace]; rfl)
  rw [hview] at hreaches
  rcases step_of_not_left hreaches (hbs hfree) i (printing "1") with
    hleft | ⟨e, he⟩ | ⟨a, s, hby, ha, hstep⟩
  · exact absurd hleft hnot
  · exact .inl ⟨i, e, he⟩
  · have hthread := (isBy_iff ha i).mp hby
    have hservices : a.ofServices = true := by
      cases a with
      | stop => cases hthread
      | crash w => cases hthread
      | _ => rfl
    have hadmits : p.admits a = true := by
      refine admits_iff.mpr ⟨hservices, fun w hw => ?_⟩
      cases hthread.symm.trans hw
      exact ⟨hlive, hlt⟩
    refine .inr (.inr ⟨.services a, p.after a s, by rw [Action.own, hthread]; rfl, ha,
      fun w hw => ?_, step_services_iff.mpr ⟨hadmits, s, hstep, rfl⟩⟩)
    cases hthread.symm.trans hw
    exact hi

/-- Without faults only a negative count ends a process that was asked to stop. -/
theorem count_of_ended (hrun : Reaches cfg as p) (hfree : ∀ a ∈ as, a.FaultFree)
    (hstop : StopRequested cfg as) (hended : p.main = .ended) : cfg.workerCount.toInt < 0 := by
  have hinv : p.main = .ended → StopRequested cfg as → cfg.workerCount.toInt < 0 := by
    refine run_invariant_hist (fun hist (m : WorkerProcess cfg) => m.main = .ended →
      StopRequested cfg hist → cfg.workerCount.toInt < 0) hrun hfree nofun ?_
    intro hist m a m' hm ih ha h hended hstop
    rw [stopRequested_concat hm] at hstop
    cases a with
    | main =>
      have hbefore : StopRequested cfg hist := by
        rcases hstop with hstop | ⟨⟨signal, hsignal⟩, -⟩
        · exact hstop
        · cases hsignal
      cases advances_of_step h with
      | refused hmain hcount => exact hcount
      | spawn hmain hlt => exact ih hended hbefore
      | _ => cases hended
    | signal signal =>
      obtain ⟨hlive, ⟨-, rfl⟩ | ⟨hhandles, rfl⟩⟩ := step_signal_iff.mp h
      · rw [hended] at hlive
        cases hlive
      · have hwaiting := waiting_of_not_handles hhandles
        rcases hstop with hstop | ⟨-, hbegun⟩
        · exact absurd hstop ((running_iff hm).1 hwaiting)
        · rw [not_begun_of_waiting hwaiting] at hbegun
          cases hbegun
    | kill => exact ha.elim
    | services a =>
      obtain ⟨-, s, -, rfl⟩ := step_services_iff.mp h
      have hbefore : StopRequested cfg hist := by
        rcases hstop with hstop | ⟨⟨signal, hsignal⟩, -⟩
        · exact hstop
        · cases hsignal
      refine ih ?_ hbefore
      unfold after at hended
      split at hended
      · exact ha.elim
      · exact hended
  exact hinv hended hstop

theorem own_of_stopped (hrun : Reaches cfg as p) (hstop : StopRequested cfg as)
    (h : Lib.run step p bs = some p') (hfree : ∀ a ∈ as ++ bs, a.FaultFree) :
    bs.countP Action.own + p'.toGo ≤ p.toGo := by
  refine run_invariant_after (fun hist m => hist.countP Action.own + m.toGo ≤ p.toGo) h hfree
    (by simp) ?_
  rintro hist m a m' hm hall hcount ha hstep
  have hreaches : Reaches cfg (as ++ hist) m := run_append_iff.mpr ⟨p, hrun, hm⟩
  have hstopped := hstop.append hist
  have hwaiting := not_waiting_of_stopRequested hreaches hstopped
  have hclear : m.main.live = true → m.sys.running = false := by
    intro hlive
    refine ((running_iff hreaches).2 ?_).mpr hstopped
    cases hmain : m.main with
    | returned => rfl
    | ended => rw [hmain] at hlive; cases hlive
    | configured => rw [hmain] at hwaiting; cases hwaiting
    | interruptible => rw [hmain] at hwaiting; cases hwaiting
    | stoppable => rw [hmain] at hwaiting; cases hwaiting
    | _ => rfl
  obtain ⟨cs, hseen, hcs⟩ := view_reaches hreaches
  rw [view_of_not_waiting hwaiting] at hseen
  have hserved : ∀ c ∈ cs, c.Served := fun c hc => (hcs hall c hc).served
  have hlower := toGo_step (sound hreaches) (links hseen hserved)
    (fun w => worker_replied hseen hserved w) hwaiting hclear ha hstep
  rw [List.countP_append, List.countP_singleton]
  omega

/-- A thread in its evaluation is changed by its own steps, when nothing ends the process. -/
theorem evaluating_of_step (hp : p.Sound) (hfree : a.FaultFree) (h : p.step a = some p') {w : Nat}
    (hthread : a.thread? ≠ some w) (hw : (p.sys.workers w).evaluating = true) :
    (p'.sys.workers w).evaluating = true := by
  -- a process without threads has nobody in an evaluation
  have hnone : p.threads = 0 → p.main ≠ .ended → False := by
    intro hzero hlive
    rw [hp.unborn hlive w (by omega)] at hw
    cases hw
  cases a with
  | main =>
    cases advances_of_step h with
    | refused hmain hcount =>
      have hshape := hp.shape
      rw [hmain] at hshape
      exact (hnone hshape (by rw [hmain]; simp)).elim
    | _ => exact hw
  | signal signal =>
    obtain ⟨hlive, ⟨-, rfl⟩ | ⟨hhandles, rfl⟩⟩ := step_signal_iff.mp h
    · exact hw
    · have hzero := (hp.waiting (waiting_of_not_handles hhandles)).1
      refine (hnone hzero fun hended => ?_).elim
      rw [hended] at hlive
      cases hlive
  | kill => exact hfree.elim
  | services a =>
    obtain ⟨-, s, hstep, rfl⟩ := step_services_iff.mp h
    rw [after_sys, workers_of_step hfree hstep hthread]
    exact hw

theorem stalled_evaluating {as : List (Stalling.Action Action Nat)}
    {x : Stalling (WorkerProcess cfg) Nat}
    (hrun : Lib.run (stallStep cfg) (.begin {}) as = some x)
    (hfree : ∀ a ∈ Stalling.steps as, a.FaultFree) (w : Nat) (hw : x.stalled w = true) :
    (x.state.sys.workers w).evaluating = true :=
  Stalling.stalled_may Sound sound_start hrun hfree (fun _ _ _ hp h => sound_step hp h)
    (fun _ _ _ _ hp hfree h hthread hw => evaluating_of_step hp hfree h hthread hw)
    (fun _ hw => absurd hw Bool.false_ne_true) w hw

/-- **The process comes to its end.**  In a run without faults, in which any evaluation may never
return, once a signal has arrived after `running_ = true`: with `n` threads to make, the process
makes `9 * n + 3` steps at most, its threads' included; it can make one until `main` has returned,
unless an exception or its evaluation holds a thread or the count was negative; and when `main` has
returned, every job that was enqueued waits in the queue or has its result stored. -/
theorem process_stops {as bs : List (Stalling.Action Action Nat)}
    {x y : Stalling (WorkerProcess cfg) Nat}
    (hrun : Lib.run (stallStep cfg) (.begin {}) as = some x)
    (hstop : StopRequested cfg (Stalling.steps as))
    (h : Lib.run (stallStep cfg) x bs = some y)
    (hfree : ∀ a ∈ Stalling.steps (as ++ bs), a.FaultFree) (hids : DistinctIds y.state.sys) :
    (Stalling.steps bs).countP Action.own ≤ 9 * cfg.workerCount.toInt.toNat + 3 ∧
    (y.state.main = .returned ∨ cfg.workerCount.toInt < 0 ∨
      (∃ w e, (y.state.sys.workers w).ended = some (.error e)) ∨
      (∃ w, y.stalled w = true ∧ (y.state.sys.workers w).evaluating = true) ∨
      ∃ a z, a.own = true ∧ a.FaultFree ∧ stallStep cfg y (.step a) = some z) ∧
    (y.state.main = .returned →
      ∀ r k job payload, y.state.sys.requests r = some k → Enqueued k job payload →
        y.state.sys.queued.count payload = 1 ∨
          ∃ job' m result b t, submissionJobFromJson cfg.format payload = .ok job' ∧
            evaluation cfg m job' = .ok result ∧ ResultOf job' result ∧
            submissionResultFromJson cfg.format b = .ok result ∧
            y.state.sys.store (resultKey job'.submissionId) = some ⟨.str b, some t⟩) := by
  have hall : Lib.run (stallStep cfg) (.begin {}) (as ++ bs) = some y :=
    run_append_iff.mpr ⟨x, hrun, h⟩
  have hfirst : Reaches cfg (Stalling.steps as) x.state := Stalling.run_steps hrun
  have hreaches : Reaches cfg (Stalling.steps (as ++ bs)) y.state := Stalling.run_steps hall
  have hstops : StopRequested cfg (Stalling.steps (as ++ bs)) := by
    rw [Stalling.steps_append]
    exact hstop.append (Stalling.steps bs)
  refine ⟨?_, ?_, ?_⟩
  · have hcount := own_of_stopped hfirst hstop (Stalling.run_steps h)
      (Stalling.steps_append as bs ▸ hfree)
    have hle := toGo_le (not_waiting_of_stopRequested hfirst hstop)
    simp only [count] at hle
    omega
  · have goesOn : y.state.main.live = true →
        (∃ w e, (y.state.sys.workers w).ended = some (.error e)) ∨
          (∃ w, y.stalled w = true ∧ (y.state.sys.workers w).evaluating = true) ∨
          ∃ a z, a.own = true ∧ a.FaultFree ∧ stallStep cfg y (.step a) = some z := by
      intro hlive
      rcases step_of_live hreaches hfree hlive y.stalled with
        hheld | ⟨w, hw⟩ | ⟨a, q, hown, ha, hmoves, hstep⟩
      · exact .inl hheld
      · exact .inr (.inl ⟨w, hw, stalled_evaluating hall hfree w hw⟩)
      · exact .inr (.inr ⟨a, { y with state := q }, hown, ha,
          Stalling.step_step_iff.mpr ⟨hmoves, hstep, rfl⟩⟩)
    cases hmain : y.state.main with
    | returned => exact .inl rfl
    | ended => exact .inr (.inl (count_of_ended hreaches hfree hstops hmain))
    | _ => exact .inr (.inr (goesOn (by rw [hmain]; rfl)))
  · intro hreturned r k job payload hr henqueued
    obtain ⟨cs, hseen, hcs⟩ := view_reaches hreaches
    rw [view_of_not_waiting (by rw [hreturned]; rfl)] at hseen
    have hsound := sound hreaches
    have hshape := hsound.shape
    rw [hreturned] at hshape
    have houtside : ∀ w, y.state.sys.workers w = .left ∨ y.state.sys.workers w = .connecting ∨
        False := by
      intro w
      rcases Nat.lt_or_ge w y.state.threads with hw | hw
      · exact .inl (hshape.2 w hw)
      · exact .inr (.inl (hsound.unborn (by rw [hreturned]; nofun) w hw))
    rcases job_of_returned hseen (hcs hfree) hids houtside hr henqueued with
      hqueued | ⟨w, hw, -⟩ | hstored
    · exact .inl hqueued
    · exact hw.elim
    · exact .inr hstored

theorem process_stops_one : ∃ p p', Reaches oneThread startStop p ∧
    Lib.run step p wayOut = some p' ∧ wayOut.countP Action.own ≤ 12 ∧
    (p'.main = .returned ∨ (∃ w e, (p'.sys.workers w).ended = some (.error e)) ∨
      ∃ a q, a.own = true ∧ a.FaultFree ∧ p'.step a = some q) := by
  obtain ⟨p, hp, p', hp', hreturned, hrequests⟩ := startStop_reaches
  have hfree : ∀ a ∈ startStop ++ wayOut, a.FaultFree := by
    simp [startStop, wayOut, Action.FaultFree, System.Action.FaultFree]
  have hids : DistinctIds p'.sys := by
    intro r r' h h' hr
    rw [hrequests] at hr
    cases hr
  obtain ⟨hown, hgo, -⟩ := process_stops (Stalling.run_map_step hp)
    (by rw [Stalling.steps_map_step]; exact stopRequested_startStop) (Stalling.run_map_step hp')
    (by rw [Stalling.steps_append, Stalling.steps_map_step, Stalling.steps_map_step]; exact hfree)
    hids
  rw [Stalling.steps_map_step] at hown
  refine ⟨p, p', hp, hp', hown, ?_⟩
  rcases hgo with hreturned | hneg | hheld | ⟨w, hw, -⟩ | ⟨a, z, hmine, ha, hstep⟩
  · exact .inl hreturned
  · cases hneg
  · exact .inr (.inl hheld)
  · cases hw
  · exact .inr (.inr ⟨a, z.state, hmine, ha, (Stalling.step_step_iff.mp hstep).2.1⟩)

end WorkerProcess

end Ocpe.System
