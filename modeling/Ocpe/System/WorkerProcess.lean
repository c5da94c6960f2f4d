import Ocpe.System.Shutdown

/-!
# The worker process

`worker/src/main.cpp` with `WorkerPool::start`, `stop` and `join`.  In `Sys` the pool is running
and all its threads are there.  Here the main thread sees to that: it installs the two signal
handlers, sets `running_`, starts one thread after the other and waits for each to return, while
signals arrive at any point and the threads that exist already run.

* `sound`: the threads that exist and `running_`, at each place of the main thread.
* `view_reaches`: a run of the process and the services is a run of the system, so what holds of
  every run of the system holds here.
-/

namespace Ocpe.System

open Lib Redis RedisClient WorkerPool

/-- The signals that `main` installs `signal_handler` for. -/
inductive Signal
  | sigint | sigterm
  deriving DecidableEq, Repr

inductive MainThread
  /-- at `signal(SIGINT, signal_handler)` -/
  | configured
  /-- at `signal(SIGTERM, signal_handler)` -/
  | interruptible
  /-- at `running_ = true` of `start` -/
  | stoppable
  /-- at `threads_.reserve` -/
  | started
  /-- at the test of the loop of `start` -/
  | spawning
  /-- in `join`, at thread `i` -/
  | joining (i : Nat)
  /-- `main` has returned 0 -/
  | returned
  /-- a signal or an exception has ended the process -/
  | ended
  deriving DecidableEq, Repr

namespace MainThread

/-- Whether `signal_handler` is installed for the signal. -/
def handles : MainThread → Signal → Bool
  | .configured, _ => false
  | .interruptible, .sigterm => false
  | _, _ => true

/-- `running_ = true` is still to come. -/
def waiting : MainThread → Bool
  | .configured | .interruptible | .stoppable => true
  | _ => false

def live : MainThread → Bool
  | .returned | .ended => false
  | _ => true

/-- `running_ = true` was executed, and nothing has ended the process. -/
def begun : MainThread → Bool
  | .configured | .interruptible | .stoppable | .ended => false
  | _ => true

end MainThread

/-- Not a stop, which only a signal brings, and not the crash of one thread alone. -/
def Action.ofServices : Action → Bool
  | .stop => false
  | .crash _ => false
  | _ => true

/-- The threads up to `n` end with their process. -/
def Sys.killed {cfg : Config} (s : Sys cfg) (n : Nat) : Sys cfg :=
  { s with
    workers := fun w => if w < n then .crashed else s.workers w
    log := s.log ++ (List.range n).map .crashed }

/-- The worker process and the services around it. -/
structure WorkerProcess (cfg : Config) where
  main : MainThread := .configured
  /-- `threads_.size()` -/
  threads : Nat := 0
  sys : Sys cfg := { running := false }

namespace WorkerProcess

variable {cfg : Config}

inductive Action
  /-- the main thread goes on -/
  | main
  | signal (signal : Signal)
  /-- a signal that cannot be handled, or an exception that leaves `start` -/
  | kill
  /-- a step of a thread of the pool, of the API, of the network or of time -/
  | services (a : System.Action)

def killed (p : WorkerProcess cfg) : WorkerProcess cfg :=
  { p with main := .ended, sys := p.sys.killed p.threads }

def advance (p : WorkerProcess cfg) : Option (WorkerProcess cfg) :=
  match p.main with
  | .configured => some { p with main := .interruptible }
  | .interruptible => some { p with main := .stoppable }
  | .stoppable => some { p with main := .started, sys := { p.sys with running := true } }
  | .started =>
    -- a negative count converts to a `size_t` that no vector can hold: `std::length_error`
    if cfg.workerCount.toInt < 0 then some p.killed else some { p with main := .spawning }
  | .spawning =>
    if (p.threads : Int) < cfg.workerCount.toInt then some { p with threads := p.threads + 1 }
    else some { p with main := .joining 0 }
  | .joining i =>
    if i < p.threads then
      match p.sys.workers i with
      | .left => some { p with main := .joining (i + 1) }
      | _ => none
    else some { p with main := .returned }
  | .returned => none
  | .ended => none

/-- Only threads that exist can step, and only while the process lives. -/
def admits (p : WorkerProcess cfg) (a : System.Action) : Bool :=
  a.ofServices && a.thread?.all fun w => p.main.live && decide (w < p.threads)

/-- The process after a step of the services: an exception that leaves a thread ends it. -/
def after (p : WorkerProcess cfg) (a : System.Action) (s : Sys cfg) : WorkerProcess cfg :=
  match a with
  | .terminate _ => { p with main := .ended, sys := s }
  | _ => { p with sys := s }

def step (p : WorkerProcess cfg) : Action → Option (WorkerProcess cfg)
  | .main => p.advance
  | .signal signal =>
    match p.main.live, p.main.handles signal with
    | true, true => some { p with sys := { p.sys with running := false } }
    | true, false => some p.killed
    | false, _ => none
  | .kill =>
    match p.main.live with
    | true => some p.killed
    | false => none
  | .services a =>
    match p.admits a with
    | true => (System.step cfg p.sys a).map (p.after a)
    | false => none

def Reaches (cfg : Config) (as : List Action) (p : WorkerProcess cfg) : Prop :=
  Lib.run step {} as = some p

/-! ### One step -/

/-- One step of the main thread. -/
inductive Advances (p : WorkerProcess cfg) : WorkerProcess cfg → Prop
  | interruptible (h : p.main = .configured) : Advances p { p with main := .interruptible }
  | stoppable (h : p.main = .interruptible) : Advances p { p with main := .stoppable }
  | start (h : p.main = .stoppable) :
      Advances p { p with main := .started, sys := { p.sys with running := true } }
  | refused (h : p.main = .started) (hcount : cfg.workerCount.toInt < 0) : Advances p p.killed
  | reserved (h : p.main = .started) (hcount : 0 ≤ cfg.workerCount.toInt) :
      Advances p { p with main := .spawning }
  | spawn (h : p.main = .spawning) (hlt : (p.threads : Int) < cfg.workerCount.toInt) :
      Advances p { p with threads := p.threads + 1 }
  | spawned (h : p.main = .spawning) (hle : cfg.workerCount.toInt ≤ p.threads) :
      Advances p { p with main := .joining 0 }
  | join (i : Nat) (h : p.main = .joining i) (hlt : i < p.threads)
      (hleft : p.sys.workers i = .left) : Advances p { p with main := .joining (i + 1) }
  | joined (i : Nat) (h : p.main = .joining i) (hle : p.threads ≤ i) :
      Advances p { p with main := .returned }

variable {p p' : WorkerProcess cfg}

theorem advances_of_step (h : p.step .main = some p') : Advances p p' := by
  change p.advance = some p' at h
  unfold advance at h
  split at h
  · next hmain =>
    cases h
    exact .interruptible hmain
  · next hmain =>
    cases h
    exact .stoppable hmain
  · next hmain =>
    cases h
    exact .start hmain
  · next hmain =>
    split at h
    · next hcount =>
      cases h
      exact .refused hmain hcount
    · next hcount =>
      cases h
      exact .reserved hmain (by omega)
  · next hmain =>
    split at h
    · next hlt =>
      cases h
      exact .spawn hmain hlt
    · next hle =>
      cases h
      exact .spawned hmain (by omega)
  · next i hmain =>
    split at h
    · next hlt =>
      split at h
      · next hleft =>
        cases h
        exact .join i hmain hlt hleft
      · cases h
    · next hle =>
      cases h
      exact .joined i hmain (by omega)
  · cases h
  · cases h

theorem step_signal_iff {signal : Signal} :
    p.step (.signal signal) = some p' ↔ p.main.live = true ∧
      ((p.main.handles signal = true ∧ p' = { p with sys := { p.sys with running := false } }) ∨
        (p.main.handles signal = false ∧ p' = p.killed)) := by
  rw [step]
  split
  · next hlive hhandles => simp [hlive, hhandles, eq_comm]
  · next hlive hhandles => simp [hlive, hhandles, eq_comm]
  · next hlive => simp [hlive]

theorem step_kill_iff : p.step .kill = some p' ↔ p.main.live = true ∧ p' = p.killed := by
  rw [step]
  split
  · next hlive => simp [hlive, eq_comm]
  · next hlive => simp [hlive]

theorem step_services_iff {a : System.Action} :
    p.step (.services a) = some p' ↔
      p.admits a = true ∧ ∃ s, System.step cfg p.sys a = some s ∧ p' = p.after a s := by
  rw [step]
  split
  · next hadmits => simp [hadmits, eq_comm]
  · next hadmits => simp [hadmits]

theorem admits_iff {a : System.Action} :
    p.admits a = true ↔ a.ofServices = true ∧
      ∀ w, a.thread? = some w → p.main.live = true ∧ w < p.threads := by
  rw [admits, Bool.and_eq_true, Option.all_eq_true]
  simp

@[simp] theorem after_sys (a : System.Action) (s : Sys cfg) : (p.after a s).sys = s := by
  unfold after
  split <;> rfl

theorem after_main (a : System.Action) (s : Sys cfg) :
    (p.after a s).main = .ended ∨
      ((p.after a s).main = p.main ∧ ∀ w, a ≠ .terminate w) := by
  unfold after
  split
  · exact .inl rfl
  · next hne => exact .inr ⟨rfl, hne⟩

end WorkerProcess

/-! ### What a step of the services does to the threads -/

section Services

variable {cfg : Config} {s s' : Sys cfg} {a : Action}

theorem Worker.feed_ne_left {worker : Worker cfg} (h : worker ≠ .left) (answer : Answer) :
    worker.feed answer ≠ .left := by
  cases worker with
  | connecting =>
    rw [feed.eq_def]
    split <;> simp_all
  | left => exact absurd rfl h
  | _ => simp [Worker.feed]

/-- Only a thread that finds `running_` clear returns, and one that has returned stays so. -/
theorem thread_of_step (h : step cfg s a = some s') (hservices : a.ofServices = true)
    (hne : ∀ w, a ≠ .terminate w) (w : Nat) :
    (a.thread? ≠ some w ∧ s'.workers w = s.workers w) ∨
      (a.thread? = some w ∧ s.workers w ≠ .left ∧
        (s'.workers w = .left → s.running = false)) := by
  cases a with
  | tick ms => cases h; exact .inl ⟨(Option.some_ne_none w).symm, rfl⟩
  | stop => cases hservices
  | request r api request env =>
    simp only [step] at h
    split at h
    · cases h; exact .inl ⟨(Option.some_ne_none w).symm, rfl⟩
    · cases h
  | perform who net =>
    obtain ⟨op, hop, rfl⟩ := step_perform_iff.mp h
    by_cases hw : who = .worker w
    · subst hw
      have hbefore : s.workers w ≠ .left := by
        intro hleft
        rw [Sys.op?, hleft] at hop
        cases hop
      refine .inr ⟨rfl, hbefore, fun hleft => ?_⟩
      rw [perform_worker] at hleft
      exact absurd hleft (Worker.feed_ne_left hbefore _)
    · refine .inl ⟨fun hthread => hw ?_, perform_workers_of_ne hw⟩
      cases who with
      | handler r => cases hthread
      | worker w' => rw [Option.some.inj hthread]
  | test w' m =>
    obtain ⟨worker, htest, rfl⟩ := Option.map_eq_some_iff.mp h
    by_cases hw : w' = w
    · subst hw
      refine .inr ⟨rfl, fun hleft => ?_, fun hleft => ?_⟩
      · rw [hleft] at htest
        cases htest
      · simp only [Function.update_self] at hleft
        subst hleft
        cases hrunning : s.running with
        | false => rfl
        | true =>
          rw [hrunning] at htest
          cases hworker : s.workers w' <;> rw [hworker] at htest <;> cases htest
    · exact .inl ⟨fun hthread => hw (Option.some.inj hthread),
        Function.update_of_ne (Ne.symm hw) ..⟩
  | next w' =>
    simp only [step] at h
    split at h
    · next hended =>
      cases h
      by_cases hw : w' = w
      · subst hw
        refine .inr ⟨rfl, fun hleft => ?_, fun hleft => ?_⟩
        · rw [hleft] at hended
          cases hended
        · simp at hleft
      · exact .inl ⟨fun hthread => hw (Option.some.inj hthread),
          Function.update_of_ne (Ne.symm hw) ..⟩
    · cases h
  | terminate w' => exact absurd rfl (hne w')
  | crash w' => cases hservices

theorem ne_stop_of_services (h : a.ofServices = true) : a ≠ .stop := by
  rintro rfl
  cases h

/-- A step that is no thread's does not look at `running_`. -/
theorem step_of_running (h : step cfg s a = some s') (hservices : a.ofServices = true)
    (hthread : a.thread? = none) (running : Bool) :
    step cfg { s with running := running } a = some { s' with running := running } := by
  cases a with
  | tick ms => cases h; rfl
  | stop => cases hservices
  | request r api request env =>
    simp only [step] at h ⊢
    split at h
    · next hnone =>
      cases h
      exact if_pos hnone
    · cases h
  | perform who net =>
    obtain ⟨op, hop, rfl⟩ := step_perform_iff.mp h
    cases who with
    | handler r => exact step_perform_iff.mpr ⟨op, hop, rfl⟩
    | worker w => cases hthread
  | test w m => cases hthread
  | next w => cases hthread
  | terminate w => cases hthread
  | crash w => cases hservices

theorem run_crashes (s : Sys cfg) (n : Nat) :
    Lib.run (step cfg) s ((List.range n).map .crash) = some (s.killed n) := by
  induction n with
  | zero => simp [Sys.killed]
  | succ n ih =>
    rw [List.range_succ, List.map_append]
    refine run_append_iff.mpr ⟨s.killed n, ih, run_single ?_⟩
    have hworkers :
        Function.update (s.killed n).workers n .crashed = (s.killed (n + 1)).workers := by
      funext w
      by_cases hw : w = n
      · subst hw
        simp [Sys.killed]
      · simp only [Function.update_of_ne hw, Sys.killed]
        exact if_congr (by omega) rfl rfl
    have hlog : (s.killed n).log ++ [.crashed n] = (s.killed (n + 1)).log := by
      simp [Sys.killed, List.range_succ]
    rw [step, hworkers, hlog]
    rfl

end Services

namespace WorkerProcess

variable {cfg : Config} {p p' : WorkerProcess cfg} {as bs : List Action} {a : Action}

/-! ### Where the main thread stands -/

/-- The threads and `running_`, at each place of the main thread. -/
def Shape (p : WorkerProcess cfg) : MainThread → Prop
  | .configured | .interruptible | .stoppable => p.threads = 0 ∧ p.sys.running = false
  | .started => p.threads = 0
  | .spawning => (p.threads : Int) ≤ cfg.workerCount.toInt
  | .joining i =>
    (p.threads : Int) = cfg.workerCount.toInt ∧ i ≤ p.threads ∧ ∀ w < i, p.sys.workers w = .left
  | .returned =>
    (p.threads : Int) = cfg.workerCount.toInt ∧ ∀ w < p.threads, p.sys.workers w = .left
  | .ended => True

/-- What holds of the process at any time. -/
structure Sound (p : WorkerProcess cfg) : Prop where
  shape : p.Shape p.main
  /-- the threads that do not exist yet -/
  unborn : p.main ≠ .ended → ∀ w, p.threads ≤ w → p.sys.workers w = .connecting
  /-- a thread returns only where `running_` is clear -/
  stopped : p.main.begun = true → ∀ w, p.sys.workers w = .left → p.sys.running = false

theorem Sound.waiting (hp : p.Sound) (h : p.main.waiting = true) :
    p.threads = 0 ∧ p.sys.running = false := by
  have hshape := hp.shape
  cases hmain : p.main with
  | configured => rw [hmain] at hshape; exact hshape
  | interruptible => rw [hmain] at hshape; exact hshape
  | stoppable => rw [hmain] at hshape; exact hshape
  | _ => rw [hmain] at h; cases h

theorem sound_killed : p.killed.Sound :=
  ⟨trivial, fun hne => absurd rfl hne, nofun⟩

theorem sound_advance (hp : p.Sound) (h : Advances p p') : p'.Sound := by
  have hshape := hp.shape
  have hunborn : p.main ≠ .ended → ∀ w, p.threads ≤ w → p.sys.workers w = .connecting := hp.unborn
  cases h with
  | interruptible hmain =>
    rw [hmain] at hshape hunborn
    exact ⟨hshape, fun _ => hunborn nofun, nofun⟩
  | stoppable hmain =>
    rw [hmain] at hshape hunborn
    exact ⟨hshape, fun _ => hunborn nofun, nofun⟩
  | start hmain =>
    rw [hmain] at hshape hunborn
    refine ⟨hshape.1, fun _ => hunborn nofun, fun _ w hleft => ?_⟩
    have hconnecting := hunborn nofun w (by rw [hshape.1]; exact Nat.zero_le w)
    rw [hconnecting] at hleft
    cases hleft
  | refused hmain hcount => exact sound_killed
  | reserved hmain hcount =>
    rw [hmain] at hshape hunborn
    refine ⟨?_, fun _ => hunborn nofun, fun _ => hp.stopped (by rw [hmain]; rfl)⟩
    have hzero : p.threads = 0 := hshape
    simpa [Shape, hzero] using hcount
  | spawn hmain hlt =>
    rw [hmain] at hunborn
    refine ⟨?_, fun _ w hw => hunborn nofun w (Nat.le_of_succ_le hw), fun _ =>
      hp.stopped (by rw [hmain]; rfl)⟩
    simp only [Shape, hmain]
    omega
  | spawned hmain hle =>
    rw [hmain] at hshape hunborn
    refine ⟨⟨?_, Nat.zero_le _, fun w hw => absurd hw (Nat.not_lt_zero w)⟩, fun _ => hunborn nofun,
      fun _ => hp.stopped (by rw [hmain]; rfl)⟩
    exact Int.le_antisymm hshape hle
  | join i hmain hlt hleft =>
    rw [hmain] at hshape hunborn
    obtain ⟨hcount, -, hall⟩ := hshape
    refine ⟨⟨hcount, hlt, fun w hw => ?_⟩, fun _ => hunborn nofun, fun _ =>
      hp.stopped (by rw [hmain]; rfl)⟩
    rcases Nat.lt_succ_iff_lt_or_eq.mp hw with hw | rfl
    · exact hall w hw
    · exact hleft
  | joined i hmain hle =>
    rw [hmain] at hshape hunborn
    obtain ⟨hcount, -, hall⟩ := hshape
    exact ⟨⟨hcount, fun w hw => hall w (Nat.lt_of_lt_of_le hw hle)⟩, fun _ => hunborn nofun,
      fun _ => hp.stopped (by rw [hmain]; rfl)⟩

theorem sound_signal (hp : p.Sound) {signal : Signal} (h : p.step (.signal signal) = some p') :
    p'.Sound := by
  obtain ⟨-, ⟨-, rfl⟩ | ⟨-, rfl⟩⟩ := step_signal_iff.mp h
  · refine ⟨?_, hp.unborn, fun _ _ _ => rfl⟩
    have hshape := hp.shape
    cases hmain : p.main with
    | configured => rw [hmain] at hshape; exact ⟨hshape.1, rfl⟩
    | interruptible => rw [hmain] at hshape; exact ⟨hshape.1, rfl⟩
    | stoppable => rw [hmain] at hshape; exact ⟨hshape.1, rfl⟩
    | _ => rw [hmain] at hshape; exact hshape
  · exact sound_killed

theorem Shape.of_step {s : Sys cfg} {main : MainThread} (h : p.Shape main)
    (hrunning : s.running = p.sys.running)
    (hleft : ∀ w, p.sys.workers w = .left → s.workers w = .left) :
    WorkerProcess.Shape { p with sys := s } main := by
  cases main with
  | configured => exact ⟨h.1, hrunning.trans h.2⟩
  | interruptible => exact ⟨h.1, hrunning.trans h.2⟩
  | stoppable => exact ⟨h.1, hrunning.trans h.2⟩
  | started => exact h
  | spawning => exact h
  | joining i => exact ⟨h.1, h.2.1, fun w hw => hleft w (h.2.2 w hw)⟩
  | returned => exact ⟨h.1, fun w hw => hleft w (h.2 w hw)⟩
  | ended => trivial

theorem sound_services (hp : p.Sound) {a : System.Action} (h : p.step (.services a) = some p') :
    p'.Sound := by
  obtain ⟨hadmits, s, hstep, rfl⟩ := step_services_iff.mp h
  obtain ⟨hservices, hthread⟩ := admits_iff.mp hadmits
  rcases p.after_main a s with hended | ⟨hsame, hne⟩
  · exact ⟨by rw [hended]; trivial, fun hnot => absurd hended hnot, by rw [hended]; nofun⟩
  have heq : p.after a s = { p with sys := s } := by
    unfold after
    split
    · exact absurd rfl (hne _)
    · rfl
  have hrunning := running_of_step hstep (ne_stop_of_services hservices)
  have hmoves := thread_of_step hstep hservices hne
  rw [heq]
  refine ⟨hp.shape.of_step hrunning fun w hleft => ?_, fun hlive w hw => ?_,
    fun hbegun w hleft => ?_⟩
  · rcases hmoves w with ⟨-, hkept⟩ | ⟨-, hnot, -⟩
    · rw [hkept, hleft]
    · exact absurd hleft hnot
  · rcases hmoves w with ⟨-, hkept⟩ | ⟨hby, -, -⟩
    · rw [hkept]
      exact hp.unborn hlive w hw
    · exact absurd hw (Nat.not_le_of_lt (hthread w hby).2)
  · show s.running = false
    rw [hrunning]
    rcases hmoves w with ⟨-, hkept⟩ | ⟨-, -, hclear⟩
    · exact hp.stopped hbegun w (hkept ▸ hleft)
    · exact hclear hleft

theorem sound_step (hp : p.Sound) (h : p.step a = some p') : p'.Sound := by
  cases a with
  | main => exact sound_advance hp (advances_of_step h)
  | signal signal => exact sound_signal hp h
  | kill =>
    obtain ⟨-, rfl⟩ := step_kill_iff.mp h
    exact sound_killed
  | services a => exact sound_services hp h

theorem sound_start : ({} : WorkerProcess cfg).Sound := ⟨⟨rfl, rfl⟩, fun _ _ _ => rfl, nofun⟩

theorem sound (hrun : Reaches cfg as p) : p.Sound :=
  run_invariant Sound hrun sound_start fun _ _ _ hp h => sound_step hp h

/-! ### The process is the pool of the system -/

/-- The services as the system has them: no thread looks at `running_` before `start` sets it. -/
def view (p : WorkerProcess cfg) : Sys cfg :=
  { p.sys with running := p.main.waiting || p.sys.running }

theorem view_of_not_waiting (h : p.main.waiting = false) : p.view = p.sys := by
  rw [view, h]
  rfl

theorem view_of_waiting (h : p.main.waiting = true) : p.view = { p.sys with running := true } := by
  rw [view, h]
  rfl

def Action.FaultFree : Action → Prop
  | .kill => False
  | .services a => a.FaultFree
  | _ => True

/-- The runs of the system that a step of the process can be. -/
def Seen (cfg : Config) (p p' : WorkerProcess cfg) (a : Action) : Prop :=
  ∃ bs, (a.FaultFree → ∀ b ∈ bs, b.FaultFree) ∧ Lib.run (System.step cfg) p.view bs = some p'.view

theorem Seen.of_eq (h : p.view = p'.view) : Seen cfg p p' a :=
  ⟨[], fun _ _ hb => absurd hb List.not_mem_nil, by rw [h]; rfl⟩

theorem Seen.of_step {b : System.Action} (h : System.step cfg p.view b = some p'.view)
    (hfree : a.FaultFree → b.FaultFree) : Seen cfg p p' a :=
  ⟨[b], fun ha _ hc => List.mem_singleton.mp hc ▸ hfree ha, run_single h⟩

theorem seen_killed_of_waiting (hp : p.Sound) (h : p.main.waiting = true) :
    Seen cfg p p.killed a := by
  obtain ⟨hzero, hclear⟩ := hp.waiting h
  refine .of_step (b := .stop) ?_ fun _ => trivial
  have hkilled : p.killed.view = p.sys.killed p.threads := view_of_not_waiting rfl
  rw [hkilled, view_of_waiting h, hzero]
  simp [System.step, Sys.killed, hclear]

theorem seen_advance (hp : p.Sound) (h : Advances p p') : Seen cfg p p' a := by
  have hshape := hp.shape
  cases h with
  | interruptible hmain => exact .of_eq (by simp [view, hmain, MainThread.waiting])
  | stoppable hmain => exact .of_eq (by simp [view, hmain, MainThread.waiting])
  | start hmain => exact .of_eq (by simp [view, hmain, MainThread.waiting])
  | refused hmain hcount =>
    rw [hmain] at hshape
    have hzero : p.threads = 0 := hshape
    exact .of_eq (by simp [view, killed, Sys.killed, hmain, hzero, MainThread.waiting])
  | reserved hmain hcount => exact .of_eq (by simp [view, hmain, MainThread.waiting])
  | spawn hmain hlt => exact .of_eq (by simp [view])
  | spawned hmain hle => exact .of_eq (by simp [view, hmain, MainThread.waiting])
  | join i hmain hlt hleft => exact .of_eq (by simp [view, hmain, MainThread.waiting])
  | joined i hmain hle => exact .of_eq (by simp [view, hmain, MainThread.waiting])

theorem waiting_of_not_handles {main : MainThread} {signal : Signal}
    (h : main.handles signal = false) : main.waiting = true := by
  cases main with
  | configured => rfl
  | interruptible => rfl
  | _ => cases signal <;> cases h

theorem seen_step (hp : p.Sound) (h : p.step a = some p') : Seen cfg p p' a := by
  cases a with
  | main => exact seen_advance hp (advances_of_step h)
  | signal signal =>
    obtain ⟨-, ⟨-, rfl⟩ | ⟨hhandles, rfl⟩⟩ := step_signal_iff.mp h
    · cases hwaiting : p.main.waiting with
      | true => exact .of_eq (by simp [view, hwaiting])
      | false =>
        refine .of_step (b := .stop) ?_ fun _ => trivial
        simp [System.step, view, hwaiting]
    · exact seen_killed_of_waiting hp (waiting_of_not_handles hhandles)
  | kill =>
    obtain ⟨-, rfl⟩ := step_kill_iff.mp h
    cases hwaiting : p.main.waiting with
    | true => exact seen_killed_of_waiting hp hwaiting
    | false =>
      refine ⟨(List.range p.threads).map .crash, fun hfree => hfree.elim, ?_⟩
      rw [view_of_not_waiting hwaiting, run_crashes]
      rfl
  | services a =>
    obtain ⟨hadmits, s, hstep, rfl⟩ := step_services_iff.mp h
    obtain ⟨hservices, hthread⟩ := admits_iff.mp hadmits
    refine .of_step (b := a) ?_ id
    cases hwaiting : p.main.waiting with
    | true =>
      have hnone : a.thread? = none := by
        refine Option.eq_none_iff_forall_ne_some.mpr fun w hw => ?_
        have hlt := (hthread w hw).2
        rw [(hp.waiting hwaiting).1] at hlt
        exact absurd hlt (Nat.not_lt_zero w)
      have hmain : (p.after a s).main = p.main := by
        unfold after
        split
        · cases hnone
        · rfl
      rw [view_of_waiting hwaiting, view_of_waiting (hmain ▸ hwaiting), after_sys]
      exact step_of_running hstep hservices hnone true
    | false =>
      have hafter : (p.after a s).main.waiting = false := by
        rcases p.after_main a s with hended | ⟨hsame, -⟩
        · rw [hended]
          rfl
        · rw [hsame, hwaiting]
      rw [view_of_not_waiting hwaiting, view_of_not_waiting hafter, after_sys]
      exact hstep

/-- **The process is the pool of the system**: what holds of every run of the system holds of the
process, however it is started, signalled and ended. -/
theorem view_reaches (hrun : Reaches cfg as p) :
    ∃ bs, System.Reaches cfg bs p.view ∧
      ((∀ a ∈ as, a.FaultFree) → ∀ b ∈ bs, b.FaultFree) := by
  have hsim : ∀ (m : WorkerProcess cfg) a m' n, m.Sound ∧ m.view = n → m.step a = some m' →
      ∃ bs n', (a.FaultFree → ∀ b ∈ bs, b.FaultFree) ∧ Lib.run (System.step cfg) n bs = some n' ∧
        m'.Sound ∧ m'.view = n' := by
    rintro m a m' n ⟨hm, rfl⟩ h
    obtain ⟨bs, hfree, hbs⟩ := seen_step hm h
    exact ⟨bs, _, hfree, hbs, sound_step hm h, rfl⟩
  obtain ⟨bs, s, hfree, hs, -, rfl⟩ := run_simulates (System.step cfg) Action.FaultFree
    System.Action.FaultFree (fun p s => p.Sound ∧ p.view = s) hrun ⟨sound_start, rfl⟩ hsim
  exact ⟨bs, hs, hfree⟩

end WorkerProcess

end Ocpe.System
