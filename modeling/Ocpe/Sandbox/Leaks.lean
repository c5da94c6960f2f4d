import Ocpe.Sandbox.Descriptors
import Ocpe.Sandbox.Monitor

/-!
# Descriptors that nobody closes

Every descriptor of a pipe is to be closed by the call that has opened it, once, on each of
its exits (`sandbox/src/sandbox.cpp`, `sandbox/src/compiler.cpp`).  `Lost` are the numbers
for which this can no longer happen: an end of a pipe that is in no thread's variables.

* `change_of_step`: what one system call of a thread does to the table and to its own numbers.
* `lost_run_iff`: nothing is ever lost but by a second `pipe` that fails.
* `restored_iff`: a thread that is back where it started has left the table as it was exactly
  when it lost nothing.
* `calls_run`: the way of `Sandbox::run` through its calls, as in `Sandbox/Monitor.lean`.
* `descriptors_iff`: the first three of these together.
* `run_restores_iff`: with the last one, which runs of `Sandbox::run` leave the table as it was.

Each failing call loses two descriptors, and any number of them is lost: `exhausts`.
-/

namespace Ocpe.Descriptors

open Lib

def Event.thread : Event → Option Nat
  | .opens _ _ => none
  | .closes _ => none
  | .pipe i _ => some i
  | .compilePipe i _ => some i
  | .fork i _ _ _ => some i
  | .close i => some i

/-- A condition on the steps: the second `pipe` of `Sandbox::run` does not fail. -/
def KeepsFirst (w : Process) : Event → Prop
  | .pipe i false => ∀ out, w.threads i ≠ .madeOut out
  | _ => True

/-- The `close` is of an end that is open, and that no one closes later. -/
def ClosesHeld (w : Process) : Event → Prop
  | .close i => ∀ fd fds, w.threads i = .closing (fd :: fds) →
      IsEnd w.table fd ∧ fd ∉ fds ∧ ∀ j, j ≠ i → fd ∉ (w.threads j).fds
  | _ => True

def Lost (w : Process) (fd : Nat) : Prop :=
  IsEnd w.table fd ∧ ∀ i, fd ∉ (w.threads i).fds

/-! ### One system call -/

/-- What a step of thread `i` does to the table and to the numbers in its variables. -/
inductive Change (w v : Process) (i : Nat) (e : Event) : Prop
  | made (ends : Ends) (free : w.table.get ends.read = none ∧ w.table.get ends.write = none)
      (opened : ends.In v.table)
      (fds : ∀ n, n ∈ (v.threads i).fds ↔ n ∈ (w.threads i).fds ∨ n ∈ [ends.read, ends.write])
      (same : ∀ n, n ∉ [ends.read, ends.write] → v.table.get n = w.table.get n)
      (keeps : KeepsFirst w e)
  | closed (fd : Nat) (held : fd ∈ (w.threads i).fds)
      (fds : ∀ n, n ∈ (v.threads i).fds ↔ n ∈ (w.threads i).fds ∧ n ≠ fd)
      (table : v.table = w.table.close fd) (keeps : KeepsFirst w e)
  | kept (fds : ∀ n, n ∈ (v.threads i).fds ↔ n ∈ (w.threads i).fds) (table : v.table = w.table)
      (keeps : KeepsFirst w e)
  | lost (out : Ends) (had : w.threads i = .madeOut out) (fds : (v.threads i).fds = [])
      (table : v.table = w.table) (loses : ¬ KeepsFirst w e)

section

variable {w v u : Process} {e : Event} {i : Nat}

theorem change_piped {made : Ends → Thread}
    (hfds : ∀ ends n, n ∈ (made ends).fds ↔ n ∈ (w.threads i).fds ∨ n ∈ [ends.read, ends.write])
    (hkeeps : KeepsFirst w e) : Change w (w.piped i made) i e := by
  obtain ⟨hin, hfree, hget⟩ := makePipe_spec w.table w.pipes
  refine .made (makePipe w.table w.pipes).1 hfree hin (fun n => ?_) (fun n hn => ?_) hkeeps
  · show n ∈ (Function.update w.threads i _ i).fds ↔ _
    rw [Function.update_self]
    exact hfds _ n
  · simp only [List.mem_cons, List.not_mem_nil, or_false, not_or] at hn
    show (makePipe w.table w.pipes).2.get n = _
    rw [hget, if_neg hn.2, if_neg hn.1]

theorem change_setThread {th : Thread} {children : List Child}
    (hfds : ∀ n, n ∈ th.fds ↔ n ∈ (w.threads i).fds) (hkeeps : KeepsFirst w e) :
    Change w { w.setThread i th with children := children } i e := by
  refine .kept (fun n => ?_) rfl hkeeps
  show n ∈ (Function.update w.threads i th i).fds ↔ _
  rw [Function.update_self]
  exact hfds n

theorem change_pipe {success : Bool} (h : w.step (.pipe i success) = some v) :
    Change w v i (.pipe i success) := by
  rw [Process.step] at h
  split at h
  · next hidle =>
    have hkeeps : KeepsFirst w (.pipe i success) := by
      cases success with
      | true => trivial
      | false =>
        intro out hout
        rw [hidle] at hout
        cases hout
    cases h
    cases success with
    | true =>
      refine change_piped (fun ends n => ?_) hkeeps
      rw [hidle]
      exact (or_iff_right (List.not_mem_nil)).symm
    | false => exact .kept (fun n => Iff.rfl) rfl hkeeps
  · next out hout =>
    cases h
    cases success with
    | true =>
      refine change_piped (fun ends n => ?_) trivial
      rw [hout]
      exact List.mem_append (s := [out.read, out.write]) (t := [ends.read, ends.write])
    | false =>
      refine .lost out hout ?_ rfl fun hkeeps => hkeeps out hout
      show (Function.update w.threads i .idle i).fds = []
      rw [Function.update_self]
      rfl
  · cases h

theorem change_fork {success made opened : Bool}
    (h : w.step (.fork i success made opened) = some v) :
    Change w v i (.fork i success made opened) := by
  rw [Process.step] at h
  split at h
  · next out err hboth =>
    split at h
    · cases h
      refine change_setThread (fun n => ?_) trivial
      rw [hboth]
      simp only [Thread.fds, List.mem_cons, List.not_mem_nil, or_false]
      tauto
    · cases h
      refine @change_setThread w _ i _ w.children (fun n => ?_) trivial
      rw [hboth]
      rfl
  · next ends hcompile =>
    cases h
    refine @change_setThread w _ i _ w.children (fun n => ?_) trivial
    rw [hcompile]
    cases success with
    | true =>
      simp only [if_true, Thread.fds, List.mem_cons, List.not_mem_nil, or_false]
      exact or_comm
    | false => rfl
  · cases h

theorem change_close (h : w.step (.close i) = some v) (hw : Sound w) :
    Change w v i (.close i) := by
  rw [Process.step] at h
  split at h
  · next fd fds hclosing =>
    cases h
    have hholds := hw.holds i
    rw [hclosing] at hholds
    obtain ⟨hnotin, -⟩ := List.nodup_cons.mp hholds.1
    refine .closed fd (by rw [hclosing]; exact List.mem_cons_self) (fun n => ?_) rfl trivial
    show n ∈ (Function.update w.threads i (if fds = [] then .idle else .closing fds) i).fds ↔ _
    have hrest : (if fds = [] then Thread.idle else .closing fds).fds = fds := by
      split
      · next hnil => rw [hnil]; rfl
      · rfl
    rw [Function.update_self, hrest, hclosing]
    show n ∈ fds ↔ n ∈ fd :: fds ∧ n ≠ fd
    rw [List.mem_cons]
    constructor
    · intro hn
      exact ⟨.inr hn, fun heq => hnotin (heq ▸ hn)⟩
    · rintro ⟨heq | hn, hne⟩
      · exact absurd heq hne
      · exact hn
  · cases h

/-- **One system call**: it makes a pipe and keeps its ends, closes one of its own, leaves
all as it is, or returns with the first pipe still open. -/
theorem change_of_step (h : w.step e = some v) (hi : e.thread = some i) (hw : Sound w) :
    Change w v i e := by
  cases e with
  | opens => cases hi
  | closes => cases hi
  | pipe =>
    cases hi
    exact change_pipe h
  | compilePipe j success =>
    cases hi
    rw [Process.step] at h
    split at h
    · next hidle =>
      cases h
      cases success with
      | true =>
        refine change_piped (fun ends n => ?_) trivial
        rw [hidle]
        exact (or_iff_right (List.not_mem_nil)).symm
      | false => exact .kept (fun n => Iff.rfl) rfl trivial
    · cases h
  | fork =>
    cases hi
    exact change_fork h
  | close =>
    cases hi
    exact change_close h hw

theorem threads_of_step (h : w.step e = some v) {j : Nat} (hj : e.thread ≠ some j) :
    v.threads j = w.threads j := by
  have hupdate : ∀ {i : Nat} {th : Thread}, some i ≠ some j →
      Function.update w.threads i th j = w.threads j := fun hij =>
    Function.update_of_ne (fun heq => hij (congrArg some heq.symm)) _ _
  cases e with
  | opens =>
    cases h
    rfl
  | closes =>
    rw [Process.step] at h
    split at h <;> cases h
    rfl
  | pipe i success =>
    rw [Process.step] at h
    split at h <;> cases h
    · cases success with
      | true => exact hupdate hj
      | false => rfl
    · cases success with
      | true => exact hupdate hj
      | false => exact hupdate hj
  | compilePipe i success =>
    rw [Process.step] at h
    split at h <;> cases h
    cases success with
    | true => exact hupdate hj
    | false => rfl
  | fork i success =>
    rw [Process.step] at h
    split at h
    · cases success with
      | true =>
        cases h
        exact hupdate hj
      | false =>
        cases h
        exact hupdate hj
    · cases h
      exact hupdate hj
    · cases h
  | close i =>
    rw [Process.step] at h
    split at h <;> cases h
    exact hupdate hj

theorem not_isEnd_of_none {t : Table} {n : Nat} (h : t.get n = none) : ¬ IsEnd t n :=
  fun hend => hend.used h

theorem not_isEnd_of_other {t : Table} {n k : Nat} {cloexec : Bool}
    (h : t.get n = some ⟨.other k, cloexec⟩) : ¬ IsEnd t n := by
  rintro ⟨p, hp | hp⟩
  · exact absurd (h.symm.trans hp) (by simp)
  · exact absurd (h.symm.trans hp) (by simp)

theorem isEnd_congr {t t' : Table} {n : Nat} (ht : ¬ IsEnd t n) (ht' : ¬ IsEnd t' n)
    (hsame : ∀ m, m ≠ n → t'.get m = t.get m) (fd : Nat) : IsEnd t' fd ↔ IsEnd t fd := by
  by_cases hfd : fd = n
  · rw [hfd]
    exact iff_of_false ht' ht
  · unfold IsEnd
    rw [hsame fd hfd]

/-- The rest of the process neither opens nor closes a pipe. -/
theorem isEnd_of_step (h : w.step e = some v) (he : e.thread = none) (fd : Nat) :
    IsEnd v.table fd ↔ IsEnd w.table fd := by
  cases e with
  | opens k cloexec =>
    cases h
    refine isEnd_congr (not_isEnd_of_none (FdTable.get_lowestFree w.table))
      (@not_isEnd_of_other _ _ k cloexec ?_) (fun m hm => ?_) fd
    · exact (FdTable.get_set ..).trans (if_pos rfl)
    · exact (FdTable.get_set ..).trans (if_neg hm)
  | closes n =>
    rw [Process.step] at h
    split at h
    · next hused =>
      cases h
      refine isEnd_congr (not_isEnd_of_other hused) (not_isEnd_of_none ?_) (fun m hm => ?_) fd
      · exact (FdTable.get_close ..).trans (if_pos rfl)
      · exact (FdTable.get_close ..).trans (if_neg hm)
    · cases h
  | pipe => cases he
  | compilePipe => cases he
  | fork => cases he
  | close => cases he

/-! ### What is lost -/

/-- A number is in some thread's variables before exactly when it is after, if it is so for
the thread that moves. -/
theorem forall_notMem_iff (hothers : ∀ j, j ≠ i → v.threads j = w.threads j) {n : Nat}
    (hi : n ∈ (v.threads i).fds ↔ n ∈ (w.threads i).fds) :
    (∀ j, n ∉ (v.threads j).fds) ↔ ∀ j, n ∉ (w.threads j).fds := by
  refine forall_congr' fun j => ?_
  by_cases hj : j = i
  · rw [hj, hi]
  · rw [hothers j hj]

/-- **One step loses nothing** but by the second `pipe`, and what is lost stays lost. -/
theorem lost_step (h : w.step e = some v) (hw : Sound w) :
    (∀ n, Lost w n → Lost v n) ∧ ((∀ n, Lost v n → Lost w n) ↔ KeepsFirst w e) := by
  have hiff : (∀ n, Lost v n ↔ Lost w n) → KeepsFirst w e →
      (∀ n, Lost w n → Lost v n) ∧ ((∀ n, Lost v n → Lost w n) ↔ KeepsFirst w e) := by
    intro hsame hkeeps
    exact ⟨fun n => (hsame n).mpr, iff_of_true (fun n => (hsame n).mp) hkeeps⟩
  cases he : e.thread with
  | none =>
    refine hiff (fun n => ?_) ?_
    · have hthreads : ∀ j, v.threads j = w.threads j := fun j =>
        threads_of_step h (by rw [he]; exact fun hj => nomatch hj)
      exact and_congr (isEnd_of_step h he n) (forall_congr' fun j => by rw [hthreads])
    · cases e with
      | pipe => cases he
      | _ => trivial
  | some i =>
    have hothers : ∀ j, j ≠ i → v.threads j = w.threads j := fun j hj =>
      threads_of_step h fun heq => hj (Option.some.inj (he.symm.trans heq)).symm
    cases change_of_step h he hw with
    | made ends hfree _ hfds hsame hkeeps =>
      refine hiff (fun n => ?_) hkeeps
      -- the new ends are in the thread's variables, and were not open before
      by_cases hn : n ∈ [ends.read, ends.write]
      · refine iff_of_false (fun hlost => hlost.2 i ((hfds n).mpr (.inr hn))) fun hlost => ?_
        simp only [List.mem_cons, List.not_mem_nil, or_false] at hn
        rcases hn with rfl | rfl
        · exact hlost.1.used hfree.1
        · exact hlost.1.used hfree.2
      · refine and_congr ?_ (forall_notMem_iff hothers ?_)
        · unfold IsEnd
          rw [hsame n hn]
        · rw [hfds, or_iff_left hn]
    | closed fd hheld hfds htable hkeeps =>
      refine hiff (fun n => ?_) hkeeps
      by_cases hn : n = fd
      · rw [hn]
        refine iff_of_false (fun hlost => hlost.1.used ?_) fun hlost => hlost.2 i hheld
        rw [htable, FdTable.get_close, if_pos rfl]
      · refine and_congr ?_ (forall_notMem_iff hothers ?_)
        · unfold IsEnd
          rw [htable, FdTable.get_close, if_neg hn]
        · rw [hfds, and_iff_left hn]
    | kept hfds htable hkeeps =>
      refine hiff (fun n => ?_) hkeeps
      exact and_congr (by rw [htable]) (forall_notMem_iff hothers (hfds n))
    | lost out hhad hfds htable hloses =>
      refine ⟨fun n hlost => ⟨htable ▸ hlost.1, fun j => ?_⟩,
        iff_of_false (fun hall => ?_) hloses⟩
      · by_cases hj : j = i
        · rw [hj, hfds]
          exact List.not_mem_nil
        · rw [hothers j hj]
          exact hlost.2 j
      · -- the ends of the first pipe are the thread's, and then no one's
        have hmem : out.read ∈ (w.threads i).fds := by
          rw [hhad]
          exact List.mem_cons_self
        refine (hall out.read ⟨?_, fun j => ?_⟩).2 i hmem
        · rw [htable]
          exact isEnd_of_mem (hw.holds i) hmem
        · by_cases hj : j = i
          · rw [hj, hfds]
            exact List.not_mem_nil
          · rw [hothers j hj]
            exact hw.apart i j (Ne.symm hj) _ hmem

/-- **A run loses nothing** exactly when none of its steps does. -/
theorem lost_run_iff {es : List Event} (h : run Process.step w es = some v) (hw : Sound w) :
    (∀ n, Lost v n → Lost w n) ↔ AllSteps Process.step KeepsFirst w es := by
  have hall := @run_iff_allSteps _ _ Process.step KeepsFirst
    (fun u => Sound u ∧ ∀ n, Lost w n → Lost u n) (fun u => ∀ n, Lost u n → Lost w n) _ _ _ h
    ⟨hw, fun n hlost => hlost⟩ ?_ ?_
  · exact hall.trans (and_iff_right fun n hlost => hlost)
  · rintro m e m' ⟨hm, hkept⟩ hstep
    exact ⟨sound_step hstep hm, fun n hlost => (lost_step hstep hm).1 n (hkept n hlost)⟩
  · rintro m e m' ⟨hm, hkept⟩ hstep
    obtain ⟨hmono, hkeeps⟩ := lost_step hstep hm
    rw [← hkeeps]
    constructor
    · intro hback
      exact ⟨fun n hlost => hback n (hmono n hlost), fun n hlost => hkept n (hback n hlost)⟩
    · rintro ⟨hback, hstays⟩ n hlost
      exact hback n (hstays n hlost)

/-- **Nothing is closed twice**: what is closed is open, and only this `close` is of it. -/
theorem closesHeld_run {es : List Event} (h : run Process.step w es = some v) (hw : Sound w) :
    AllSteps Process.step ClosesHeld w es := by
  induction es generalizing w with
  | nil => trivial
  | cons e es ih =>
    obtain ⟨u, hu, hrun⟩ := run_cons_iff.mp h
    refine allSteps_cons hu ?_ (ih hrun (sound_step hu hw))
    cases e with
    | close i =>
      intro fd fds hclosing
      have hholds := hw.holds i
      have hmem : fd ∈ (w.threads i).fds := by
        rw [hclosing]
        exact List.mem_cons_self
      have hend := isEnd_of_mem hholds hmem
      rw [hclosing] at hholds
      exact ⟨hend, (List.nodup_cons.mp hholds.1).1, fun j hj => hw.apart i j hj.symm fd hmem⟩
    | _ => trivial

/-! ### One thread alone -/

/-- What the table is while only thread `i` moves: what was open is open still, what it has
added are ends of pipes, and its numbers were free. -/
structure Adds (w u : Process) (i : Nat) : Prop where
  others : ∀ j, j ≠ i → u.threads j = w.threads j
  fresh : ∀ n ∈ (u.threads i).fds, w.table.get n = none
  table : ∀ n, u.table.get n = w.table.get n ∨ w.table.get n = none ∧ IsEnd u.table n

theorem adds_step (h : u.step e = some v) (he : e.thread = some i) (hu : Sound u)
    (hadds : Adds w u i) : Adds w v i := by
  have hothers : ∀ j, j ≠ i → v.threads j = w.threads j := by
    intro j hj
    rw [← hadds.others j hj]
    exact threads_of_step h fun heq => hj (Option.some.inj (he.symm.trans heq)).symm
  -- what is free now was free at the start
  have hfree : ∀ n, u.table.get n = none → w.table.get n = none := by
    intro n hn
    rcases hadds.table n with hsame | ⟨hnone, -⟩
    · rw [← hsame, hn]
    · exact hnone
  cases change_of_step h he hu with
  | made ends hnew hin hfds hsame _ =>
    have hends : ∀ n ∈ [ends.read, ends.write], w.table.get n = none := by
      intro n hn
      simp only [List.mem_cons, List.not_mem_nil, or_false] at hn
      rcases hn with rfl | rfl
      · exact hfree _ hnew.1
      · exact hfree _ hnew.2
    refine ⟨hothers, fun n hn => ?_, fun n => ?_⟩
    · rcases (hfds n).mp hn with hn | hn
      · exact hadds.fresh n hn
      · exact hends n hn
    · by_cases hn : n ∈ [ends.read, ends.write]
      · exact .inr ⟨hends n hn, hin.isEnd hn⟩
      · unfold IsEnd
        rw [hsame n hn]
        exact hadds.table n
  | closed fd hheld hfds htable _ =>
    refine ⟨hothers, fun n hn => hadds.fresh n ((hfds n).mp hn).1, fun n => ?_⟩
    unfold IsEnd
    rw [htable, FdTable.get_close]
    by_cases hn : n = fd
    · rw [if_pos hn, hn]
      exact .inl (hadds.fresh fd hheld).symm
    · rw [if_neg hn]
      exact hadds.table n
  | kept hfds htable _ =>
    refine ⟨hothers, fun n hn => hadds.fresh n ((hfds n).mp hn), fun n => ?_⟩
    rw [htable]
    exact hadds.table n
  | lost out _ hfds htable _ =>
    refine ⟨hothers, fun n hn => ?_, fun n => ?_⟩
    · rw [hfds] at hn
      cases hn
    · rw [htable]
      exact hadds.table n

theorem adds_run {es : List Event} (h : run Process.step u es = some v)
    (hes : ∀ e ∈ es, e.thread = some i) (hu : Sound u) (hadds : Adds w u i) :
    Adds w v i := by
  induction es generalizing u with
  | nil =>
    cases h
    exact hadds
  | cons e es ih =>
    obtain ⟨m, hm, hrun⟩ := run_cons_iff.mp h
    exact ih hrun (fun e he => hes e (List.mem_cons_of_mem _ he)) (sound_step hm hu)
      (adds_step hm (hes e List.mem_cons_self) hu hadds)

/-- **A call restores the table** exactly when it loses nothing; so do any number of calls. -/
theorem restored_iff {es : List Event} (h : run Process.step w es = some v) (hw : Sound w)
    (hes : ∀ e ∈ es, e.thread = some i) (hidle : w.threads i = .idle) (hback : v.threads i = .idle) :
    (∀ n, v.table.get n = w.table.get n) ↔ AllSteps Process.step KeepsFirst w es := by
  have hadds : Adds w v i := by
    refine adds_run h hes hw ⟨fun j _ => rfl, fun n hn => ?_, fun n => .inl rfl⟩
    rw [hidle] at hn
    cases hn
  have hthreads : ∀ j, v.threads j = w.threads j := by
    intro j
    by_cases hj : j = i
    · rw [hj, hidle, hback]
    · exact hadds.others j hj
  rw [← lost_run_iff h hw]
  constructor
  · intro hsame n hlost
    refine ⟨?_, fun j => hthreads j ▸ hlost.2 j⟩
    unfold IsEnd
    rw [← hsame n]
    exact hlost.1
  · intro hall n
    rcases hadds.table n with hsame | ⟨hnone, hend⟩
    · exact hsame
    · -- an end that the calls have left open is in no one's variables
      have hlost : Lost v n := by
        refine ⟨hend, fun j hj => ?_⟩
        rw [hthreads] at hj
        exact (isEnd_of_mem (hw.holds j) hj).used hnone
      exact absurd hnone (hall n hlost).1.used

end

/-! ### The calls of `Sandbox::run` -/

section

variable (limits : SandboxLimits) (i : Nat)

/-- What a step of the monitor is in the process, when the monitor is thread `i`. -/
def callOf (m : Sandbox.Monitor) : Sandbox.Action → List Event
  | .returns (.ok success) =>
    match m.pc with
    | .pipeOut => [.pipe i success]
    | .pipeErr => [.pipe i success]
    | .fork => [.fork i success true true]
    | _ => []
  | .returns .done =>
    match m.pc with
    | .closing _ _ => [.close i]
    | _ => []
  | _ => []

/-- What a run of the monitor is in the process. -/
def calls (m : Sandbox.Monitor) : List Sandbox.Action → List Event
  | [] => []
  | a :: as =>
    callOf i m a ++ match Sandbox.step limits m a with
      | some m' => calls m' as
      | none => []

end

/-- The numbers behind the names of the four ends. -/
def fdOf (out err : Ends) : Sandbox.PipeEnd → Nat
  | .outRead => out.read
  | .outWrite => out.write
  | .errRead => err.read
  | .errWrite => err.write

/-- What the call still has to close after this row. -/
def afterwards (out err : Ends) : Sandbox.Afterwards → List Nat
  | .startClock => [out.read, err.read]
  | _ => []

/-- Where the thread stands in the process when the monitor stands at `pc`. -/
def Stands (th : Thread) : Sandbox.Pc → Prop
  | .pipeOut => th = .idle
  | .pipeErr => ∃ out, th = .madeOut out
  | .fork => ∃ out err, th = .madeBoth out err
  | .closing ends next =>
    ends ≠ [] ∧ ∃ out err, th = .closing (ends.map (fdOf out err) ++ afterwards out err next)
  | .wait4 => th = .idle
  | .returned _ => th = .idle
  | _ => ∃ out err : Ends, th = .closing [out.read, err.read]

section

variable {limits : SandboxLimits} {i : Nat} {w : Process} {m m' : Sandbox.Monitor}
  {a : Sandbox.Action}

theorem threads_setThread (w : Process) (i : Nat) (th : Thread) :
    (w.setThread i th).threads i = th :=
  Function.update_self ..

theorem threads_piped (w : Process) (i : Nat) (made : Ends → Thread) :
    (w.piped i made).threads i = made (makePipe w.table w.pipes).1 :=
  Function.update_self ..

theorem stands_closed {out err : Ends} {ends : List Sandbox.PipeEnd} {next : Sandbox.Afterwards} :
    Stands (if ends.map (fdOf out err) ++ afterwards out err next = [] then .idle
      else .closing (ends.map (fdOf out err) ++ afterwards out err next))
    (if ends = [] then next.pc else .closing ends next) := by
  cases ends with
  | nil =>
    cases next with
    | giveUp => rfl
    | startClock => exact ⟨out, err, rfl⟩
    | collect => rfl
  | cons e ends =>
    rw [if_neg (by simp), if_neg (by simp)]
    exact ⟨by simp, out, err, rfl⟩

/-- **The process can follow the parent through each of its calls.** -/
theorem stands_returns {a : Sandbox.Answer} (h : Sandbox.returns limits m a = some m')
    (hm : Stands (w.threads i) m.pc) :
    ∃ v, run Process.step w (callOf i m (.returns a)) = some v ∧ Stands (v.threads i) m'.pc := by
  have hone : ∀ {e : Event} {v : Process}, w.step e = some v → run Process.step w [e] = some v :=
    fun hv => run_cons_iff.mpr ⟨_, hv, rfl⟩
  unfold Sandbox.returns at h
  split at h
  · next success hpc =>
    rw [hpc] at hm
    have hidle : w.threads i = .idle := hm
    cases h
    simp only [callOf, hpc]
    cases success with
    | true =>
      refine ⟨_, hone (by rw [Process.step, hidle]), _, Function.update_self ..⟩
    | false =>
      exact ⟨w, hone (by rw [Process.step, hidle]; rfl), hidle⟩
  · next success hpc =>
    rw [hpc] at hm
    obtain ⟨out, hout⟩ := hm
    cases h
    simp only [callOf, hpc]
    cases success with
    | true =>
      exact ⟨_, hone (by rw [Process.step, hout]), _, _, Function.update_self ..⟩
    | false =>
      exact ⟨w.setThread i .idle, hone (by rw [Process.step, hout]; rfl), threads_setThread w i .idle⟩
  · next success hpc =>
    rw [hpc] at hm
    obtain ⟨out, err, hboth⟩ := hm
    simp only [callOf, hpc]
    cases success with
    | true =>
      cases h
      exact ⟨_, hone (by rw [Process.step, hboth]; rfl), by simp, out, err, Function.update_self ..⟩
    | false =>
      cases h
      exact ⟨_, hone (by rw [Process.step, hboth]; rfl), by simp, out, err, Function.update_self ..⟩
  · next e ends next hpc =>
    rw [hpc] at hm
    obtain ⟨-, out, err, hclosing⟩ := hm
    cases h
    simp only [callOf, hpc]
    refine ⟨_, hone (by rw [Process.step, hclosing]; rfl), ?_⟩
    show Stands (Function.update w.threads i _ i) _
    rw [Function.update_self]
    exact stands_closed
  · next now hpc =>
    -- from here to the last two `close` calls the descriptors stay
    rw [hpc] at hm
    cases h
    exact ⟨w, rfl, hm⟩
  · next now hpc =>
    rw [hpc] at hm
    split at h <;> cases h
    · exact ⟨w, rfl, hm⟩
    · exact ⟨w, rfl, hm⟩
  · next hpc =>
    rw [hpc] at hm
    obtain ⟨out, err, hclosing⟩ := hm
    cases h
    simp only [callOf, hpc]
    exact ⟨w, rfl, by simp, out, err, hclosing⟩
  · next out err hpc =>
    rw [hpc] at hm
    cases h
    refine ⟨w, rfl, ?_⟩
    split
    · exact hm
    · split <;> exact hm
  · next hpc =>
    rw [hpc] at hm
    split at h <;> cases h
    refine ⟨w, rfl, ?_⟩
    split <;> exact hm
  · next hpc =>
    rw [hpc] at hm
    split at h <;> cases h
    exact ⟨w, rfl, hm⟩
  · next hpc =>
    rw [hpc] at hm
    cases h
    simp only [callOf, hpc]
    refine ⟨w, rfl, ?_⟩
    split <;> exact hm
  · next hpc =>
    split at h
    · cases h
      rw [hpc] at hm
      exact ⟨w, rfl, hm⟩
    · split at h <;> cases h
      exact ⟨w, rfl, hm⟩
  · next hpc =>
    split at h
    · cases h
      rw [hpc] at hm
      obtain ⟨out, err, hclosing⟩ := hm
      exact ⟨w, rfl, by simp, out, err, hclosing⟩
    · split at h <;> cases h
      exact ⟨w, rfl, hm⟩
  · next hpc =>
    rw [hpc] at hm
    obtain ⟨-, -, rfl⟩ := Option.map_eq_some_iff.mp h
    simp only [callOf, hpc]
    exact ⟨w, rfl, hm⟩
  · cases h

theorem stands_step (h : Sandbox.step limits m a = some m') (hm : Stands (w.threads i) m.pc) :
    ∃ v, run Process.step w (callOf i m a) = some v ∧ Stands (v.threads i) m'.pc := by
  cases a with
  | returns a => exact stands_returns h hm
  | ends e =>
    rw [Sandbox.step] at h
    split at h <;> cases h
    exact ⟨w, rfl, hm⟩

/-- **Every run of the parent is a run of its thread.** -/
theorem calls_run {as : List Sandbox.Action} (h : run (Sandbox.step limits) m as = some m')
    (hm : Stands (w.threads i) m.pc) :
    ∃ v, run Process.step w (calls limits i m as) = some v ∧ Stands (v.threads i) m'.pc := by
  induction as generalizing m w with
  | nil =>
    cases h
    exact ⟨w, rfl, hm⟩
  | cons a as ih =>
    obtain ⟨n, hn, hrun⟩ := run_cons_iff.mp h
    obtain ⟨u, hu, hstands⟩ := stands_step hn hm
    obtain ⟨v, hv, hback⟩ := ih hrun hstands
    refine ⟨v, ?_, hback⟩
    rw [calls, hn]
    exact run_append_iff.mpr ⟨u, hu, hv⟩

theorem thread_of_mem_calls {as : List Sandbox.Action} :
    ∀ e ∈ calls limits i m as, e.thread = some i := by
  induction as generalizing m with
  | nil =>
    intro e he
    cases he
  | cons a as ih =>
    intro e he
    rw [calls, List.mem_append] at he
    rcases he with he | he
    · unfold callOf at he
      split at he
      all_goals try split at he
      all_goals simp only [List.mem_singleton, List.not_mem_nil] at he
      all_goals rw [he]; rfl
    · split at he
      · exact ih e he
      · cases he

/-- The parent makes its pipes first. -/
theorem past_returns {a : Sandbox.Answer} (h : Sandbox.returns limits m a = some m')
    (hout : m.pc ≠ .pipeOut) : m'.pc ≠ .pipeOut ∧ m'.pc ≠ .pipeErr := by
  unfold Sandbox.returns at h
  split at h
  · next hpc => exact absurd hpc hout
  · cases h
    split <;> simp
  · split at h <;> cases h <;> simp
  · next ends next _ =>
    cases h
    cases next <;> split <;> simp [Sandbox.Afterwards.pc]
  · cases h
    simp
  · split at h <;> cases h <;> simp
  · cases h
    simp
  · cases h
    split
    · simp
    · split <;> simp
  · split at h <;> cases h
    split <;> simp
  · split at h <;> cases h
    simp
  · cases h
    split <;> simp
  · next hpc =>
    split at h
    · cases h
      simp
    · split at h <;> cases h
      simp [hpc]
  · next hpc =>
    split at h
    · cases h
      simp
    · split at h <;> cases h
      simp [hpc]
  · obtain ⟨-, -, rfl⟩ := Option.map_eq_some_iff.mp h
    simp
  · cases h

theorem past_step (h : Sandbox.step limits m a = some m') (hout : m.pc ≠ .pipeOut)
    (herr : m.pc ≠ .pipeErr) : m'.pc ≠ .pipeOut ∧ m'.pc ≠ .pipeErr := by
  cases a with
  | returns a => exact past_returns h hout
  | ends e =>
    rw [Sandbox.step] at h
    split at h <;> cases h
    exact ⟨hout, herr⟩

/-- After the pipes are made, no outcome of any call is the one that loses them. -/
theorem keeps_of_mem_calls {as : List Sandbox.Action} (hout : m.pc ≠ .pipeOut)
    (herr : m.pc ≠ .pipeErr) : ∀ e ∈ calls limits i m as, ∀ w, KeepsFirst w e := by
  induction as generalizing m with
  | nil =>
    intro e he
    cases he
  | cons a as ih =>
    intro e he
    rw [calls, List.mem_append] at he
    rcases he with he | he
    · unfold callOf at he
      split at he
      · split at he
        · next hpc => exact absurd hpc hout
        · next hpc => exact absurd hpc herr
        · rw [List.mem_singleton.mp he]
          exact fun _ => trivial
        · cases he
      · split at he
        · rw [List.mem_singleton.mp he]
          exact fun _ => trivial
        · cases he
      · cases he
    · split at he
      · next m' hm' =>
        obtain ⟨hout', herr'⟩ := past_step hm' hout herr
        exact ih hout' herr' e he
      · cases he

theorem allSteps_keeps {es : List Event} (hes : ∀ e ∈ es, ∀ w, KeepsFirst w e) :
    AllSteps Process.step KeepsFirst w es := by
  induction es generalizing w with
  | nil => trivial
  | cons e es ih =>
    exact ⟨hes e List.mem_cons_self w, fun t _ => ih fun e he => hes e (List.mem_cons_of_mem _ he)⟩

/-- Without a child the step at a `pipe` is its return, and where it fails the run is over. -/
theorem pipe_returns (h : Sandbox.step limits m a = some m')
    (hpc : m.pc = .pipeOut ∨ m.pc = .pipeErr) (hchild : m.child = .absent) :
    ∃ success, a = .returns (.ok success) ∧ m'.child = .absent ∧
      m'.pc = if success then (if m.pc = .pipeOut then .pipeErr else .fork)
        else .returned .pipeFailed := by
  cases a with
  | ends e => simp [Sandbox.step, hchild] at h
  | returns b =>
    rcases hpc with hpc | hpc
    · cases b with
      | ok success =>
        simp only [Sandbox.step, Sandbox.returns, hpc, Option.some.injEq] at h
        subst h
        exact ⟨success, rfl, hchild, by simp [hpc]⟩
      | _ => simp [Sandbox.step, Sandbox.returns, hpc] at h
    · cases b with
      | ok success =>
        simp only [Sandbox.step, Sandbox.returns, hpc, Option.some.injEq] at h
        subst h
        exact ⟨success, rfl, hchild, by simp [hpc]⟩
      | _ => simp [Sandbox.step, Sandbox.returns, hpc] at h

theorem run_returned {as : List Sandbox.Action} {o : Sandbox.RunOutcome}
    (h : run (Sandbox.step limits) m as = some m') (hpc : m.pc = .returned o)
    (hchild : m.child = .absent) : as = [] := by
  cases as with
  | nil => rfl
  | cons a as =>
    obtain ⟨n, hn, -⟩ := run_cons_iff.mp h
    cases a with
    | ends e => simp [Sandbox.step, hchild] at hn
    | returns b => simp [Sandbox.step, Sandbox.returns, hpc] at hn

/-- **The outcome that loses the first pipe**, among all runs of `Sandbox::run` that return. -/
theorem keeps_calls_iff {as : List Sandbox.Action} {s : Sandbox.Monitor} {o : Sandbox.RunOutcome}
    (h : run (Sandbox.step limits) {} as = some s) (hs : s.pc = .returned o)
    (hidle : w.threads i = .idle) :
    AllSteps Process.step KeepsFirst w (calls limits i {} as) ↔
      as ≠ [.returns (.ok true), .returns (.ok false)] := by
  cases as with
  | nil =>
    cases h
    cases hs
  | cons a as =>
  obtain ⟨m, hm, hrun⟩ := run_cons_iff.mp h
  obtain ⟨first, rfl, hchild, hpc⟩ := pipe_returns hm (.inl rfl) rfl
  have hkeeps : KeepsFirst w (.pipe i first) := by
    cases first with
    | true => trivial
    | false =>
      intro out hout
      rw [hidle] at hout
      cases hout
  rw [calls, hm]
  show AllSteps Process.step KeepsFirst w (.pipe i first :: calls limits i m as) ↔ _
  cases first with
  | false =>
    obtain rfl := run_returned hrun hpc hchild
    exact iff_of_true ⟨hkeeps, fun _ _ => trivial⟩ (by simp)
  | true =>
  cases as with
  | nil =>
    cases hrun
    rw [hs] at hpc
    simp at hpc
  | cons b bs =>
  obtain ⟨n, hn, hrest⟩ := run_cons_iff.mp hrun
  obtain ⟨second, rfl, hchild', hpc'⟩ := pipe_returns hn (.inr hpc) hchild
  have hcall : callOf i m (.returns (.ok second)) = [.pipe i second] := by
    simp only [callOf]
    rw [hpc]
    rfl
  -- the thread has made its first pipe now
  have hpiped : w.step (.pipe i true) = some (w.piped i .madeOut) := by
    rw [Process.step, hidle]
    rfl
  rw [calls, hn, hcall]
  show AllSteps Process.step KeepsFirst w (.pipe i true :: .pipe i second :: calls limits i n bs) ↔ _
  cases second with
  | false =>
    obtain rfl := run_returned hrest hpc' hchild'
    refine iff_of_false (fun hall => ?_) (fun hne => hne rfl)
    exact (hall.2 _ hpiped).1 _ (threads_piped ..)
  | true =>
    refine iff_of_true ⟨hkeeps, fun u _ => ⟨trivial, fun v _ => ?_⟩⟩ (by simp)
    have hpcn : n.pc = .fork := by
      rw [hpc', hpc]
      rfl
    exact allSteps_keeps (keeps_of_mem_calls (by rw [hpcn]; simp) (by rw [hpcn]; simp))

end

/-- **When the descriptors are the same afterwards.**  In every run of the threads of a process:
each `close` is of an end that is open and is closed by no one else; every end of a pipe is in
the variables of a call that has not returned exactly when no second `pipe` has failed; and a
thread on its own leaves, after any number of calls, the table as it was exactly when none
of its second `pipe` calls has failed. -/
theorem descriptors_iff {t : FdTable Nat} {es : List Event} {w : Process}
    (h : run Process.step (start t) es = some w) :
    AllSteps Process.step ClosesHeld (start t) es ∧
    ((∀ fd, IsEnd w.table fd → ∃ i, fd ∈ (w.threads i).fds) ↔
      AllSteps Process.step KeepsFirst (start t) es) ∧
    ∀ (i : Nat) (cs : List Event) (v : Process), w.threads i = .idle →
      (∀ e ∈ cs, e.thread = some i) → run Process.step w cs = some v → v.threads i = .idle →
      ((∀ n, v.table.get n = w.table.get n) ↔ AllSteps Process.step KeepsFirst w cs) := by
  have hw : Sound w := run_invariant Sound h (sound_start t) fun _ _ _ hs hstep => sound_step hstep hs
  refine ⟨closesHeld_run h (sound_start t), ?_, fun i cs v hidle hcs hv hback =>
    restored_iff hv hw hcs hidle hback⟩
  rw [← lost_run_iff h (sound_start t)]
  constructor
  · intro hall n hlost
    obtain ⟨i, hi⟩ := hall n hlost.1
    exact absurd hi (hlost.2 i)
  · intro hall fd hend
    by_contra hno
    have hlost := hall fd ⟨hend, fun i hi => hno ⟨i, hi⟩⟩
    -- at the start there are no pipes
    obtain ⟨p, hp⟩ := hlost.1
    have hfile : ∀ {d : Desc File}, (start t).table.get fd = some d → ∃ k, d.file = .other k := by
      intro d hd
      obtain ⟨e, -, rfl⟩ := Option.map_eq_some_iff.mp hd
      exact ⟨_, rfl⟩
    rcases hp with hp | hp
    · obtain ⟨k, hk⟩ := hfile hp
      cases hk
    · obtain ⟨k, hk⟩ := hfile hp
      cases hk

/-- **Which runs restore the table**: wherever a run of `Sandbox::run` finds the process, it has
its calls, and when it has returned, timed out or not, the table is what it was, unless the first
`pipe` succeeded and the second failed. -/
theorem run_restores_iff {t : FdTable Nat} {es : List Event} {w : Process} {i : Nat}
    {limits : SandboxLimits} {as : List Sandbox.Action} {s : Sandbox.Monitor}
    {o : Sandbox.RunOutcome} (hprocess : run Process.step (start t) es = some w)
    (hidle : w.threads i = .idle) (h : run (Sandbox.step limits) {} as = some s)
    (hs : s.pc = .returned o) :
    ∃ v, run Process.step w (calls limits i {} as) = some v ∧ v.threads i = .idle ∧
      ((∀ n, v.table.get n = w.table.get n) ↔
        as ≠ [.returns (.ok true), .returns (.ok false)]) := by
  have hw : Sound w :=
    run_invariant Sound hprocess (sound_start t) fun _ _ _ hw hstep => sound_step hstep hw
  obtain ⟨v, hv, hback⟩ := @calls_run limits i w {} s as h hidle
  rw [hs] at hback
  have hrestored := restored_iff hv hw thread_of_mem_calls hidle hback
  exact ⟨v, hv, hback, hrestored.trans (keeps_calls_iff h hs hidle)⟩

/-- A program that prints nothing and ends at once. -/
def silentRun (e : Ended) : List Sandbox.Action :=
  [.returns (.ok true), .returns (.ok true), .returns (.ok true), .returns .done, .returns .done,
    .returns (.time 0), .ends e, .returns (.time 0), .returns (.ready false false),
    .returns .done, .returns (.data []), .returns (.data []), .returns .done, .returns .done,
    .returns .done]

theorem run_restores_iff_silent :
    ∃ v, run Process.step (start standard) (calls {} 0 {} (silentRun (.exited 0 {}))) = some v ∧
      ∀ n, v.table.get n = (start standard).table.get n := by
  obtain ⟨v, hv, -, hiff⟩ :=
    @run_restores_iff standard [] _ 0 {} (silentRun (.exited 0 {})) _ _ rfl rfl rfl rfl
  exact ⟨v, hv, hiff.mpr (by simp [silentRun])⟩

def forkFails : List Event :=
  [.pipe 0 true, .pipe 0 true, .fork 0 false true true, .close 0, .close 0, .close 0, .close 0]

theorem descriptors_iff_forkFails :
    ∃ w, run Process.step (start standard) forkFails = some w ∧
      w.threads 0 = .idle ∧ ∀ fd, IsEnd w.table fd → ∃ i, fd ∈ (w.threads i).fds := by
  refine ⟨_, rfl, rfl, (@descriptors_iff standard forkFails _ rfl).2.1.mpr (allSteps_keeps ?_)⟩
  intro e he w
  simp only [forkFails, List.mem_cons, List.not_mem_nil, or_false] at he
  rcases he with rfl | rfl | rfl | rfl | rfl | rfl | rfl <;> trivial

/-- The two calls of a run whose second `pipe` fails. -/
def failing : List Event := [.pipe 0 true, .pipe 0 false]

/-- **The second `pipe` fails**, and the call returns with the first one open. -/
theorem loses_first :
    ∃ w, run Process.step (start standard) failing = some w ∧ (∀ i, w.threads i = .idle) ∧
      (start standard).table.get 3 = none ∧ w.table.get 3 = some ⟨.readEnd 0, false⟩ ∧
      (start standard).table.get 4 = none ∧ w.table.get 4 = some ⟨.writeEnd 0, false⟩ ∧
      ¬ ∀ fd, IsEnd w.table fd → ∃ i, fd ∈ (w.threads i).fds := by
  have hidle : ∀ i, (((start standard).piped 0 .madeOut).setThread 0 .idle).threads i = .idle := by
    intro i
    by_cases hi : i = 0
    · rw [hi]
      exact threads_setThread ..
    · exact (Function.update_of_ne hi _ _).trans (Function.update_of_ne hi _ _)
  refine ⟨((start standard).piped 0 .madeOut).setThread 0 .idle, rfl, hidle, rfl, rfl, rfl, rfl,
    fun hall => ?_⟩
  obtain ⟨i, hi⟩ := hall 3 ⟨0, .inl rfl⟩
  rw [hidle i] at hi
  cases hi

theorem failing_used {w : Process} {b : Nat} (hidle : ∀ i, w.threads i = .idle)
    (hused : ∀ n, w.table.get n ≠ none ↔ n < b) :
    ∃ v, run Process.step w failing = some v ∧ (∀ i, v.threads i = .idle) ∧
      ∀ n, v.table.get n ≠ none ↔ n < b + 2 := by
  obtain ⟨-, -, hget⟩ := makePipe_spec w.table w.pipes
  have hsome : ∀ n, (w.table.get n).isSome = true ↔ n < b := fun n => by
    rw [← hused, Option.isSome_iff_ne_none]
  have hread : (makePipe w.table w.pipes).1.read = b := by
    refine FdTable.lowestFree_eq_iff.mpr ⟨?_, fun m hm => (hsome m).mpr hm⟩
    by_contra h
    exact absurd ((hused b).mp h) (lt_irrefl b)
  have hwrite : (makePipe w.table w.pipes).1.write = b + 1 := by
    have hopened : ∀ n, (w.table.opens (.readEnd w.pipes) false).get n =
        if n = b then some ⟨.readEnd w.pipes, false⟩ else w.table.get n := by
      intro n
      rw [← hread]
      exact FdTable.get_set ..
    refine FdTable.lowestFree_eq_iff.mpr ⟨?_, fun m hm => ?_⟩
    · rw [hopened, if_neg (by omega)]
      by_contra h
      exact absurd ((hused (b + 1)).mp h) (by omega)
    · rw [hopened]
      by_cases hmb : m = b
      · rw [if_pos hmb]
        rfl
      · rw [if_neg hmb, hsome]
        omega
  refine ⟨(w.piped 0 .madeOut).setThread 0 .idle, ?_, fun i => ?_, fun n => ?_⟩
  · refine run_cons_iff.mpr ⟨w.piped 0 .madeOut, by rw [Process.step, hidle]; rfl,
      run_cons_iff.mpr ⟨_, ?_, rfl⟩⟩
    rw [Process.step, threads_piped]
    rfl
  · by_cases hi : i = 0
    · rw [hi]
      exact threads_setThread ..
    · exact (Function.update_of_ne hi _ _).trans ((Function.update_of_ne hi _ _).trans (hidle i))
  · show (makePipe w.table w.pipes).2.get n ≠ none ↔ _
    rw [hget, hread, hwrite]
    by_cases hn : n = b + 1
    · rw [if_pos hn]
      simp [hn]
    · rw [if_neg hn]
      by_cases hnb : n = b
      · rw [if_pos hnb]
        simp [hnb]
      · rw [if_neg hnb, hused]
        omega

/-- **Any number of failing runs** leaves twice as many descriptors open, and no call under way. -/
theorem exhausts (k : Nat) :
    ∃ w, run Process.step (start standard) (List.replicate k failing).flatten = some w ∧
      (∀ i, w.threads i = .idle) ∧ ∀ n, w.table.get n ≠ none ↔ n < 3 + 2 * k := by
  induction k with
  | zero =>
    refine ⟨start standard, rfl, fun i => rfl, fun n => ?_⟩
    show (Option.map _ (if n < 3 then some (⟨n, false⟩ : Desc Nat) else none)) ≠ none ↔ _
    split <;> simp [*]
  | succ k ih =>
    obtain ⟨w, hw, hidle, hused⟩ := ih
    obtain ⟨v, hv, hidle', hused'⟩ := failing_used hidle hused
    refine ⟨v, ?_, hidle', fun n => (hused' n).trans (by omega)⟩
    rw [List.replicate_succ', List.flatten_append, List.flatten_singleton]
    exact run_append_iff.mpr ⟨w, hw, hv⟩

end Ocpe.Descriptors
