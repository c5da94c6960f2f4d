import Ocpe.Sandbox.Returning

/-!
# Who is left when a run returns

`Sandbox::run` kills the process group of the child when the time is over, and on no
other exit.  So a process that the child leaves behind runs on.

* `Clears`: a step of the parent leaves no process behind.  When the child is reaped it
  was the last of the family, and when the group is killed everybody is in it.
* `vacant_run`: in a run whose steps all clear, nobody is left at the return.
* `survivor_of_not_clears`: after a step that does not, somebody can be.
* `survivors_iff`: the two together.

A daemon that closes its ends of the pipes outlives an ordinary exit, and a process in a
group of its own outlives the kill: `outlives`.
-/

namespace Ocpe.Sandbox

open Lib

/-- A condition on the steps: the two of the parent that end the loop leave no process
behind. -/
def Clears (pid : Nat) (s : Family) (e : Event) : Prop :=
  match s.monitor.pc, e with
  | .poll, .parent _ => s.monitor.child.poll.2 = true → s.procs = []
  | .killGroup, .kills _ => ∀ x ∈ s.procs, x.group = pid
  | _, _ => True

def AllClear (limits : SandboxLimits) (pid workerGroup : Nat) : Family → List Event → Prop :=
  AllSteps (Family.step limits pid workerGroup) (Clears pid)

variable {limits : SandboxLimits} {pid workerGroup : Nat} {s t : Family}

/-! ### Nobody is left -/

/-- There is no process before `fork`, and none once the loop is over. -/
def Vacant (s : Family) : Prop :=
  match s.monitor.pc with
  | .closing _ .startClock | .startClock | .checkClock | .killGroup | .select | .readOut _
  | .readErr | .poll => True
  | _ => s.procs = []

theorem vacant_of_procs (h : s.procs = []) : Vacant s := by
  unfold Vacant
  split <;> trivial

theorem vacant_acts {x : Proc} (hx : x ∈ s.procs) (h : ActsAs pid s x t) (hs : Vacant s) :
    Vacant t := by
  have hpc := (pc_acts h).1
  unfold Vacant at hs ⊢
  rw [hpc]
  split at hs
  all_goals first
    | trivial
    | rw [hs] at hx; exact absurd hx List.not_mem_nil

theorem vacant_parent {a : Answer} (h : s.parent limits pid workerGroup a = some t)
    (hclears : Clears pid s (.parent a)) (hs : Vacant s) : Vacant t := by
  by_cases hnone : s.procs = []
  · by_cases hfork : s.monitor.pc = .fork ∧ a = .ok true
    · obtain ⟨-, m, hm, rfl⟩ := parent_eq_some h
      simp only [returns, hfork.1, hfork.2, if_true] at hm
      cases hm
      trivial
    · obtain ⟨-, m, -, rfl⟩ := parent_eq_some h
      apply vacant_of_procs
      show (s.after pid workerGroup a).procs = []
      rw [procs_after hfork, hnone]
  · -- the parent is in the loop, and stays there unless it reaps the child
    obtain ⟨hanswers, m, hm, rfl⟩ := parent_eq_some h
    unfold returns at hm
    unfold Vacant at hs
    split at hm
    case h_4 ends next hpc =>
      rw [hpc] at hs
      cases hm
      cases next with
      | startClock => split <;> trivial
      | giveUp => exact absurd hs hnone
      | collect => exact absurd hs hnone
    case h_5 => cases hm; trivial
    case h_6 => split at hm <;> cases hm <;> trivial
    case h_7 hpc => simp only [Family.answers, hpc, Bool.false_eq_true] at hanswers
    case h_8 =>
      cases hm
      split
      · trivial
      · split <;> trivial
    case h_9 =>
      split at hm <;> cases hm
      split <;> trivial
    case h_10 =>
      split at hm <;> cases hm
      trivial
    case h_11 hpc =>
      simp only [Clears, hpc] at hclears
      cases hm
      rw [if_neg fun hw => hnone (hclears hw)]
      trivial
    case h_15 => cases hm
    all_goals
      next hpc =>
      rw [hpc] at hs
      exact absurd hs hnone

theorem vacant_step {e : Event} (h : s.step limits pid workerGroup e = some t)
    (hclears : Clears pid s e) (hs : Vacant s) : Vacant t := by
  cases e with
  | parent a => exact vacant_parent h hclears hs
  | act p a =>
    obtain ⟨x, hx, -, hacts⟩ := actsAs_of_act h
    exact vacant_acts hx hacts hs
  | tick d =>
    cases h
    exact hs
  | kills usage =>
    obtain ⟨hpc, rfl⟩ := kills_eq_some h
    simp only [Clears, hpc] at hclears
    apply vacant_of_procs
    show s.procs.filter (fun x => x.group ≠ pid) = []
    rw [List.filter_eq_nil_iff]
    intro x hx
    simpa using hclears x hx

/-- **In a run whose steps all clear** nobody is left at the return. -/
theorem vacant_run {es : List Event} (h : Lib.run (Family.step limits pid workerGroup) s es = some t)
    (hclear : AllClear limits pid workerGroup s es) (hs : Vacant s) : Vacant t :=
  run_invariant_steps Vacant h hclear hs fun _ _ _ hm hc he => vacant_step he hc hm

theorem procs_of_returned {o : RunOutcome} (hs : Vacant s) (hpc : s.monitor.pc = .returned o) :
    s.procs = [] := by
  rw [Vacant, hpc] at hs
  exact hs

/-! ### Somebody can be left -/

/-- Only the child itself has still to call `setpgid`. -/
def Begun (pid : Nat) (s : Family) : Prop := ∀ x ∈ s.procs, x.starting = true → x.pid = pid

theorem begun_acts {x : Proc} {a : Act} (hstart : x.starting = false)
    (h : s.acts pid x a = some t) (hs : Begun pid s) : Begun pid t := by
  have hupdate : ∀ (q : Nat) (f : Proc → Proc), (∀ y, (f y).starting = y.starting) →
      (∀ y, (f y).pid = y.pid) → Begun pid (s.update q f) := by
    intro q f hf hpid y hy
    obtain ⟨z, hz, rfl⟩ := List.mem_map.mp hy
    split
    · rw [hf, hpid]
      exact hs z hz
    · exact hs z hz
  cases a with
  | ends e => cases h
  | setpgid group => cases h; exact hupdate _ _ (fun _ => rfl) (fun _ => rfl)
  | closesOut => cases h; exact hupdate _ _ (fun _ => rfl) (fun _ => rfl)
  | closesErr => cases h; exact hupdate _ _ (fun _ => rfl) (fun _ => rfl)
  | hands receiver => cases h; exact hupdate _ _ (fun _ => rfl) (fun _ => rfl)
  | forks child =>
    rw [Family.acts] at h
    split at h
    · cases h
    · cases h
      intro y hy hbegun
      rcases List.mem_cons.mp hy with rfl | hy
      · exact absurd (hbegun.symm.trans hstart) (by decide)
      · exact hs y hy hbegun
  | writesOut d =>
    rw [Family.acts] at h
    split at h <;> cases h
    exact hs
  | writesErr d =>
    rw [Family.acts] at h
    split at h <;> cases h
    exact hs

theorem begun_step {e : Event} (h : s.step limits pid workerGroup e = some t)
    (hs : Begun pid s) : Begun pid t := by
  cases e with
  | tick d =>
    cases h
    exact hs
  | kills usage =>
    obtain ⟨-, rfl⟩ := kills_eq_some h
    exact fun x hx => hs x (List.mem_filter.mp hx).1
  | parent a =>
    obtain ⟨-, m, -, rfl⟩ := parent_eq_some h
    by_cases hfork : s.monitor.pc = .fork ∧ a = .ok true
    · have hafter : (s.after pid workerGroup a).procs = [forked pid workerGroup] := by
        simp only [Family.after, hfork.1, hfork.2]
      intro x hx _
      have hx' : x ∈ (s.after pid workerGroup a).procs := hx
      rw [hafter, List.mem_singleton] at hx'
      rw [hx']
      rfl
    · intro x hx
      have hx' : x ∈ (s.after pid workerGroup a).procs := hx
      rw [procs_after hfork] at hx'
      exact hs x hx'
  | act p a =>
    have hact : s.act pid p a = some t := h
    unfold Family.act at hact
    split at hact
    · cases hact
    next x hx =>
    split at hact
    · cases hact
      exact fun y hy => hs y (List.mem_filter.mp hy).1
    split at hact
    · split at hact
      · split at hact
        · cases hact
          intro y hy
          obtain ⟨z, hz, rfl⟩ := List.mem_map.mp hy
          split
          · intro hbegun
            cases hbegun
          · exact hs z hz
        · cases hact
      · cases hact
    · next hstart => exact begun_acts (by simpa using hstart) hact hs

theorem begun_run {es : List Event} (h : Lib.run (Family.step limits pid workerGroup) {} es = some s) :
    Begun pid s :=
  run_invariant (Begun pid) h (fun _ hx => absurd hx List.not_mem_nil) fun _ _ _ hm he =>
    begun_step he hm

theorem proc?_of_mem {x : Proc} (hs : Coherent pid s) (hx : x ∈ s.procs) :
    s.proc? x.pid = some x := by
  cases hfound : s.proc? x.pid with
  | none =>
    rw [Family.proc?, List.find?_eq_none] at hfound
    exact absurd (decide_eq_true rfl) (hfound x hx)
  | some y =>
    obtain ⟨hy, hpid⟩ := mem_of_proc? hfound
    rw [List.inj_on_of_nodup_map hs.nodup hy hx hpid]

theorem step_acts {x : Proc} {a : Act} (hs : Coherent pid s) (hx : x ∈ s.procs)
    (hstart : x.starting = false) (ha : ∀ e, a ≠ .ends e) :
    s.step limits pid workerGroup (.act x.pid a) = s.acts pid x a := by
  show s.act pid x.pid a = _
  rw [Family.act, proc?_of_mem hs hx]
  cases a with
  | ends e => exact absurd rfl (ha e)
  | _ => simp only [hstart, Bool.false_eq_true, if_false]

theorem step_ends {x : Proc} {e : Ended} (hs : Coherent pid s) (hx : x ∈ s.procs) :
    s.step limits pid workerGroup (.act x.pid (.ends e)) = some (s.ends pid x.pid e) := by
  show s.act pid x.pid (.ends e) = _
  rw [Family.act, proc?_of_mem hs hx]

theorem clears_act (p : Nat) (a : Act) : Clears pid s (.act p a) := by
  unfold Clears
  split
  · next heq => cases heq
  · next heq => cases heq
  · trivial

/-- The run can go on, with steps that clear, to a return that leaves somebody behind. -/
def Outlives (limits : SandboxLimits) (pid workerGroup : Nat) (s : Family) : Prop :=
  ∃ fs u o, Lib.run (Family.step limits pid workerGroup) s fs = some u ∧
    AllClear limits pid workerGroup s fs ∧ u.monitor.pc = .returned o ∧ u.procs ≠ []

theorem Outlives.of_run {es : List Event}
    (h : Lib.run (Family.step limits pid workerGroup) s es = some t)
    (hes : AllClear limits pid workerGroup s es) (ht : Outlives limits pid workerGroup t) :
    Outlives limits pid workerGroup s := by
  obtain ⟨fs, u, o, hu, hfs, hpc, hprocs⟩ := ht
  exact ⟨es ++ fs, u, o, run_append_iff.mpr ⟨t, h, hu⟩, allSteps_append h hes hfs, hpc, hprocs⟩

theorem Outlives.of_step {e : Event} (h : s.step limits pid workerGroup e = some t)
    (he : Clears pid s e) (ht : Outlives limits pid workerGroup t) :
    Outlives limits pid workerGroup s := by
  have hrun : Lib.run (Family.step limits pid workerGroup) s [e] = some t :=
    run_cons_iff.mpr ⟨t, h, rfl⟩
  exact .of_run hrun (allSteps_cons h he trivial) ht

theorem step_close {x : PipeEnd} {ends : List PipeEnd} {next : Afterwards}
    (hpc : s.monitor.pc = .closing (x :: ends) next) :
    s.step limits pid workerGroup (.parent .done) =
      some { s with monitor :=
        { s.monitor with pc := if ends = [] then next.pc else .closing ends next } } := by
  rw [parent_eq (by simp only [Family.answers, hpc]) (by simp only [returns, hpc]; rfl)]
  simp only [Family.after, hpc]

theorem step_wait4 {child : Child} {status : Nat} {usage : Rusage} (hpc : s.monitor.pc = .wait4)
    (hwait : s.monitor.child.wait = some (child, status, usage)) :
    ∃ o t, s.step limits pid workerGroup (.parent .done) = some t ∧ t.monitor.pc = .returned o ∧
      t.procs = s.procs := by
  refine ⟨_, _, parent_eq (by simp only [Family.answers, hpc])
    (by simp only [returns, hpc, hwait, Option.map_some]; rfl), rfl, ?_⟩
  simp only [Family.after, hpc]

theorem clears_of_pc (hpoll : s.monitor.pc ≠ .poll) (hkill : s.monitor.pc ≠ .killGroup)
    (e : Event) : Clears pid s e := by
  unfold Clears
  split
  · next hpc => exact absurd hpc hpoll
  · next hpc => exact absurd hpc hkill
  · trivial

/-- After the loop the parent closes two descriptors and waits for a child that has
ended. -/
theorem outlives_collect (hpc : s.monitor.pc = .closing [.outRead, .errRead] .collect)
    (hchild : s.monitor.child ≠ .running) (hprocs : s.procs ≠ []) :
    Outlives limits pid workerGroup s := by
  obtain ⟨⟨child, status, usage⟩, hwait⟩ : ∃ w, s.monitor.child.wait = some w := by
    cases hc : s.monitor.child with
    | running => exact absurd hc hchild
    | _ => exact ⟨_, rfl⟩
  refine .of_step (step_close hpc) (clears_of_pc (by simp [hpc]) (by simp [hpc]) _) ?_
  rw [if_neg (by decide)]
  refine .of_step (step_close rfl) (clears_of_pc (by simp) (by simp) _) ?_
  rw [if_pos rfl]
  obtain ⟨o, t, ht, hreturned, hsame⟩ := @step_wait4 limits pid workerGroup
    { s with monitor := { s.monitor with pc := .wait4 } } _ _ _ rfl hwait
  refine ⟨[.parent .done], t, o, run_cons_iff.mpr ⟨t, ht, rfl⟩, ?_, hreturned, ?_⟩
  · refine allSteps_cons ht (clears_of_pc ?_ ?_ _) trivial
    · intro h; cases h
    · intro h; cases h
  · rw [hsame]
    exact hprocs

/-- The process keeps still: it has closed its ends of the pipes. -/
def Still (q : Nat) (s : Family) : Prop :=
  ∃ x ∈ s.procs, x.pid = q ∧ x.out = false ∧ x.err = false

theorem mem_update {q : Nat} {f : Proc → Proc} {x : Proc} (hx : x ∈ s.procs) (hq : x.pid = q) :
    f x ∈ (s.update q f).procs :=
  List.mem_map.mpr ⟨x, hx, if_pos hq⟩

theorem exists_still {x : Proc} (hs : Coherent pid s) (hx : x ∈ s.procs)
    (hstart : x.starting = false) :
    ∃ es t, Lib.run (Family.step limits pid workerGroup) s es = some t ∧
      AllClear limits pid workerGroup s es ∧ Coherent pid t ∧ t.monitor = s.monitor ∧
      Still x.pid t := by
  have h₁ := @step_acts limits pid workerGroup s x .closesOut hs hx hstart (by intro e h; cases h)
  have hs₁ := coherent_step h₁ hs
  have hx₁ := @mem_update s x.pid (fun y => { y with out := false }) x hx rfl
  have h₂ := @step_acts limits pid workerGroup _ _ .closesErr hs₁ hx₁ hstart
    (by intro e h; cases h)
  have hx₂ := @mem_update _ x.pid (fun y => { y with err := false }) _ hx₁ rfl
  refine ⟨[.act x.pid .closesOut, .act x.pid .closesErr], _,
    run_cons_iff.mpr ⟨_, h₁, run_cons_iff.mpr ⟨_, h₂, rfl⟩⟩, ?_, coherent_step h₂ hs₁, rfl,
    _, hx₂, rfl, rfl, rfl⟩
  exact allSteps_cons h₁ (clears_act _ _) (allSteps_cons h₂ (clears_act _ _) trivial)

theorem exists_alone {q : Nat} (hs : Coherent pid s) (hchild : s.monitor.child ≠ .running)
    (hstill : Still q s) :
    ∃ es t, Lib.run (Family.step limits pid workerGroup) s es = some t ∧
      AllClear limits pid workerGroup s es ∧
      (Coherent pid t ∧ t.monitor = s.monitor ∧ Still q t) ∧
      (t.procs.filter fun x => x.pid ≠ q).length = 0 := by
  refine exists_run_of_lt
    (fun t : Family => Coherent pid t ∧ t.monitor = s.monitor ∧ Still q t)
    (fun t : Family => (t.procs.filter fun x => x.pid ≠ q).length) ?_ ⟨hs, rfl, hstill⟩
  intro u ⟨hu, hmonitor, y, hy, hyq, hyout, hyerr⟩ hlen
  obtain ⟨z, hz⟩ := List.exists_mem_of_length_pos hlen
  obtain ⟨hz, hzq⟩ := List.mem_filter.mp hz
  have hzq' : z.pid ≠ q := by simpa using hzq
  have hzpid : z.pid ≠ pid := by
    intro hpid
    have hrun := hu.running.mp ⟨z, hz, hpid⟩
    rw [hmonitor] at hrun
    exact hchild hrun
  have hstep := @step_ends limits pid workerGroup u z (.exited 0 {}) hu hz
  refine ⟨_, _, hstep, clears_act _ _, ⟨coherent_step hstep hu, ?_, ?_⟩, ?_⟩
  · show (if z.pid = pid then _ else u.monitor) = s.monitor
    rw [if_neg hzpid]
    exact hmonitor
  · refine ⟨y, List.mem_filter.mpr ⟨hy, ?_⟩, hyq, hyout, hyerr⟩
    have hne : y.pid ≠ z.pid := by
      intro h
      exact hzq' (h.symm.trans hyq)
    simpa using hne
  · show ((u.procs.filter fun x => x.pid ≠ z.pid).filter fun x => x.pid ≠ q).length < _
    rw [List.filter_comm]
    refine List.length_filter_lt_length_iff_exists.mpr ⟨z, List.mem_filter.mpr ⟨hz, hzq⟩, ?_⟩
    simp

theorem step_eofOut (hpc : s.monitor.pc = .drainOut) (hempty : s.outBuf.length = 0)
    (hnone : ∀ y ∈ s.procs, y.out = false) :
    ∃ t, s.step limits pid workerGroup (.parent (.data [])) = some t ∧
      t.monitor.pc = .drainErr ∧ t.procs = s.procs := by
  have hnil := List.length_eq_zero_iff.mp hempty
  refine ⟨_, parent_eq ?_ (by simp only [returns, hpc, if_true]; rfl), rfl, ?_⟩
  · simp [Family.answers, hpc, outReadable_iff.mpr (.inr hnone), hnil]
  · rw [after_out _ (.inl hpc)]

theorem step_eofErr (hpc : s.monitor.pc = .drainErr) (hempty : s.errBuf.length = 0)
    (hnone : ∀ y ∈ s.procs, y.err = false) :
    ∃ t, s.step limits pid workerGroup (.parent (.data [])) = some t ∧
      t.monitor.pc = .closing [.outRead, .errRead] .collect ∧ t.procs = s.procs := by
  have hnil := List.length_eq_zero_iff.mp hempty
  refine ⟨_, parent_eq ?_ (by simp only [returns, hpc, if_true]; rfl), rfl, ?_⟩
  · simp [Family.answers, hpc, errReadable_iff.mpr (.inr hnone), hnil]
  · rw [after_err _ (.inl hpc)]

theorem not_running_of_procs (hs : Coherent pid s) (ht : Coherent pid t) (hprocs : t.procs = s.procs)
    (hchild : s.monitor.child ≠ .running) : t.monitor.child ≠ .running := by
  intro hrun
  have hin := ht.running.mpr hrun
  rw [hprocs] at hin
  exact hchild (hs.running.mp hin)

theorem coherent_of_run {es : List Event}
    (h : Lib.run (Family.step limits pid workerGroup) s es = some t) (hs : Coherent pid s) :
    Coherent pid t :=
  run_invariant (Coherent pid) h hs fun _ _ _ hm he => coherent_step he hm

/-- Where nobody holds a write end, the draining comes to its end. -/
theorem outlives_eof (hpc : s.monitor.pc = .drainOut) (hs : Coherent pid s)
    (hchild : s.monitor.child ≠ .running) (hnone : s.NoWriter) (hprocs : s.procs ≠ []) :
    Outlives limits pid workerGroup s := by
  have hdrain : ∀ u e, u.monitor.pc = .drainOut ∨ u.monitor.pc = .drainErr → Clears pid u e := by
    intro u e hu
    apply clears_of_pc <;> rcases hu with hu | hu <;> rw [hu] <;> intro h <;> cases h
  obtain ⟨es, t, ht, hes, ⟨hpct, hprocst, -⟩, hempty⟩ :=
    @exists_outBuf_nil limits pid workerGroup s (Clears pid) (fun u e hu => hdrain u e (.inl hu)) hpc
  refine .of_run ht hes ?_
  obtain ⟨t₁, h₁, hpc₁, hprocs₁⟩ := @step_eofOut limits pid workerGroup t hpct hempty
    (by rw [hprocst]; exact fun y hy => (hnone y hy).1)
  refine .of_step h₁ (hdrain t _ (.inl hpct)) ?_
  obtain ⟨fs, u, hu, hfs, ⟨hpcu, hprocsu⟩, hempty'⟩ :=
    @exists_errBuf_nil limits pid workerGroup t₁ (Clears pid) (fun u e hu => hdrain u e (.inr hu)) hpc₁
  refine .of_run hu hfs ?_
  have hsame : u.procs = s.procs := hprocsu.trans (hprocs₁.trans hprocst)
  obtain ⟨u₁, h₂, hpc₂, hprocs₂⟩ := @step_eofErr limits pid workerGroup u hpcu hempty'
    (by rw [hsame]; exact fun y hy => (hnone y hy).2)
  refine .of_step h₂ (hdrain u _ (.inr hpcu)) ?_
  have hcoherent : Coherent pid u₁ := coherent_step h₂ (coherent_of_run hu
    (coherent_step h₁ (coherent_of_run ht hs)))
  refine outlives_collect hpc₂ (not_running_of_procs hs hcoherent (hprocs₂.trans hsame) hchild) ?_
  rw [hprocs₂, hsame]
  exact hprocs

/-- **A process that is left at an ordinary exit** can outlive the run. -/
theorem outlives_drain (hpc : s.monitor.pc = .drainOut) (hs : Coherent pid s)
    (hchild : s.monitor.child ≠ .running) (hbegun : Begun pid s) (hprocs : s.procs ≠ []) :
    Outlives limits pid workerGroup s := by
  obtain ⟨x, hx⟩ := List.exists_mem_of_ne_nil _ hprocs
  have hstart : x.starting = false := by
    rw [Bool.eq_false_iff]
    intro hstart
    exact hchild (hs.running.mp ⟨x, hx, hbegun x hx hstart⟩)
  obtain ⟨es, t, ht, hes, hcoherent, hmonitor, hstill⟩ :=
    @exists_still limits pid workerGroup s x hs hx hstart
  refine .of_run ht hes ?_
  rw [← hmonitor] at hpc hchild
  obtain ⟨fs, u, hu, hfs, ⟨hcoherent', hmonitor', hstill'⟩, halone⟩ :=
    @exists_alone limits pid workerGroup t x.pid hcoherent hchild hstill
  refine .of_run hu hfs ?_
  rw [← hmonitor'] at hpc hchild
  -- the process is the only one now, and it has no write end
  obtain ⟨y, hy, hypid, hyout, hyerr⟩ := hstill'
  have honly : ∀ z ∈ u.procs, z = y := by
    intro z hz
    have hzpid : z.pid = x.pid := by
      rw [List.length_eq_zero_iff, List.filter_eq_nil_iff] at halone
      simpa using halone z hz
    exact List.inj_on_of_nodup_map hcoherent'.nodup hz hy (hzpid.trans hypid.symm)
  refine outlives_eof hpc hcoherent' hchild ?_ (List.ne_nil_of_mem hy)
  intro z hz
  rw [honly z hz]
  exact ⟨hyout, hyerr⟩

theorem exists_above : ∀ l : List Nat, ∃ q, ∀ p ∈ l, p < q := by
  intro l
  induction l with
  | nil => exact ⟨0, fun p hp => absurd hp List.not_mem_nil⟩
  | cons a l ih =>
    obtain ⟨q, hq⟩ := ih
    refine ⟨max q (a + 1), ?_⟩
    intro p hp
    rcases List.mem_cons.mp hp with rfl | hp
    · omega
    · have := hq p hp
      omega

/-- The child calls `setpgid`, if it still has to. -/
theorem exists_begun {x : Proc} (hs : Coherent pid s) (hx : x ∈ s.procs) (hpid : x.pid = pid) :
    ∃ es t y, Lib.run (Family.step limits pid workerGroup) s es = some t ∧
      AllClear limits pid workerGroup s es ∧ Coherent pid t ∧ t.monitor = s.monitor ∧
      y ∈ t.procs ∧ y.pid = pid ∧ y.starting = false := by
  cases hstart : x.starting with
  | false => exact ⟨[], s, x, rfl, trivial, hs, rfl, hx, hpid, hstart⟩
  | true =>
    have hstep : s.step limits pid workerGroup (.act x.pid (.setpgid x.pid)) =
        some (s.update x.pid fun y => { y with group := x.pid, starting := false }) := by
      show s.act pid x.pid (.setpgid x.pid) = _
      rw [Family.act, proc?_of_mem hs hx]
      simp only [hstart, if_true]
    refine ⟨[.act x.pid (.setpgid x.pid)], _, _, run_cons_iff.mpr ⟨_, hstep, rfl⟩, ?_,
      coherent_step hstep hs, rfl,
      mem_update (f := fun y => { y with group := x.pid, starting := false }) hx rfl, hpid, rfl⟩
    exact allSteps_cons hstep (clears_act _ _) trivial

theorem exists_orphan {x : Proc} (hs : Coherent pid s) (hx : x ∈ s.procs) (hpid : x.pid = pid)
    (hstart : x.starting = false) :
    ∃ es t, Lib.run (Family.step limits pid workerGroup) s es = some t ∧
      AllClear limits pid workerGroup s es ∧ t.monitor.pc = s.monitor.pc ∧
      t.monitor.child ≠ .running ∧ t.procs ≠ [] := by
  obtain ⟨q, hq⟩ := exists_above (pid :: s.procs.map Proc.pid)
  have hqpid : q ≠ pid := by
    have := hq pid List.mem_cons_self
    omega
  have hfresh : s.proc? q = none := by
    rw [Family.proc?, List.find?_eq_none]
    intro y hy heq
    have := hq y.pid (List.mem_cons_of_mem _ (List.mem_map_of_mem hy))
    have heq' : y.pid = q := by simpa using heq
    omega
  have h₁ : s.step limits pid workerGroup (.act x.pid (.forks q)) =
      some { s with procs := { x with pid := q } :: s.procs } := by
    rw [step_acts hs hx hstart (by intro e h; cases h), Family.acts, hfresh,
      if_neg (by simp [hqpid])]
  have hs₁ := coherent_step h₁ hs
  have hx₁ : x ∈ ({ s with procs := { x with pid := q } :: s.procs } : Family).procs :=
    List.mem_cons_of_mem _ hx
  have h₂ := @step_ends limits pid workerGroup _ x (.exited 0 {}) hs₁ hx₁
  refine ⟨[.act x.pid (.forks q), .act x.pid (.ends (.exited 0 {}))], _,
    run_cons_iff.mpr ⟨_, h₁, run_cons_iff.mpr ⟨_, h₂, rfl⟩⟩, ?_, ?_, ?_, ?_⟩
  · exact allSteps_cons h₁ (clears_act _ _) (allSteps_cons h₂ (clears_act _ _) trivial)
  · unfold Family.ends
    dsimp only
    split <;> rfl
  · show (if x.pid = pid then _ else s.monitor).child ≠ .running
    rw [if_pos hpid]
    intro h
    cases h
  · refine List.ne_nil_of_mem (List.mem_filter.mpr ⟨List.mem_cons_self, ?_⟩)
    rw [hpid]
    simpa using hqpid

/-- **A process that is not in the group** can outlive the kill. -/
theorem outlives_kill (hpc : s.monitor.pc = .closing [.outRead, .errRead] .collect)
    (hs : Coherent pid s) (hprocs : s.procs ≠ []) : Outlives limits pid workerGroup s := by
  by_cases hchild : s.monitor.child = .running
  · -- the child itself is not in it, and `wait4` waits for it
    obtain ⟨x, hx, hpid⟩ := hs.running.mpr hchild
    obtain ⟨es, t, y, ht, hes, hcoherent, hmonitor, hy, hypid, hstart⟩ :=
      @exists_begun limits pid workerGroup s x hs hx hpid
    obtain ⟨fs, u, hu, hfs, hpcu, hchildu, hprocsu⟩ :=
      @exists_orphan limits pid workerGroup t y hcoherent hy hypid hstart
    refine .of_run ht hes (.of_run hu hfs (outlives_collect ?_ hchildu hprocsu))
    rw [hpcu, hmonitor, hpc]
  · exact outlives_collect hpc hchild hprocs

/-- **After a step that does not clear** somebody can be left at the return. -/
theorem survivor_of_not_clears {e : Event} (h : s.step limits pid workerGroup e = some t)
    (hs : Coherent pid s) (hbegun : Begun pid s) (hclears : ¬ Clears pid s e) :
    Outlives limits pid workerGroup t := by
  have ht := coherent_step h hs
  have htbegun := begun_step h hbegun
  unfold Clears at hclears
  split at hclears
  · next a hpc =>
    rw [Classical.not_imp] at hclears
    obtain ⟨hw, hprocs⟩ := hclears
    obtain rfl := parent_reaps h hpc hw
    exact outlives_drain rfl ht (not_running_of_poll hw) htbegun hprocs
  · next usage hpc =>
    obtain ⟨x, hx⟩ := not_forall.mp hclears
    rw [Classical.not_imp] at hx
    obtain ⟨-, rfl⟩ := kills_eq_some h
    refine outlives_kill rfl ht (List.ne_nil_of_mem (List.mem_filter.mpr ⟨hx.1, ?_⟩))
    simpa using hx.2
  · exact absurd trivial hclears

/-- **When a run leaves nobody behind.**  In a run whose steps all clear, no process is left
at the return.  After a next step, this stays so exactly when that step clears as well. -/
theorem survivors_iff {es : List Event}
    (h : Lib.run (Family.step limits pid workerGroup) {} es = some s)
    (hclear : AllClear limits pid workerGroup {} es) :
    (∀ o, s.monitor.pc = .returned o → s.procs = []) ∧
      ∀ e t, s.step limits pid workerGroup e = some t →
        ((∀ fs u o, Lib.run (Family.step limits pid workerGroup) t fs = some u →
          AllClear limits pid workerGroup t fs → u.monitor.pc = .returned o → u.procs = []) ↔
            Clears pid s e) := by
  have hvacant : Vacant s := vacant_run h hclear (rfl : ([] : List Proc) = [])
  refine ⟨fun o hpc => procs_of_returned hvacant hpc, ?_⟩
  intro e t ht
  constructor
  · intro hnever
    by_contra hnot
    obtain ⟨fs, u, o, hu, hfs, hpc, hprocs⟩ :=
      survivor_of_not_clears ht (coherent_run h) (begun_run h) hnot
    exact hprocs (hnever fs u o hu hfs hpc)
  · intro hm fs u o hu hfs hpc
    exact procs_of_returned (vacant_run hu hfs (vacant_step ht hm hvacant)) hpc

/-! ### A daemon -/

def collects : List Event :=
  [.parent (.data []), .parent (.data []), .parent .done, .parent .done, .parent .done]

/-- The child leaves a process behind that has closed its ends of the pipes, and exits. -/
def leavesDaemon : List Event :=
  started ++ [.act 2 (.forks 3), .act 3 .closesOut, .act 3 .closesErr] ++ exits ++ collects

/-- The child forks, the other process goes over to a group of its own, and the time is
over. -/
def leavesInOwnGroup : List Event :=
  started ++ [.act 2 (.forks 3), .act 3 (.setpgid 3), .tick 3000000000,
    .parent (.time 3000000000), .kills {}, .parent .done, .parent .done, .parent .done]

/-- **A run that leaves a process behind**, at either exit. -/
theorem outlives :
    (∃ s, Lib.run (Family.step {} 2 1) {} leavesDaemon = some s ∧
      s.monitor.pc = .returned (.ended ⟨false, [], [], 0, {}⟩) ∧ s.procs.map Proc.pid = [3]) ∧
    ∃ s o, Lib.run (Family.step {} 2 1) {} leavesInOwnGroup = some s ∧
      s.monitor.pc = .returned (.ended o) ∧ o.timedOut = true ∧ s.procs.map Proc.pid = [3] :=
  ⟨⟨_, rfl, rfl, rfl⟩, ⟨_, _, rfl, rfl, rfl, rfl⟩⟩

theorem survivors_iff_exits :
    ∃ s o, Lib.run (Family.step {} 2 1) {} (started ++ exits ++ collects) = some s ∧
      s.monitor.pc = .returned o ∧ s.procs = [] := by
  refine ⟨_, _, rfl, rfl,
    (@survivors_iff {} 2 1 _ (started ++ exits ++ collects) rfl ?_).1 _ rfl⟩
  iterate 10 refine allSteps_cons rfl trivial ?_
  -- the child is reaped when nobody is left
  refine allSteps_cons rfl (fun _ => rfl) ?_
  iterate 5 refine allSteps_cons rfl trivial ?_
  trivial

end Ocpe.Sandbox
