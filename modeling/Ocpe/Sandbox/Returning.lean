import Ocpe.Sandbox.Family

/-!
# When a run returns

The loop of `Sandbox::run` watches a deadline.  What comes after it does not: the two
loops that drain the pipes, and the `wait4` at the end.

* `Stuck`: the parent stands at a call that does not return as long as no process does
  anything, and a process may do nothing for ever.
* `Meets`: a step is taken in time.  When the child is reaped nobody is left who holds a
  write end, and when the group is killed the child is in it.
* `safe_run`: in a run whose steps are all taken in time the parent is never stuck.
* `stuck_of_not_meets`: after a step that is not, it can be.
* `left_run`: past the deadline the parent makes a bounded number of calls.
* `returns_iff`: the three together.

A child that leaves a sleeper behind, and one that leaves its group, hold the parent up
for ever: `waits_for_ever`.
-/

namespace Ocpe.Sandbox

open Lib

def Event.ofParent : Event → Bool
  | .parent _ => true
  | .kills _ => true
  | .act .. => false
  | .tick _ => false

def Family.NoWriter (s : Family) : Prop := ∀ x ∈ s.procs, x.out = false ∧ x.err = false

/-- A condition on the steps: the two of the parent that end the loop are taken in time. -/
def Meets (pid : Nat) (s : Family) (e : Event) : Prop :=
  match s.monitor.pc, e with
  | .poll, .parent _ => s.monitor.child.poll.2 = true → s.NoWriter
  | .killGroup, .kills _ => ∀ x ∈ s.procs, x.pid = pid → x.group = pid
  | _, _ => True

section Definitions

variable (limits : SandboxLimits) (pid workerGroup : Nat)

/-- **The call need not return**: it cannot as long as the processes do nothing. -/
def Stuck (s : Family) : Prop :=
  (∀ o, s.monitor.pc ≠ .returned o) ∧
    ∀ e, e.ofParent = true → s.step limits pid workerGroup e = none

def AllMeet : Family → List Event → Prop :=
  AllSteps (Family.step limits pid workerGroup) (Meets pid)

end Definitions

variable {limits : SandboxLimits} {pid workerGroup : Nat} {s t : Family}

/-! ### Nobody gets a write end from nobody -/

section Acts

variable {x : Proc}

theorem holder_acts {hold : Proc → Bool} (hhold : hold = Proc.out ∨ hold = Proc.err)
    (hx : x ∈ s.procs) (h : ActsAs pid s x t) (hs : ∀ y ∈ s.procs, hold y = false) :
    ∀ y ∈ t.procs, hold y = false := by
  cases h with
  | ends e => exact fun y hy => hs y (List.mem_filter.mp hy).1
  | update q f hf =>
    intro y hy
    obtain ⟨z, hz, rfl⟩ := List.mem_map.mp hy
    split
    · rw [Bool.eq_false_iff]
      intro hheld
      have hfalse : hold z = true ∨ hold x = true := by
        rcases hhold with rfl | rfl
        · exact hf.out z hheld
        · exact hf.err z hheld
      rw [hs z hz, hs x hx] at hfalse
      rcases hfalse with h | h <;> cases h
    · exact hs z hz
  | forks q =>
    intro y hy
    rcases List.mem_cons.mp hy with rfl | hy
    · have hsame : hold { x with pid := q } = hold x := by rcases hhold with rfl | rfl <;> rfl
      rw [hsame]
      exact hs x hx
    · exact hs y hy
  | writesOut d => exact hs
  | writesErr d => exact hs

theorem noWriter_acts (hx : x ∈ s.procs) (h : ActsAs pid s x t) (hs : s.NoWriter) : t.NoWriter :=
  fun y hy =>
    ⟨holder_acts (.inl rfl) hx h (fun z hz => (hs z hz).1) y hy,
      holder_acts (.inr rfl) hx h (fun z hz => (hs z hz).2) y hy⟩

theorem outReadable_iff :
    s.outReadable = true ↔ s.outBuf ≠ [] ∨ ∀ y ∈ s.procs, y.out = false := by
  simp [Family.outReadable]

theorem errReadable_iff :
    s.errReadable = true ↔ s.errBuf ≠ [] ∨ ∀ y ∈ s.procs, y.err = false := by
  simp [Family.errReadable]

theorem outReadable_acts (hx : x ∈ s.procs) (h : ActsAs pid s x t) (hs : s.outReadable = true) :
    t.outReadable = true := by
  rw [outReadable_iff] at hs ⊢
  rcases hs with hbuf | hnone
  · left
    cases h with
    | writesOut d => exact List.append_ne_nil_of_left_ne_nil hbuf _
    | ends e => exact hbuf
    | update q f => exact hbuf
    | forks q => exact hbuf
    | writesErr d => exact hbuf
  · exact .inr (holder_acts (.inl rfl) hx h hnone)

theorem errReadable_acts (hx : x ∈ s.procs) (h : ActsAs pid s x t) (hs : s.errReadable = true) :
    t.errReadable = true := by
  rw [errReadable_iff] at hs ⊢
  rcases hs with hbuf | hnone
  · left
    cases h with
    | writesErr d => exact List.append_ne_nil_of_left_ne_nil hbuf _
    | ends e => exact hbuf
    | update q f => exact hbuf
    | forks q => exact hbuf
    | writesOut d => exact hbuf
  · exact .inr (holder_acts (.inr rfl) hx h hnone)

theorem pc_acts (h : ActsAs pid s x t) :
    t.monitor.pc = s.monitor.pc ∧ t.monitor.deadline = s.monitor.deadline ∧
      (s.monitor.child ≠ .running → t.monitor.child ≠ .running) := by
  cases h with
  | ends e =>
    unfold Family.ends
    dsimp only
    split
    · exact ⟨rfl, rfl, fun _ h => nomatch h⟩
    · exact ⟨rfl, rfl, id⟩
  | update q f => exact ⟨rfl, rfl, id⟩
  | forks q => exact ⟨rfl, rfl, id⟩
  | writesOut d => exact ⟨rfl, rfl, id⟩
  | writesErr d => exact ⟨rfl, rfl, id⟩

end Acts

/-! ### The parent never gets stuck -/

/-- What the place of the parent says of its next calls. -/
def Safe (s : Family) : Prop :=
  match s.monitor.pc with
  | .readOut errReady => s.outReadable = true ∧ (errReady = true → s.errReadable = true)
  | .readErr => s.errReadable = true
  | .drainOut => s.NoWriter ∧ s.monitor.child ≠ .running
  | .drainErr => s.NoWriter ∧ s.monitor.child ≠ .running
  | .closing ends next =>
    (ends ≠ [] ∧ ends.length ≤ 4) ∧ (next = .collect → s.monitor.child ≠ .running)
  | .wait4 => s.monitor.child ≠ .running
  | _ => True

theorem safe_acts {x : Proc} (hx : x ∈ s.procs) (h : ActsAs pid s x t) (hs : Safe s) : Safe t := by
  obtain ⟨hpc, -, hchild⟩ := pc_acts h
  unfold Safe at hs ⊢
  rw [hpc]
  split at hs
  · exact ⟨outReadable_acts hx h hs.1, fun herr => errReadable_acts hx h (hs.2 herr)⟩
  · exact errReadable_acts hx h hs
  · exact ⟨noWriter_acts hx h hs.1, hchild hs.2⟩
  · exact ⟨noWriter_acts hx h hs.1, hchild hs.2⟩
  · exact ⟨hs.1, fun hnext => hchild (hs.2 hnext)⟩
  · exact hchild hs
  · exact hs

theorem not_running_of_poll {c : Child} (h : c.poll.2 = true) : c.poll.1 ≠ .running := by
  obtain ⟨e, he⟩ := reaped_of_poll h
  rw [he]
  exact fun h => nomatch h

theorem safe_parent {a : Answer} (h : s.parent limits pid workerGroup a = some t)
    (hmeets : Meets pid s (.parent a)) (hs : Safe s) : Safe t := by
  obtain ⟨hanswers, m, hm, rfl⟩ := parent_eq_some h
  unfold returns at hm
  split at hm
  · cases hm; split <;> trivial
  · cases hm; split <;> trivial
  · split at hm
    · cases hm; exact ⟨by decide, fun h => nomatch h⟩
    · cases hm; exact ⟨by decide, fun h => nomatch h⟩
  · next ends next hpc =>
    rw [Safe, hpc] at hs
    rw [after_quiet (by rw [hpc]; trivial)]
    cases hm
    by_cases hends : ends = []
    · rw [if_pos hends]
      cases next with
      | giveUp => trivial
      | startClock => trivial
      | collect => exact hs.2 rfl
    · rw [if_neg hends]
      have hlen : (ends.length + 1) ≤ 4 := hs.1.2
      exact ⟨⟨hends, by omega⟩, hs.2⟩
  · cases hm; trivial
  · split at hm <;> cases hm <;> trivial
  · next hpc =>
    simp only [Family.answers, hpc, Bool.false_eq_true] at hanswers
  · next out err hpc =>
    simp only [Family.answers, hpc] at hanswers
    rw [after_quiet (by rw [hpc]; trivial)]
    cases hm
    have hready : (out = false ∧ err = false) ∨ (out = s.outReadable ∧ err = s.errReadable) := by
      simpa using hanswers
    by_cases hout : out = true
    · rw [if_pos hout]
      rcases hready with hready | hready
      · exact absurd (hout.symm.trans hready.1) (by decide)
      · exact ⟨hready.1.symm.trans hout, fun herr => hready.2.symm.trans herr⟩
    · rw [if_neg hout]
      by_cases herr : err = true
      · rw [if_pos herr]
        rcases hready with hready | hready
        · exact absurd (herr.symm.trans hready.2) (by decide)
        · exact hready.2.symm.trans herr
      · rw [if_neg herr]
        trivial
  · next errReady d hpc =>
    rw [Safe, hpc] at hs
    rw [after_out _ (.inr ⟨_, hpc⟩)]
    split at hm
    · cases hm
      cases errReady with
      | true => exact hs.2 rfl
      | false => trivial
    · cases hm
  · split at hm
    · cases hm; trivial
    · cases hm
  · next hpc =>
    simp only [Meets, hpc] at hmeets
    rw [after_quiet (by rw [hpc]; trivial)]
    cases hm
    by_cases hw : s.monitor.child.poll.2 = true
    · rw [if_pos hw]
      exact ⟨hmeets hw, not_running_of_poll hw⟩
    · rw [if_neg hw]
      trivial
  · next d hpc =>
    rw [Safe, hpc] at hs
    rw [after_out _ (.inl hpc)]
    split at hm
    · cases hm; exact hs
    · split at hm
      · cases hm
        rw [Safe, hpc]
        exact hs
      · cases hm
  · next d hpc =>
    rw [Safe, hpc] at hs
    rw [after_err _ (.inl hpc)]
    split at hm
    · cases hm; exact ⟨by decide, fun _ => hs.2⟩
    · split at hm
      · cases hm
        rw [Safe, hpc]
        exact hs
      · cases hm
  · obtain ⟨⟨child, status, usage⟩, -, rfl⟩ := Option.map_eq_some_iff.mp hm
    trivial
  · cases hm

theorem safe_step {e : Event} (h : s.step limits pid workerGroup e = some t)
    (hmeets : Meets pid s e) (hcoherent : Coherent pid s) (hs : Safe s) : Safe t := by
  cases e with
  | parent a => exact safe_parent h hmeets hs
  | act p a =>
    obtain ⟨x, hx, -, hacts⟩ := actsAs_of_act h
    exact safe_acts hx hacts hs
  | tick d =>
    cases h
    exact hs
  | kills usage =>
    obtain ⟨hpc, rfl⟩ := kills_eq_some h
    simp only [Meets, hpc] at hmeets
    refine ⟨by decide, fun _ => ?_⟩
    show (if s.inGroup pid then Child.zombie _ else s.monitor.child) ≠ .running
    split
    · intro hrun
      cases hrun
    · next hin =>
      -- a child that is not in the group is not in the table at all
      intro hrun
      obtain ⟨x, hx, hpid⟩ := hcoherent.running.mpr hrun
      exact hin (inGroup_iff.mpr ⟨x, hx, hpid, hmeets x hx hpid⟩)

/-- **In a run whose steps are all taken in time** every place is safe. -/
theorem safe_run {es : List Event} (h : Lib.run (Family.step limits pid workerGroup) s es = some t)
    (hmeets : AllMeet limits pid workerGroup s es) (hcoherent : Coherent pid s) (hs : Safe s) :
    Coherent pid t ∧ Safe t := by
  refine run_invariant_steps (fun s => Coherent pid s ∧ Safe s) h hmeets ⟨hcoherent, hs⟩ ?_
  rintro u e v ⟨hu, hsafe⟩ hm he
  exact ⟨coherent_step he hu, safe_step he hm hu hsafe⟩

theorem parent_eq {a : Answer} {m : Monitor} (hanswers : s.answers a = true)
    (hm : returns limits s.monitor a = some m) :
    s.step limits pid workerGroup (.parent a) =
      some { s.after pid workerGroup a with monitor := m } := by
  show s.parent limits pid workerGroup a = _
  rw [Family.parent, if_pos hanswers, hm]
  rfl

theorem not_stuck_of {e : Event} (he : e.ofParent = true)
    (h : (s.step limits pid workerGroup e).isSome = true) : ¬ Stuck limits pid workerGroup s := by
  rintro ⟨-, hstuck⟩
  rw [hstuck e he] at h
  cases h

theorem not_stuck_of_answer {a : Answer} (hanswers : s.answers a = true)
    (h : (returns limits s.monitor a).isSome = true) : ¬ Stuck limits pid workerGroup s := by
  obtain ⟨m, hm⟩ := Option.isSome_iff_exists.mp h
  refine @not_stuck_of limits pid workerGroup s (.parent a) rfl ?_
  rw [parent_eq hanswers hm]
  rfl

/-- **At a safe place the call returns.** -/
theorem not_stuck_of_safe (hs : Safe s) : ¬ Stuck limits pid workerGroup s := by
  have hlen : ∀ d : Bytes, (d.take bufSize).length ≤ bufSize := fun d => List.length_take_le _ _
  cases hpc : s.monitor.pc with
  | pipeOut =>
    apply @not_stuck_of_answer _ _ _ s (.ok true)
    · simp only [Family.answers, hpc]
    · simp only [returns, hpc, Option.isSome_some]
  | pipeErr =>
    apply @not_stuck_of_answer _ _ _ s (.ok true)
    · simp only [Family.answers, hpc]
    · simp only [returns, hpc, Option.isSome_some]
  | fork =>
    apply @not_stuck_of_answer _ _ _ s (.ok false)
    · simp only [Family.answers, hpc]
    · simp [returns, hpc]
  | closing ends next =>
    simp only [Safe, hpc] at hs
    obtain ⟨e, ends, rfl⟩ := List.exists_cons_of_ne_nil hs.1.1
    apply @not_stuck_of_answer _ _ _ s .done
    · simp only [Family.answers, hpc]
    · simp only [returns, hpc, Option.isSome_some]
  | startClock =>
    apply @not_stuck_of_answer _ _ _ s (.time s.now)
    · simp [Family.answers, hpc]
    · simp only [returns, hpc, Option.isSome_some]
  | checkClock =>
    apply @not_stuck_of_answer _ _ _ s (.time s.now)
    · simp [Family.answers, hpc]
    · simp only [returns, hpc]
      split <;> rfl
  | killGroup =>
    apply @not_stuck_of _ _ _ s (.kills {}) rfl
    show (s.kills limits pid {}).isSome = true
    simp [Family.kills, hpc, returns]
  | select =>
    apply @not_stuck_of_answer _ _ _ s (.ready false false)
    · simp [Family.answers, hpc]
    · simp only [returns, hpc, Option.isSome_some]
  | readOut errReady =>
    simp only [Safe, hpc] at hs
    apply @not_stuck_of_answer _ _ _ s (.data (s.outBuf.take bufSize))
    · simp [Family.answers, hpc, hs.1]
    · simp only [returns, hpc, if_pos (hlen _), Option.isSome_some]
  | readErr =>
    simp only [Safe, hpc] at hs
    apply @not_stuck_of_answer _ _ _ s (.data (s.errBuf.take bufSize))
    · simp [Family.answers, hpc, hs]
    · simp only [returns, hpc, if_pos (hlen _), Option.isSome_some]
  | poll =>
    apply @not_stuck_of_answer _ _ _ s .done
    · simp only [Family.answers, hpc]
    · simp only [returns, hpc, Option.isSome_some]
  | drainOut =>
    simp only [Safe, hpc] at hs
    have hready : s.outReadable = true := outReadable_iff.mpr (.inr fun y hy => (hs.1 y hy).1)
    apply @not_stuck_of_answer _ _ _ s (.data (s.outBuf.take bufSize))
    · simp [Family.answers, hpc, hready]
    · simp only [returns, hpc, if_pos (hlen _)]
      split <;> rfl
  | drainErr =>
    simp only [Safe, hpc] at hs
    have hready : s.errReadable = true := errReadable_iff.mpr (.inr fun y hy => (hs.1 y hy).2)
    apply @not_stuck_of_answer _ _ _ s (.data (s.errBuf.take bufSize))
    · simp [Family.answers, hpc, hready]
    · simp only [returns, hpc, if_pos (hlen _)]
      split <;> rfl
  | wait4 =>
    simp only [Safe, hpc] at hs
    apply @not_stuck_of_answer _ _ _ s .done
    · simp only [Family.answers, hpc]
    · simp only [returns, hpc, Option.isSome_map]
      cases hchild : s.monitor.child with
      | running => exact absurd hchild hs
      | absent => rfl
      | zombie e => rfl
      | reaped e => rfl
  | returned o => exact fun h => h.1 o hpc

/-! ### Where the parent gets stuck -/

theorem stuck_of (h : ∀ o, s.monitor.pc ≠ .returned o) (hkill : s.monitor.pc ≠ .killGroup)
    (hcall : ∀ a, s.answers a = true → returns limits s.monitor a = none) :
    Stuck limits pid workerGroup s := by
  refine ⟨h, fun e he => ?_⟩
  cases e with
  | act => cases he
  | tick => cases he
  | kills usage =>
    show s.kills limits pid usage = none
    unfold Family.kills
    split
    · next hpc => exact absurd hpc hkill
    · rfl
  | parent a =>
    show s.parent limits pid workerGroup a = none
    unfold Family.parent
    split
    · next hanswers =>
      rw [hcall a hanswers]
      rfl
    · rfl

theorem stuck_drainOut (hpc : s.monitor.pc = .drainOut) (hready : s.outReadable = false) :
    Stuck limits pid workerGroup s := by
  refine @stuck_of _ _ _ s (by simp [hpc]) (by simp [hpc]) fun a ha => ?_
  cases a with
  | data d => simp [Family.answers, hpc, hready] at ha
  | _ => simp only [returns, hpc]

theorem stuck_drainErr (hpc : s.monitor.pc = .drainErr) (hready : s.errReadable = false) :
    Stuck limits pid workerGroup s := by
  refine @stuck_of _ _ _ s (by simp [hpc]) (by simp [hpc]) fun a ha => ?_
  cases a with
  | data d => simp [Family.answers, hpc, hready] at ha
  | _ => simp only [returns, hpc]

theorem stuck_wait4 (hpc : s.monitor.pc = .wait4) (hchild : s.monitor.child = .running) :
    Stuck limits pid workerGroup s := by
  refine @stuck_of _ _ _ s (by simp [hpc]) (by simp [hpc]) fun a _ => ?_
  cases a with
  | done => simp only [returns, hpc, hchild, Child.wait, Option.map_none]
  | _ => simp only [returns, hpc]

theorem take_bufSize_ne_nil {l : Bytes} (h : l ≠ []) : l.take bufSize ≠ [] := by
  intro hnil
  rcases List.take_eq_nil_iff.mp hnil with hsize | hl
  · cases hsize
  · exact h hl

theorem length_drop_bufSize {l : Bytes} (h : l.take bufSize ≠ []) :
    (l.drop bufSize).length < l.length := by
  have hne : l ≠ [] := by
    intro hnil
    rw [hnil] at h
    exact h rfl
  have hpos := List.length_pos_iff.mpr hne
  have hbuf : 0 < bufSize := by decide
  rw [List.length_drop]
  omega

theorem exists_outBuf_nil {ok : Family → Event → Prop}
    (hok : ∀ u e, u.monitor.pc = .drainOut → ok u e) (hpc : s.monitor.pc = .drainOut) :
    ∃ es t, Lib.run (Family.step limits pid workerGroup) s es = some t ∧
      AllSteps (Family.step limits pid workerGroup) ok s es ∧
      (t.monitor.pc = .drainOut ∧ t.procs = s.procs ∧ t.errBuf = s.errBuf) ∧ t.outBuf.length = 0 := by
  refine exists_run_of_lt
    (fun t : Family => t.monitor.pc = .drainOut ∧ t.procs = s.procs ∧ t.errBuf = s.errBuf)
    (fun t : Family => t.outBuf.length) ?_ ⟨hpc, rfl, rfl⟩
  rintro t ⟨hpc, hprocs, herr⟩ hlen
  have hne : t.outBuf ≠ [] := List.length_pos_iff.mp hlen
  have htake := take_bufSize_ne_nil hne
  have hm : returns limits t.monitor (.data (t.outBuf.take bufSize)) =
      some { t.monitor with stdoutData := t.monitor.stdoutData ++ t.outBuf.take bufSize } := by
    simp only [returns, hpc, if_neg htake, if_pos (List.length_take_le bufSize t.outBuf)]
  refine ⟨.parent (.data (t.outBuf.take bufSize)), _, parent_eq ?_ hm, ?_, ?_, ?_⟩
  · simp [Family.answers, hpc, outReadable_iff.mpr (.inl hne)]
  · exact hok t _ hpc
  · simp only [Family.after, hpc]
    exact ⟨trivial, hprocs, herr⟩
  · simp only [Family.after, hpc]
    exact length_drop_bufSize htake

theorem exists_errBuf_nil {ok : Family → Event → Prop}
    (hok : ∀ u e, u.monitor.pc = .drainErr → ok u e) (hpc : s.monitor.pc = .drainErr) :
    ∃ es t, Lib.run (Family.step limits pid workerGroup) s es = some t ∧
      AllSteps (Family.step limits pid workerGroup) ok s es ∧
      (t.monitor.pc = .drainErr ∧ t.procs = s.procs) ∧ t.errBuf.length = 0 := by
  refine exists_run_of_lt
    (fun t : Family => t.monitor.pc = .drainErr ∧ t.procs = s.procs)
    (fun t : Family => t.errBuf.length) ?_ ⟨hpc, rfl⟩
  rintro t ⟨hpc, hprocs⟩ hlen
  have hne : t.errBuf ≠ [] := List.length_pos_iff.mp hlen
  have htake := take_bufSize_ne_nil hne
  have hm : returns limits t.monitor (.data (t.errBuf.take bufSize)) =
      some { t.monitor with stderrData := t.monitor.stderrData ++ t.errBuf.take bufSize } := by
    simp only [returns, hpc, if_neg htake, if_pos (List.length_take_le bufSize t.errBuf)]
  refine ⟨.parent (.data (t.errBuf.take bufSize)), _, parent_eq ?_ hm, ?_, ?_, ?_⟩
  · simp [Family.answers, hpc, errReadable_iff.mpr (.inl hne)]
  · exact hok t _ hpc
  · simp only [Family.after, hpc]
    exact ⟨trivial, hprocs⟩
  · simp only [Family.after, hpc]
    exact length_drop_bufSize htake

/-- A parent that drains the pipes while somebody holds a write end can get stuck. -/
theorem stuck_of_writer (hpc : s.monitor.pc = .drainOut) (hwriter : ¬ s.NoWriter) :
    ∃ es t, Lib.run (Family.step limits pid workerGroup) s es = some t ∧
      AllMeet limits pid workerGroup s es ∧ Stuck limits pid workerGroup t := by
  obtain ⟨es, t, ht, hes, ⟨hpct, hprocs, -⟩, hnil⟩ :=
    @exists_outBuf_nil limits pid workerGroup s (Meets pid)
      (fun u e hpc => by simp only [Meets, hpc]) hpc
  rw [List.length_eq_zero_iff] at hnil
  by_cases hout : t.outReadable = true
  · -- the writer holds the other pipe
    have hnone : ∀ y ∈ t.procs, y.out = false := by
      rcases outReadable_iff.mp hout with h | h
      · exact absurd hnil h
      · exact h
    have hm : returns limits t.monitor (.data []) = some { t.monitor with pc := .drainErr } := by
      simp only [returns, hpct, if_true]
    have hstep : t.step limits pid workerGroup (.parent (.data [])) =
        some { t.after pid workerGroup (.data []) with monitor := { t.monitor with pc := .drainErr } } := by
      refine parent_eq ?_ hm
      simp [Family.answers, hpct, hout, hnil]
    rw [after_out _ (.inl hpct)] at hstep
    obtain ⟨fs, u, hu, hfs, ⟨hpcu, hprocsu⟩, hnilu⟩ := @exists_errBuf_nil limits pid workerGroup
      { t with outBuf := t.outBuf.drop bufSize, monitor := { t.monitor with pc := .drainErr } }
      (Meets pid) (fun u e hpc => by simp only [Meets, hpc]) rfl
    rw [List.length_eq_zero_iff] at hnilu
    refine ⟨es ++ .parent (.data []) :: fs, u, ?_, ?_, stuck_drainErr hpcu ?_⟩
    · exact run_append_iff.mpr ⟨t, ht, run_cons_iff.mpr ⟨_, hstep, hu⟩⟩
    · exact allSteps_append ht hes (allSteps_cons hstep (by simp only [Meets, hpct]) hfs)
    · rw [Bool.eq_false_iff]
      intro herr
      apply hwriter
      intro y hy
      rw [← hprocs] at hy
      refine ⟨hnone y hy, ?_⟩
      rcases errReadable_iff.mp herr with h | h
      · exact absurd hnilu h
      · exact h y (by rw [hprocsu]; exact hy)
  · exact ⟨es, t, ht, hes, stuck_drainOut hpct (by simpa using hout)⟩

/-- **After a step that is not taken in time** the parent can get stuck. -/
theorem stuck_of_not_meets {e : Event} (h : s.step limits pid workerGroup e = some t)
    (hs : Coherent pid s) (hmeets : ¬ Meets pid s e) :
    ∃ es u, Lib.run (Family.step limits pid workerGroup) t es = some u ∧
      AllMeet limits pid workerGroup t es ∧ Stuck limits pid workerGroup u := by
  unfold Meets at hmeets
  split at hmeets
  · next a hpc =>
    rw [Classical.not_imp] at hmeets
    obtain rfl := parent_reaps h hpc hmeets.1
    exact stuck_of_writer rfl hmeets.2
  · next usage hpc =>
    obtain ⟨x, hx⟩ := not_forall.mp hmeets
    rw [Classical.not_imp, Classical.not_imp] at hx
    obtain ⟨hmem, hpid, hgroup⟩ := hx
    obtain ⟨-, rfl⟩ := kills_eq_some h
    have hin : s.inGroup pid = false := by
      rw [Bool.eq_false_iff]
      intro hin
      obtain ⟨y, hy, hypid, hygroup⟩ := inGroup_iff.mp hin
      have hxy : x = y := List.inj_on_of_nodup_map hs.nodup hmem hy (hpid.trans hypid.symm)
      subst hxy
      exact hgroup hygroup
    have hrun : s.monitor.child = .running := hs.running.mp ⟨x, hmem, hpid⟩
    rw [hin]
    refine ⟨[.parent .done, .parent .done], _, rfl, ?_, stuck_wait4 rfl hrun⟩
    exact allSteps_cons rfl trivial (allSteps_cons rfl trivial trivial)
  · exact absurd trivial hmeets

/-! ### How long it takes -/

/-- The clock has been started. -/
def Pc.Watching : Pc → Prop
  | .pipeOut | .pipeErr | .fork | .startClock => False
  | .closing _ next => next = .collect
  | _ => True

/-- The number of calls up to the end, from a place past the deadline. -/
def Family.left (s : Family) : Nat :=
  match s.monitor.pc with
  | .returned _ => 0
  | .wait4 => 1
  | .closing ends _ => ends.length + 1
  | .killGroup => 4
  | .checkClock => 5
  | .drainErr => s.errBuf.length + 4
  | .drainOut => s.outBuf.length + s.errBuf.length + 5
  | .poll => 2 * pipeCapacity + 6
  | .readErr => 2 * pipeCapacity + 7
  | .readOut _ => 2 * pipeCapacity + 8
  | _ => 2 * pipeCapacity + 9

def Family.Fits (s : Family) : Prop :=
  s.outBuf.length ≤ pipeCapacity ∧ s.errBuf.length ≤ pipeCapacity

structure Late (s : Family) : Prop where
  watching : s.monitor.pc.Watching
  passed : s.monitor.deadline < s.now

theorem left_le (hs : Safe s) (hfits : s.Fits) : s.left ≤ 2 * pipeCapacity + 9 := by
  obtain ⟨hout, herr⟩ := hfits
  unfold Family.left
  split
  · omega
  · omega
  · next ends next hpc =>
    simp only [Safe, hpc] at hs
    omega
  all_goals omega

/-- Past the deadline every call brings the parent nearer to the end. -/
theorem left_parent {a : Answer} (h : s.parent limits pid workerGroup a = some t) (hlate : Late s)
    (hfits : s.Fits) : Late t ∧ t.left < s.left := by
  obtain ⟨hwatching, hover⟩ := hlate
  obtain ⟨hanswers, m, hm, rfl⟩ := parent_eq_some h
  unfold returns at hm
  split at hm
  · next hpc => rw [hpc] at hwatching; cases hwatching
  · next hpc => rw [hpc] at hwatching; cases hwatching
  · next hpc => rw [hpc] at hwatching; cases hwatching
  · next ends next hpc =>
    rw [hpc] at hwatching
    cases hwatching
    rw [after_quiet (by rw [hpc]; trivial)]
    cases hm
    by_cases hends : ends = []
    · subst hends
      refine ⟨⟨trivial, hover⟩, ?_⟩
      simp [Family.left, hpc, Afterwards.pc]
    · rw [if_neg hends]
      refine ⟨⟨rfl, hover⟩, ?_⟩
      simp [Family.left, hpc]
  · next hpc => rw [hpc] at hwatching; cases hwatching
  · next now hpc =>
    simp only [Family.answers, hpc, decide_eq_true_eq] at hanswers
    subst hanswers
    rw [after_quiet (by rw [hpc]; trivial)]
    rw [if_pos hover] at hm
    cases hm
    refine ⟨⟨trivial, hover⟩, ?_⟩
    simp [Family.left, hpc]
  · next hpc => simp only [Family.answers, hpc, Bool.false_eq_true] at hanswers
  · next out err hpc =>
    rw [after_quiet (by rw [hpc]; trivial)]
    cases hm
    refine ⟨⟨?_, hover⟩, ?_⟩
    · dsimp only
      split
      · trivial
      · split <;> trivial
    · simp only [Family.left, hpc]
      cases out <;> cases err <;> simp
  · next errReady d hpc =>
    rw [after_out _ (.inr ⟨_, hpc⟩)]
    split at hm
    · cases hm
      refine ⟨⟨?_, hover⟩, ?_⟩
      · dsimp only
        split <;> trivial
      · simp only [Family.left, hpc]
        cases errReady <;> simp
    · cases hm
  · next d hpc =>
    rw [after_err _ (.inr hpc)]
    split at hm
    · cases hm
      refine ⟨⟨trivial, hover⟩, ?_⟩
      simp [Family.left, hpc]
    · cases hm
  · next hpc =>
    rw [after_quiet (by rw [hpc]; trivial)]
    cases hm
    obtain ⟨hout, herr⟩ := hfits
    by_cases hw : s.monitor.child.poll.2 = true
    · rw [if_pos hw]
      refine ⟨⟨trivial, hover⟩, ?_⟩
      simp only [Family.left, hpc]
      omega
    · rw [if_neg hw]
      refine ⟨⟨trivial, hover⟩, ?_⟩
      simp only [Family.left, hpc]
      omega
  · next d hpc =>
    simp only [Family.answers, hpc, decide_eq_true_eq] at hanswers
    rw [after_out _ (.inl hpc)]
    split at hm
    · cases hm
      refine ⟨⟨trivial, hover⟩, ?_⟩
      simp only [Family.left, hpc]
      omega
    · next hd =>
      split at hm
      · cases hm
        refine ⟨⟨by rw [hpc]; trivial, hover⟩, ?_⟩
        have hshorter := length_drop_bufSize (hanswers.2 ▸ hd)
        simp only [Family.left, hpc]
        omega
      · cases hm
  · next d hpc =>
    simp only [Family.answers, hpc, decide_eq_true_eq] at hanswers
    rw [after_err _ (.inl hpc)]
    split at hm
    · cases hm
      refine ⟨⟨rfl, hover⟩, ?_⟩
      simp [Family.left, hpc]
    · next hd =>
      split at hm
      · cases hm
        refine ⟨⟨by rw [hpc]; trivial, hover⟩, ?_⟩
        have hshorter := length_drop_bufSize (hanswers.2 ▸ hd)
        simp only [Family.left, hpc]
        omega
      · cases hm
  · next hpc =>
    rw [after_quiet (by rw [hpc]; trivial)]
    obtain ⟨⟨child, status, usage⟩, -, rfl⟩ := Option.map_eq_some_iff.mp hm
    refine ⟨⟨trivial, hover⟩, ?_⟩
    simp [Family.left, hpc]
  · cases hm

theorem left_acts {x : Proc} (hx : x ∈ s.procs) (h : ActsAs pid s x t) (hs : Safe s)
    (hlate : Late s) : Late t ∧ t.left ≤ s.left := by
  obtain ⟨hpc, hdeadline, -⟩ := pc_acts h
  have hnow : t.now = s.now := by cases h <;> rfl
  refine ⟨⟨by rw [hpc]; exact hlate.watching, by rw [hdeadline, hnow]; exact hlate.passed⟩, ?_⟩
  · -- in the drain loops nobody is left who could write
    have hsame : s.NoWriter → t.outBuf = s.outBuf ∧ t.errBuf = s.errBuf := by
      intro hnone
      cases h with
      | ends e => exact ⟨rfl, rfl⟩
      | update q f => exact ⟨rfl, rfl⟩
      | forks q => exact ⟨rfl, rfl⟩
      | writesOut d hout => exact absurd (hout.symm.trans (hnone x hx).1) (by decide)
      | writesErr d herr => exact absurd (herr.symm.trans (hnone x hx).2) (by decide)
    unfold Family.left
    rw [hpc]
    split
    case h_6 hpc =>
      simp only [Safe, hpc] at hs
      rw [(hsame hs.1).2]
    case h_7 hpc =>
      simp only [Safe, hpc] at hs
      rw [(hsame hs.1).1, (hsame hs.1).2]
    all_goals exact Nat.le_refl _

theorem fits_step {e : Event} (h : s.step limits pid workerGroup e = some t) (hfits : s.Fits) :
    t.Fits := by
  obtain ⟨hout, herr⟩ := hfits
  cases e with
  | tick d =>
    cases h
    exact ⟨hout, herr⟩
  | kills usage =>
    obtain ⟨-, rfl⟩ := kills_eq_some h
    exact ⟨hout, herr⟩
  | parent a =>
    obtain ⟨-, m, -, rfl⟩ := parent_eq_some h
    have hafter : (s.after pid workerGroup a).Fits := by
      unfold Family.after
      split
      · exact ⟨hout, herr⟩
      · exact ⟨by simp only [List.length_drop]; omega, herr⟩
      · exact ⟨by simp only [List.length_drop]; omega, herr⟩
      · exact ⟨hout, by simp only [List.length_drop]; omega⟩
      · exact ⟨hout, by simp only [List.length_drop]; omega⟩
      · exact ⟨hout, herr⟩
    exact hafter
  | act p a =>
    obtain ⟨x, -, -, hacts⟩ := actsAs_of_act h
    cases hacts with
    | ends e => exact ⟨hout, herr⟩
    | update q f => exact ⟨hout, herr⟩
    | forks q => exact ⟨hout, herr⟩
    | writesOut d _ hd => exact ⟨by simpa using hd, herr⟩
    | writesErr d _ hd => exact ⟨hout, by simpa using hd⟩

theorem left_step {e : Event} (h : s.step limits pid workerGroup e = some t) (hs : Safe s)
    (hlate : Late s) (hfits : s.Fits) :
    Late t ∧ t.left + (if e.ofParent then 1 else 0) ≤ s.left := by
  cases e with
  | parent a =>
    obtain ⟨hlate', hlt⟩ := left_parent h hlate hfits
    exact ⟨hlate', hlt⟩
  | act p a =>
    obtain ⟨x, hx, -, hacts⟩ := actsAs_of_act h
    obtain ⟨hlate', hle⟩ := left_acts hx hacts hs hlate
    exact ⟨hlate', hle⟩
  | tick d =>
    cases h
    refine ⟨⟨hlate.watching, ?_⟩, Nat.le_refl _⟩
    have hover := hlate.passed
    dsimp only
    omega
  | kills usage =>
    obtain ⟨hpc, rfl⟩ := kills_eq_some h
    refine ⟨⟨rfl, hlate.passed⟩, ?_⟩
    simp [Family.left, hpc, Event.ofParent]

/-- **Past the deadline the parent makes a bounded number of calls.** -/
theorem left_run {es : List Event} (h : Lib.run (Family.step limits pid workerGroup) s es = some t)
    (hmeets : AllMeet limits pid workerGroup s es) (hcoherent : Coherent pid s) (hs : Safe s)
    (hfits : s.Fits) (hlate : Late s) : t.left + es.countP Event.ofParent ≤ s.left := by
  induction es generalizing s with
  | nil =>
    cases h
    exact Nat.le_refl _
  | cons e es ih =>
    obtain ⟨u, hu, h⟩ := run_cons_iff.mp h
    obtain ⟨hlate', hle⟩ := left_step hu hs hlate hfits
    have hrest := ih h (hmeets.2 u hu) (coherent_step hu hcoherent)
      (safe_step hu hmeets.1 hcoherent hs) (fits_step hu hfits) hlate'
    rw [List.countP_cons]
    omega

/-- **When `Sandbox::run` returns.**  In a run whose steps are all taken in time the parent
never stands at a call that need not return, and past the deadline it returns after a
bounded number of calls.  After a next step, this stays so exactly when that step is taken
in time as well. -/
theorem returns_iff {es : List Event} (h : Lib.run (Family.step limits pid workerGroup) {} es = some s)
    (hmeets : AllMeet limits pid workerGroup {} es) :
    ¬ Stuck limits pid workerGroup s ∧
      (Late s → ∀ fs t, Lib.run (Family.step limits pid workerGroup) s fs = some t →
        AllMeet limits pid workerGroup s fs → fs.countP Event.ofParent ≤ 2 * pipeCapacity + 9) ∧
      ∀ e t, s.step limits pid workerGroup e = some t →
        ((∀ fs u, Lib.run (Family.step limits pid workerGroup) t fs = some u →
          AllMeet limits pid workerGroup t fs → ¬ Stuck limits pid workerGroup u) ↔ Meets pid s e) := by
  obtain ⟨hcoherent, hsafe⟩ := safe_run h hmeets coherent_start trivial
  have hfits : s.Fits := by
    refine run_invariant Family.Fits h ⟨Nat.zero_le _, Nat.zero_le _⟩ ?_
    exact fun _ _ _ hm he => fits_step he hm
  refine ⟨not_stuck_of_safe hsafe, ?_, ?_⟩
  · intro hlate fs t ht hfs
    have hle := left_run ht hfs hcoherent hsafe hfits hlate
    have hmax := left_le hsafe hfits
    omega
  · intro e t ht
    constructor
    · intro hnever
      by_contra hnot
      obtain ⟨fs, u, hu, hfs, hstuck⟩ := stuck_of_not_meets ht hcoherent hnot
      exact hnever fs u hu hfs hstuck
    · intro hm fs u hu hfs
      have hsafe' := safe_step ht hm hcoherent hsafe
      exact not_stuck_of_safe (safe_run hu hfs (coherent_step ht hcoherent) hsafe').2

/-! ### A child that is waited for in vain -/

/-- The parent up to its loop, and the child up to its `setpgid`, with the pid 2. -/
def started : List Event :=
  [.parent (.ok true), .parent (.ok true), .parent (.ok true), .parent .done, .parent .done,
    .parent (.time 0), .act 2 (.setpgid 2)]

/-- The child exits, and the next round of the loop reaps it. -/
def exits : List Event :=
  [.act 2 (.ends (.exited 0 {})), .parent (.time 0), .parent (.ready false false), .parent .done]

/-- The child forks, exits, and leaves the other process behind, which sleeps. -/
def leavesSleeper : List Event := started ++ .act 2 (.forks 3) :: exits ++ [.tick 3000000000]

/-- The child forks, and both go over to a group of their own.  The deadline passes. -/
def leavesGroup : List Event :=
  started ++ [.act 2 (.forks 3), .act 3 (.setpgid 3), .act 2 (.setpgid 3), .tick 3000000000,
    .parent (.time 3000000000), .kills {}, .parent .done, .parent .done]

/-- **A run that need not return**: past its deadline the parent reads from a pipe that a
sleeper holds, or waits for a child that it has not killed. -/
theorem waits_for_ever :
    (∃ s, Lib.run (Family.step {} 2 1) {} leavesSleeper = some s ∧ s.monitor.pc = .drainOut ∧
      Late s ∧ Stuck {} 2 1 s) ∧
    ∃ s, Lib.run (Family.step {} 2 1) {} leavesGroup = some s ∧ s.monitor.pc = .wait4 ∧
      Late s ∧ Stuck {} 2 1 s :=
  ⟨⟨_, rfl, rfl, ⟨trivial, by decide⟩, stuck_drainOut rfl rfl⟩,
    ⟨_, rfl, rfl, ⟨trivial, by decide⟩, stuck_wait4 rfl rfl⟩⟩

theorem returns_iff_exits :
    ∃ s, Lib.run (Family.step {} 2 1) {} (started ++ exits) = some s ∧ ¬ Stuck {} 2 1 s := by
  refine ⟨_, rfl, (@returns_iff {} 2 1 _ (started ++ exits) rfl ?_).1⟩
  iterate 10 refine allSteps_cons rfl trivial ?_
  -- the child is reaped when nobody is left
  exact allSteps_cons rfl (fun _ x hx => nomatch hx) trivial

end Ocpe.Sandbox
