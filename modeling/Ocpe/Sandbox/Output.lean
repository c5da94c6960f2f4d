import Ocpe.Sandbox.Returning

/-!
# What is captured of the output

The bytes of either stream on their way: a process writes them into the pipe, the parent
takes them out by `read`, in its loop and, once it has reaped the child, in the loops that
drain the pipes.

* `conserved`: in every run, what the parent has captured, and after it what the pipe
  holds, is what was written, in order.
* `captured_all`: a run that does not time out has captured everything.  The drain loops
  end at an end of file, where the pipe is empty and nobody is left to write.
* `held_le_iff`: nothing else bounds what the parent holds.  `RLIMIT_FSIZE`, by which the
  child is limited to `output_limit_kb`, says nothing about pipes.
-/

namespace Ocpe.Sandbox

open Lib

inductive Stream
  | out | err
  deriving DecidableEq

def Monitor.captured (m : Monitor) : Stream → Bytes
  | .out => m.stdoutData
  | .err => m.stderrData

def Family.buffered (s : Family) : Stream → Bytes
  | .out => s.outBuf
  | .err => s.errBuf

def Proc.holds (c : Stream) : Proc → Bool :=
  match c with
  | .out => Proc.out
  | .err => Proc.err

def Pc.reads : Stream → Pc → Bool
  | .out, .readOut _ | .out, .drainOut | .err, .readErr | .err, .drainErr => true
  | _, _ => false

/-- What an event writes to the stream. -/
def Event.writes (c : Stream) : Event → Bytes
  | .act _ (.writesOut d) => if c = .out then d else []
  | .act _ (.writesErr d) => if c = .err then d else []
  | _ => []

def written (c : Stream) (es : List Event) : Bytes := es.flatMap (Event.writes c)

@[simp] theorem written_nil (c : Stream) : written c [] = [] := rfl

@[simp] theorem written_append (c : Stream) (es fs : List Event) :
    written c (es ++ fs) = written c es ++ written c fs := List.flatMap_append

@[simp] theorem written_singleton (c : Stream) (e : Event) : written c [e] = e.writes c := by
  simp [written]

/-- The pipe is empty and has no writer. -/
structure Closed (c : Stream) (s : Family) : Prop where
  empty : s.buffered c = []
  unheld : ∀ x ∈ s.procs, x.holds c = false

variable {limits : SandboxLimits} {pid workerGroup : Nat} {s t : Family} {c : Stream}

/-! ### A step -/

/-- A call of the parent captures what a `read` returns, and nothing else. -/
theorem captured_returns {m n : Monitor} {a : Answer} (h : returns limits m a = some n) :
    if m.pc.reads c then ∃ d, a = .data d ∧ n.captured c = m.captured c ++ d
    else n.captured c = m.captured c := by
  unfold returns at h
  split at h
  case h_9 errReady d hpc =>
    rw [hpc]
    split at h
    · cases h
      cases c with
      | out => exact ⟨d, rfl, rfl⟩
      | err => rfl
    · cases h
  case h_10 d hpc =>
    rw [hpc]
    split at h
    · cases h
      cases c with
      | out => rfl
      | err => exact ⟨d, rfl, rfl⟩
    · cases h
  case h_12 d hpc =>
    rw [hpc]
    split at h
    · next hd =>
      cases h
      cases c with
      | out => exact ⟨d, rfl, by rw [hd, List.append_nil]; rfl⟩
      | err => rfl
    · split at h
      · cases h
        cases c with
        | out => exact ⟨d, rfl, rfl⟩
        | err => rfl
      · cases h
  case h_13 d hpc =>
    rw [hpc]
    split at h
    · next hd =>
      cases h
      cases c with
      | out => rfl
      | err => exact ⟨d, rfl, by rw [hd, List.append_nil]; rfl⟩
    · split at h
      · cases h
        cases c with
        | out => rfl
        | err => exact ⟨d, rfl, rfl⟩
      · cases h
  case h_14 hpc =>
    rw [hpc]
    obtain ⟨⟨child, status, usage⟩, -, rfl⟩ := Option.map_eq_some_iff.mp h
    cases c <;> rfl
  case h_15 => cases h
  case h_3 hpc => rw [hpc]; split at h <;> cases h <;> cases c <;> rfl
  case h_6 hpc => rw [hpc]; split at h <;> cases h <;> cases c <;> rfl
  all_goals
    next hpc =>
    rw [hpc]
    cases h
    cases c <;> rfl

theorem buffered_after (a : Answer) :
    (s.after pid workerGroup a).buffered c =
      if s.monitor.pc.reads c then (s.buffered c).drop bufSize else s.buffered c := by
  unfold Family.after
  split
  case h_6 houtRead houtDrain herrRead herrDrain hfork =>
    cases hpc : s.monitor.pc with
    | readOut b => exact absurd hpc (houtRead b)
    | drainOut => exact absurd hpc houtDrain
    | readErr => exact absurd hpc herrRead
    | drainErr => exact absurd hpc herrDrain
    | _ => cases c <;> rfl
  all_goals
    next hpc =>
    rw [hpc]
    cases c <;> rfl

/-- What a `read` returns is the front of the pipe, and nothing only at the end of file. -/
theorem answers_reads {d : Bytes} (h : s.answers (.data d) = true)
    (hpc : s.monitor.pc.reads c = true) :
    d = (s.buffered c).take bufSize ∧ (d = [] → Closed c s) := by
  have hreadable : (s.buffered c ≠ [] ∨ ∀ x ∈ s.procs, x.holds c = false) ∧
      d = (s.buffered c).take bufSize := by
    cases c with
    | out =>
      cases hat : s.monitor.pc with
      | readOut b =>
        simp only [Family.answers, hat, decide_eq_true_eq] at h
        exact ⟨outReadable_iff.mp h.1, h.2⟩
      | drainOut =>
        simp only [Family.answers, hat, decide_eq_true_eq] at h
        exact ⟨outReadable_iff.mp h.1, h.2⟩
      | _ => rw [hat] at hpc; cases hpc
    | err =>
      cases hat : s.monitor.pc with
      | readErr =>
        simp only [Family.answers, hat, decide_eq_true_eq] at h
        exact ⟨errReadable_iff.mp h.1, h.2⟩
      | drainErr =>
        simp only [Family.answers, hat, decide_eq_true_eq] at h
        exact ⟨errReadable_iff.mp h.1, h.2⟩
      | _ => rw [hat] at hpc; cases hpc
  obtain ⟨hready, hd⟩ := hreadable
  refine ⟨hd, ?_⟩
  intro hnil
  have hempty : s.buffered c = [] := by
    by_contra hne
    exact take_bufSize_ne_nil hne (hd.symm.trans hnil)
  rcases hready with hne | hunheld
  · exact absurd hempty hne
  · exact ⟨hempty, hunheld⟩

theorem conserved_parent {a : Answer} (h : s.parent limits pid workerGroup a = some t) :
    t.monitor.captured c ++ t.buffered c = s.monitor.captured c ++ s.buffered c := by
  obtain ⟨hanswers, m, hm, rfl⟩ := parent_eq_some h
  have hcaptured := captured_returns (c := c) hm
  have hbuffered := @buffered_after pid workerGroup s c a
  show m.captured c ++ (s.after pid workerGroup a).buffered c = _
  by_cases hpc : s.monitor.pc.reads c = true
  · rw [if_pos hpc] at hcaptured hbuffered
    obtain ⟨d, rfl, hd⟩ := hcaptured
    rw [hd, hbuffered, (answers_reads hanswers hpc).1, List.append_assoc, List.take_append_drop]
  · rw [if_neg hpc] at hcaptured hbuffered
    rw [hcaptured, hbuffered]

theorem conserved_act {p : Nat} {a : Act} (h : s.act pid p a = some t) :
    t.monitor.captured c = s.monitor.captured c ∧
      t.buffered c = s.buffered c ++ (Event.act p a).writes c := by
  unfold Family.act at h
  split at h
  · cases h
  next x hx =>
  split at h
  · cases h
    refine ⟨?_, by cases c <;> exact (List.append_nil _).symm⟩
    unfold Family.ends
    dsimp only
    split <;> cases c <;> rfl
  split at h
  · split at h
    · split at h
      · cases h
        exact ⟨rfl, by cases c <;> exact (List.append_nil _).symm⟩
      · cases h
    · cases h
  · cases a with
    | ends e => cases h
    | writesOut d =>
      rw [Family.acts] at h
      split at h
      · cases h
        exact ⟨rfl, by cases c <;> simp [Family.buffered, Event.writes]⟩
      · cases h
    | writesErr d =>
      rw [Family.acts] at h
      split at h
      · cases h
        exact ⟨rfl, by cases c <;> simp [Family.buffered, Event.writes]⟩
      · cases h
    | forks child =>
      rw [Family.acts] at h
      split at h
      · cases h
      · cases h
        exact ⟨rfl, by cases c <;> exact (List.append_nil _).symm⟩
    | _ =>
      cases h
      exact ⟨rfl, by cases c <;> exact (List.append_nil _).symm⟩

theorem conserved_step {e : Event} (h : s.step limits pid workerGroup e = some t) :
    t.monitor.captured c ++ t.buffered c =
      s.monitor.captured c ++ s.buffered c ++ e.writes c := by
  cases e with
  | parent a =>
    rw [conserved_parent h]
    exact (List.append_nil _).symm
  | act p a =>
    obtain ⟨hcaptured, hbuffered⟩ := @conserved_act pid s t c p a h
    rw [hcaptured, hbuffered, List.append_assoc]
  | tick d =>
    cases h
    exact (List.append_nil _).symm
  | kills usage =>
    obtain ⟨-, rfl⟩ := kills_eq_some h
    cases c <;> exact (List.append_nil _).symm

/-- **What was written has been captured, or is in the pipe**, in order and once. -/
theorem conserved {es : List Event} (h : Lib.run (Family.step limits pid workerGroup) {} es = some s)
    (c : Stream) : s.monitor.captured c ++ s.buffered c = written c es := by
  refine @run_invariant_hist _ _ _ (fun _ => True)
    (fun es s => s.monitor.captured c ++ s.buffered c = written c es) _ _ _ h
    (fun _ _ => trivial) ?_ ?_
  · cases c <;> rfl
  · intro hist m e m' _ hm _ he
    rw [conserved_step he, hm, written_append, written_singleton]

/-! ### The end of the streams -/

theorem closed_acts {x : Proc} (hx : x ∈ s.procs) (h : ActsAs pid s x t) (hs : Closed c s) :
    Closed c t := by
  have hhold : Proc.holds c = Proc.out ∨ Proc.holds c = Proc.err := by
    cases c
    · exact .inl rfl
    · exact .inr rfl
  refine ⟨?_, holder_acts hhold hx h hs.unheld⟩
  have hempty := hs.empty
  have hunheld := hs.unheld x hx
  cases h with
  | ends e => cases c <;> exact hempty
  | update q f => cases c <;> exact hempty
  | forks q => cases c <;> exact hempty
  | writesOut d hout =>
    cases c with
    | out => exact absurd (hout.symm.trans hunheld) (by decide)
    | err => exact hempty
  | writesErr d herr =>
    cases c with
    | out => exact hempty
    | err => exact absurd (herr.symm.trans hunheld) (by decide)

/-- How far the place of the parent says that it has emptied the pipes. -/
def Emptied (s : Family) : Prop :=
  match s.monitor.pc with
  | .killGroup => s.monitor.timedOut = true
  | .drainErr => Closed .out s
  | .closing _ .collect | .wait4 => s.monitor.timedOut = false → ∀ c, Closed c s
  | .returned (.ended o) =>
    (o.stdoutData = s.monitor.stdoutData ∧ o.stderrData = s.monitor.stderrData) ∧
      (o.timedOut = false → ∀ c, Closed c s)
  | _ => True

theorem monitor_acts {x : Proc} (h : ActsAs pid s x t) :
    t.monitor.pc = s.monitor.pc ∧ t.monitor.timedOut = s.monitor.timedOut ∧
      t.monitor.stdoutData = s.monitor.stdoutData ∧ t.monitor.stderrData = s.monitor.stderrData := by
  cases h with
  | ends e =>
    unfold Family.ends
    dsimp only
    split <;> exact ⟨rfl, rfl, rfl, rfl⟩
  | _ => exact ⟨rfl, rfl, rfl, rfl⟩

theorem emptied_of_closed (hpc : t.monitor.pc = s.monitor.pc)
    (htime : t.monitor.timedOut = s.monitor.timedOut)
    (hout : t.monitor.stdoutData = s.monitor.stdoutData)
    (herr : t.monitor.stderrData = s.monitor.stderrData)
    (hclosed : ∀ c, Closed c s → Closed c t) (hs : Emptied s) : Emptied t := by
  unfold Emptied at hs ⊢
  rw [hpc, htime]
  split at hs
  · exact hs
  · exact hclosed .out hs
  · exact fun hintime c => hclosed c (hs hintime c)
  · exact fun hintime c => hclosed c (hs hintime c)
  · rw [hout, herr]
    exact ⟨hs.1, fun hintime c => hclosed c (hs.2 hintime c)⟩
  · exact hs

theorem closed_after {a : Answer} (m : Monitor) (hpc : s.monitor.pc ≠ .fork) (hs : Closed c s) :
    Closed c { s.after pid workerGroup a with monitor := m } := by
  have hempty : (s.after pid workerGroup a).buffered c = [] := by
    rw [buffered_after, hs.empty]
    split <;> rfl
  refine ⟨by cases c <;> exact hempty, ?_⟩
  show ∀ x ∈ (s.after pid workerGroup a).procs, x.holds c = false
  rw [procs_after fun hfork => hpc hfork.1]
  exact hs.unheld

theorem emptied_parent {a : Answer} (h : s.parent limits pid workerGroup a = some t)
    (hs : Emptied s) : Emptied t := by
  obtain ⟨hanswers, m, hm, rfl⟩ := parent_eq_some h
  unfold returns at hm
  split at hm
  · cases hm; split <;> trivial
  · cases hm; split <;> trivial
  · split at hm <;> cases hm <;> trivial
  · next ends next hpc =>
    rw [Emptied, hpc] at hs
    cases hm
    have hfork : s.monitor.pc ≠ .fork := by rw [hpc]; intro h; cases h
    cases next with
    | giveUp => split <;> trivial
    | startClock => split <;> trivial
    | collect =>
      split
      · exact fun hintime c => closed_after _ hfork (hs hintime c)
      · exact fun hintime c => closed_after _ hfork (hs hintime c)
  · cases hm; trivial
  · split at hm
    · cases hm; exact (rfl : true = true)
    · cases hm; trivial
  · next hpc => simp only [Family.answers, hpc, Bool.false_eq_true] at hanswers
  · cases hm
    split
    · trivial
    · split <;> trivial
  · split at hm <;> cases hm
    split <;> trivial
  · split at hm <;> cases hm
    trivial
  · cases hm
    split <;> trivial
  · next d hpc =>
    have hfork : s.monitor.pc ≠ .fork := by rw [hpc]; intro h; cases h
    split at hm
    · next hd =>
      cases hm
      exact closed_after _ hfork ((answers_reads hanswers (by rw [hpc]; rfl)).2 hd)
    · split at hm <;> cases hm
      rw [Emptied, hpc]
      trivial
  · next d hpc =>
    have hfork : s.monitor.pc ≠ .fork := by rw [hpc]; intro h; cases h
    rw [Emptied, hpc] at hs
    split at hm
    · next hd =>
      cases hm
      intro _ c
      apply closed_after _ hfork
      cases c with
      | out => exact hs
      | err => exact (answers_reads hanswers (by rw [hpc]; rfl)).2 hd
    · split at hm <;> cases hm
      rw [Emptied, hpc]
      exact closed_after _ hfork hs
  · next hpc =>
    have hfork : s.monitor.pc ≠ .fork := by rw [hpc]; intro h; cases h
    rw [Emptied, hpc] at hs
    obtain ⟨⟨child, status, usage⟩, -, rfl⟩ := Option.map_eq_some_iff.mp hm
    exact ⟨⟨rfl, rfl⟩, fun hintime c => closed_after _ hfork (hs hintime c)⟩
  · cases hm

theorem emptied_step {e : Event} (h : s.step limits pid workerGroup e = some t)
    (hs : Emptied s) : Emptied t := by
  cases e with
  | parent a => exact emptied_parent h hs
  | act p a =>
    obtain ⟨x, hx, -, hacts⟩ := actsAs_of_act h
    obtain ⟨hpc, htime, hout, herr⟩ := monitor_acts hacts
    exact emptied_of_closed hpc htime hout herr (fun c => closed_acts hx hacts) hs
  | tick d =>
    cases h
    refine @emptied_of_closed s _ rfl rfl rfl rfl ?_ hs
    exact fun c hc => ⟨by cases c <;> exact hc.empty, hc.unheld⟩
  | kills usage =>
    obtain ⟨hpc, rfl⟩ := kills_eq_some h
    rw [Emptied, hpc] at hs
    intro hintime
    exact absurd (hs.symm.trans hintime) (by decide)

/-- **A run that does not time out has captured everything**: at its return the two
outputs are what was written to the two streams, in order. -/
theorem captured_all {es : List Event} {o : Observed}
    (h : Lib.run (Family.step limits pid workerGroup) {} es = some s)
    (hpc : s.monitor.pc = .returned (.ended o)) (hintime : o.timedOut = false)
    (expected : Bytes) :
    (run limits (.ended o) expected).stdoutOutput = written .out es ∧
      (run limits (.ended o) expected).stderrOutput = written .err es := by
  have hemptied : Emptied s :=
    run_invariant Emptied h trivial fun _ _ _ hm he => emptied_step he hm
  rw [Emptied, hpc] at hemptied
  obtain ⟨⟨hout, herr⟩, hclosed⟩ := hemptied
  have hcaptured : ∀ c, s.monitor.captured c = written c es := by
    intro c
    have hall := conserved h c
    rwa [(hclosed hintime c).empty, List.append_nil] at hall
  constructor
  · show o.stdoutData = _
    rw [hout]
    exact hcaptured .out
  · show o.stderrData = _
    rw [herr]
    exact hcaptured .err

/-- The child prints, is read from, prints to both streams, and exits. -/
def printsThrice : List Event :=
  started ++ [.act 2 (.writesOut "1"), .parent (.time 0), .parent (.ready true false),
    .parent (.data "1"), .parent .done, .act 2 (.writesOut "2"), .act 2 (.writesErr "e")] ++
  exits ++ [.parent (.data "2"), .parent (.data []), .parent (.data "e"), .parent (.data []),
    .parent .done, .parent .done, .parent .done]

theorem captured_all_thrice :
    (run {} (.ended ⟨false, "12", "e", 0, {}⟩) "12").stdoutOutput = written .out printsThrice ∧
      (run {} (.ended ⟨false, "12", "e", 0, {}⟩) "12").stderrOutput = written .err printsThrice := by
  obtain ⟨s, hrun, hpc⟩ : ∃ s, Lib.run (Family.step {} 2 1) {} printsThrice = some s ∧
      s.monitor.pc = .returned (.ended ⟨false, "12", "e", 0, {}⟩) := ⟨_, rfl, rfl⟩
  exact captured_all hrun hpc rfl "12"

/-! ### The output limit -/

/-- `output_limit_kb * 1024` -/
def outputLimit (limits : SandboxLimits) : Int := limits.outputLimitKb.toInt * 1024

theorem held_le_written {es : List Event}
    (h : Lib.run (Family.step limits pid workerGroup) {} es = some s) :
    s.monitor.stdoutData.length ≤ (written .out es).length := by
  have hall := congrArg List.length (conserved h .out)
  rw [List.length_append] at hall
  have hheld : (s.monitor.captured .out).length = s.monitor.stdoutData.length := rfl
  omega

/-- **What bounds the captured output.**  Where no more is written than the limit, no more
is ever held; and a run that does not time out holds no more at its return only if no more
was written. -/
theorem held_le_iff {es : List Event}
    (h : Lib.run (Family.step limits pid workerGroup) {} es = some s) :
    ((written .out es).length ≤ outputLimit limits →
      s.monitor.stdoutData.length ≤ outputLimit limits) ∧
    ∀ o, s.monitor.pc = .returned (.ended o) → o.timedOut = false →
      (o.stdoutData.length ≤ outputLimit limits ↔
        (written .out es).length ≤ outputLimit limits) := by
  constructor
  · intro hle
    have hheld := held_le_written h
    omega
  · intro o hpc hintime
    rw [← (captured_all h hpc hintime []).1]
    rfl

theorem held_le_iff_thrice :
    ∃ s, Lib.run (Family.step {} 2 1) {} printsThrice = some s ∧
      s.monitor.stdoutData.length ≤ outputLimit {} := by
  obtain ⟨s, hrun⟩ : ∃ s, Lib.run (Family.step {} 2 1) {} printsThrice = some s := ⟨_, rfl⟩
  exact ⟨s, hrun, (held_le_iff hrun).1 (by decide)⟩

/-! ### A program that prints on -/

/-- The child prints as many bytes as a `read` takes, and a round of the loop takes them. -/
def printsBlock (b : Bytes) : List Event :=
  [.act 2 (.writesOut b), .parent (.time 0), .parent (.ready true false), .parent (.data b),
    .parent .done]

/-- The child with the pid 2, and the parent at the top of its loop, which holds `data`. -/
def printing (data : Bytes) : Family where
  monitor :=
    { pc := .checkClock
      child := .running
      deadline := 2500000000
      stdoutData := data }
  procs := [{ pid := 2, group := 2, out := true, err := true }]

theorem printing_started : Lib.run (Family.step {} 2 1) {} started = some (printing []) := rfl

theorem printing_block {b : Bytes} (hb : b.length = bufSize) (data : Bytes) :
    Lib.run (Family.step {} 2 1) (printing data) (printsBlock b) = some (printing (data ++ b)) := by
  have hfits : ([] : Bytes).length + b.length ≤ pipeCapacity := by
    rw [hb]
    decide
  have hne : b ≠ [] := by
    intro hnil
    rw [hnil] at hb
    cases hb
  have htake : b.take bufSize = b := List.take_of_length_le (Nat.le_of_eq hb)
  have hdrop : b.drop bufSize = [] := List.drop_eq_nil_iff.mpr (Nat.le_of_eq hb)
  have hwrite : (printing data).step {} 2 1 (.act 2 (.writesOut b)) =
      some { printing data with outBuf := b } := by
    show (if true = true ∧ ([] : Bytes).length + b.length ≤ pipeCapacity then
      some { printing data with outBuf := [] ++ b } else none) = _
    rw [if_pos ⟨rfl, hfits⟩, List.nil_append]
  rw [printsBlock, Lib.run, hwrite, Option.bind_some]
  simp [Lib.run, Family.step, Family.parent, Family.answers, printing, returns, Family.after,
    Family.outReadable, Family.errReadable, hne, htake, hdrop, hb, Child.poll]

/-- It can print on for ever, and the parent holds it all. -/
theorem holds_any {b : Bytes} (hb : b.length = bufSize) (n : Nat) :
    ∃ es data, Lib.run (Family.step {} 2 1) {} es = some (printing data) ∧
      data.length = n * bufSize := by
  induction n with
  | zero => exact ⟨started, [], printing_started, (Nat.zero_mul _).symm⟩
  | succ n ih =>
    obtain ⟨es, data, hrun, hlen⟩ := ih
    refine ⟨es ++ printsBlock b, data ++ b, ?_, ?_⟩
    · exact run_append_iff.mpr ⟨_, hrun, printing_block hb data⟩
    · rw [List.length_append, hlen, hb, Nat.succ_mul]

/-- **More than the limit of a mebibyte is held.** -/
theorem held_past_limit :
    ∃ es s, Lib.run (Family.step {} 2 1) {} es = some s ∧
      s.monitor.stdoutData.length = 1052672 ∧ ¬ s.monitor.stdoutData.length ≤ outputLimit {} := by
  obtain ⟨es, data, hrun, hlen⟩ := holds_any (b := List.replicate bufSize 65)
    List.length_replicate 257
  refine ⟨es, printing data, hrun, hlen, ?_⟩
  show ¬ (data.length : Int) ≤ outputLimit {}
  rw [hlen]
  decide

end Ocpe.Sandbox
