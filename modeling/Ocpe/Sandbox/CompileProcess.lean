import Mathlib.Computability.StateTransition
import Ocpe.Sandbox.Compiler

/-!
# The clock of a compile

`run_compile_process` of `sandbox/src/compiler.cpp`, once `pipe` and `fork` have succeeded.
The parent reads what the compiler prints up to the end, then takes the time, and then asks
every 50 ms whether the compiler has exited.  So the limit starts to count when the output
ends.

* `reads_to_end`: reading ends in the moment the output is closed.
* `not_ends_of_open`: it never ends when the output stays open.
* `polls_to_end`: from there on the limit is kept, up to one polling interval.
* `keepsLimit_iff`: the limit is kept from the start exactly when the output is closed at
  once, or the compiler closes it and exits in time by itself.

Time is counted in nanoseconds from `fork`, and what the parent does between two calls that
wait takes none.
-/

namespace Ocpe

open Lib StateTransition

/-- What the compiler does over time, if nobody kills it. -/
structure CompileProcess where
  /-- what it writes into the pipe in each moment -/
  writes : Nat → Bytes
  /-- when the last writing end of the pipe is closed -/
  closes : Option Nat
  /-- when it exits, and how -/
  exits : Option (Nat × Ended)

namespace CompileProcess

def closedBy (c : CompileProcess) (now : Nat) : Bool := c.closes.any (· ≤ now)

/-- What arrives in the pipe in that moment. -/
def arrives (c : CompileProcess) (now : Nat) : Bytes :=
  if c.closedBy now then [] else c.writes now

/-- What `waitpid(pid, &status, WNOHANG)` finds. -/
def exitedBy (c : CompileProcess) (now : Nat) : Option Ended :=
  (c.exits.filter fun e => e.1 ≤ now).map Prod.snd

end CompileProcess

namespace Build

inductive Pc where
  | read
  | startClock
  | poll
  | checkClock
  | kill
  | returned (r : CompileRun)
  deriving DecidableEq, Repr

end Build

/-- The parent, with what is in the pipe. -/
structure Build where
  pc : Build.Pc := .read
  now : Nat := 0
  pending : Bytes := []
  output : Bytes := []
  deadline : Nat := 0
  killedAt : Option Nat := none
  deriving DecidableEq, Repr

namespace Build

def start (c : CompileProcess) : Build := { pending := c.arrives 0 }

/-- `usleep(50000)` -/
def pollingInterval : Nat := 50000000

/-- `std::chrono::seconds(timeout_sec)` -/
def seconds (timeoutSec : Nat) : Nat := timeoutSec * 1000000000

def step (timeoutSec : Nat) (c : CompileProcess) (b : Build) : Option Build :=
  match b.pc with
  | .read =>
    if b.pending ≠ [] then
      some { b with output := b.output ++ b.pending.take 4096, pending := b.pending.drop 4096 }
    else if c.closedBy b.now then some { b with pc := .startClock }
    -- the pipe is empty and open, so `read` waits
    else some { b with now := b.now + 1, pending := c.arrives (b.now + 1) }
  | .startClock => some { b with pc := .poll, deadline := b.now + seconds timeoutSec }
  | .poll =>
    match c.exitedBy b.now with
    | some e => some { b with pc := .returned (.exited e.status b.output) }
    | none => some { b with pc := .checkClock }
  | .checkClock =>
    if b.deadline < b.now then some { b with pc := .kill }
    else some { b with pc := .poll, now := b.now + pollingInterval }
  -- the second `waitpid` reaps what the signal has killed
  | .kill => some { b with pc := .returned (.timedOut b.output), killedAt := some b.now }
  | .returned _ => none

variable {timeoutSec : Nat} {c : CompileProcess}

/-! ### Reading to the end of the output -/

/-- What is in the pipe is read in pieces, in no time. -/
theorem reads_pending (n : Nat) (p o : Bytes) :
    Reaches (step timeoutSec c) { now := n, pending := p, output := o }
      { now := n, output := o ++ p } := by
  induction h : p.length using Nat.strongRecOn generalizing p o with
  | ind l ih =>
    by_cases hp : p = []
    · rw [hp, List.append_nil]
      exact .refl
    · have hpos : 0 < p.length := List.length_pos_iff.mpr hp
      have hread : step timeoutSec c { now := n, pending := p, output := o } =
          some { now := n, pending := p.drop 4096, output := o ++ p.take 4096 } := if_pos hp
      have hrest := ih (p.drop 4096).length (by rw [List.length_drop]; omega) (p.drop 4096)
        (o ++ p.take 4096) rfl
      rw [List.append_assoc, List.take_append_drop] at hrest
      exact .head hread hrest

/-- **Reading ends when the output is closed.** -/
theorem reads_to_end (timeoutSec : Nat) {k : Nat} (hk : c.closes = some k) {n : Nat} (hn : n ≤ k)
    (p o : Bytes) :
    ∃ o', Reaches (step timeoutSec c) { now := n, pending := p, output := o }
      { pc := .startClock, now := k, output := o' } := by
  induction h : k - n generalizing n p o with
  | zero =>
    obtain rfl : n = k := by omega
    have hclosed : c.closedBy n = true := by simp [CompileProcess.closedBy, hk]
    have hend : step timeoutSec c { now := n, output := o ++ p } =
        some { pc := .startClock, now := n, output := o ++ p } := if_pos hclosed
    exact ⟨o ++ p, (reads_pending n p o).tail hend⟩
  | succ m ih =>
    have hopen : ¬ c.closedBy n = true := by
      simp only [CompileProcess.closedBy, hk, Option.any_some, decide_eq_true_eq]
      omega
    have hwait : step timeoutSec c { now := n, output := o ++ p } =
        some { now := n + 1, pending := c.arrives (n + 1), output := o ++ p } := if_neg hopen
    obtain ⟨o', hrest⟩ := ih (n := n + 1) (by omega) (c.arrives (n + 1)) (o ++ p) (by omega)
    exact ⟨o', ((reads_pending n p o).tail hwait).trans hrest⟩

/-- **While the output is open the parent only reads.** -/
theorem reading_of_open (hopen : c.closes = none) {b : Build}
    (h : Reaches (step timeoutSec c) (start c) b) : b.pc = .read := by
  induction h with
  | refl => rfl
  | @tail m b _ hstep ih =>
    have hclosed : ¬ c.closedBy m.now = true := by simp [CompileProcess.closedBy, hopen]
    simp only [step, ih, if_neg hclosed] at hstep
    split at hstep <;> cases hstep <;> rfl

theorem not_ends_of_open (hopen : c.closes = none) (b : Build) :
    b ∉ eval (step timeoutSec c) (start c) := by
  intro h
  obtain ⟨hreach, hend⟩ := mem_eval.mp h
  have hpc := reading_of_open hopen hreach
  simp only [step, hpc] at hend
  split at hend
  · cases hend
  · split at hend <;> cases hend

/-! ### Polling until the deadline -/

theorem exitedBy_eq_some {n : Nat} {e : Ended} :
    c.exitedBy n = some e ↔ ∃ x, c.exits = some (x, e) ∧ x ≤ n := by
  unfold CompileProcess.exitedBy
  simp [Option.map_eq_some_iff, Option.filter_eq_some_iff]

theorem exitedBy_eq_none {n : Nat} :
    c.exitedBy n = none ↔ ∀ x e, c.exits = some (x, e) → n < x := by
  unfold CompileProcess.exitedBy
  simp [Option.map_eq_none_iff, Option.filter_eq_none_iff]

/-- The call ended with the compiler's own status, or by killing it in the moment `k`. -/
def EndsBy (c : CompileProcess) (k : Nat) (b : Build) : Prop :=
  (∃ x e, c.exits = some (x, e) ∧ x ≤ k ∧ b.pc = .returned (.exited e.status b.output) ∧
      b.killedAt = none) ∨
    (∀ x e, c.exits = some (x, e) → k < x) ∧ b.pc = .returned (.timedOut b.output) ∧
      b.killedAt = some k

theorem ends_of_exited {n k : Nat} {e : Ended} (hx : c.exitedBy n = some e) (hn : n ≤ k) (d : Nat)
    (o : Bytes) :
    ∃ b, Reaches (step timeoutSec c) { pc := .poll, now := n, output := o, deadline := d } b ∧
      step timeoutSec c b = none ∧ EndsBy c k b := by
  obtain ⟨x, hexits, hxn⟩ := exitedBy_eq_some.mp hx
  have hreturn : step timeoutSec c { pc := .poll, now := n, output := o, deadline := d } =
      some { pc := .returned (.exited e.status o), now := n, output := o, deadline := d } := by
    simp only [step, hx]
  exact ⟨_, .single hreturn, rfl, .inl ⟨x, e, hexits, by omega, rfl, rfl⟩⟩

theorem step_poll_of_none {n : Nat} (hx : c.exitedBy n = none) (d : Nat) (o : Bytes) :
    step timeoutSec c { pc := .poll, now := n, output := o, deadline := d } =
      some { pc := .checkClock, now := n, output := o, deadline := d } := by
  simp only [step, hx]

/-- **Polling ends one interval after the deadline**, `j` intervals from now. -/
theorem polls_to_end (timeoutSec d j : Nat) {n : Nat}
    (h : n + j * pollingInterval = d + pollingInterval) (o : Bytes) :
    ∃ b, Reaches (step timeoutSec c) { pc := .poll, now := n, output := o, deadline := d } b ∧
      step timeoutSec c b = none ∧ EndsBy c (d + pollingInterval) b := by
  induction j generalizing n with
  | zero =>
    rw [Nat.zero_mul, Nat.add_zero] at h
    cases hx : c.exitedBy n with
    | some e => exact ends_of_exited hx (by omega) d o
    | none =>
      have hlate : d < n := by
        rw [h]
        exact Nat.lt_add_of_pos_right (by decide)
      have hcheck : step timeoutSec c { pc := .checkClock, now := n, output := o, deadline := d } =
          some { pc := .kill, now := n, output := o, deadline := d } := if_pos hlate
      refine ⟨_, .head (step_poll_of_none hx d o) (.head hcheck (.single rfl)), rfl,
        .inr ⟨?_, rfl, congrArg some h⟩⟩
      rw [← h]
      exact exitedBy_eq_none.mp hx
  | succ j ih =>
    rw [Nat.succ_mul, ← Nat.add_assoc] at h
    have hleft : n + j * pollingInterval = d := Nat.add_right_cancel h
    cases hx : c.exitedBy n with
    | some e => exact ends_of_exited hx (by omega) d o
    | none =>
      have hearly : ¬ d < n := by omega
      have hcheck : step timeoutSec c { pc := .checkClock, now := n, output := o, deadline := d } =
          some { pc := .poll, now := n + pollingInterval, output := o, deadline := d } :=
        if_neg hearly
      obtain ⟨b, hreach, hend⟩ := ih (n := n + pollingInterval) (by omega)
      exact ⟨b, .head (step_poll_of_none hx d o) (.head hcheck hreach), hend⟩

/-! ### The whole call -/

theorem seconds_eq (timeoutSec : Nat) : seconds timeoutSec = 20 * timeoutSec * pollingInterval := by
  unfold seconds pollingInterval
  omega

/-- **The limit counts from the end of the output.** -/
theorem ends_of_closes (timeoutSec : Nat) {k : Nat} (hk : c.closes = some k) :
    ∃ b ∈ eval (step timeoutSec c) (start c),
      EndsBy c (k + seconds timeoutSec + pollingInterval) b := by
  obtain ⟨o, hread⟩ := reads_to_end timeoutSec hk (Nat.zero_le k) (c.arrives 0) []
  have hclock : step timeoutSec c { pc := .startClock, now := k, output := o } =
      some { pc := .poll, now := k, output := o, deadline := k + seconds timeoutSec } := rfl
  have hrounds : k + (20 * timeoutSec + 1) * pollingInterval =
      k + seconds timeoutSec + pollingInterval := by
    rw [seconds_eq, Nat.succ_mul, Nat.add_assoc]
  obtain ⟨b, hpoll, hend, hb⟩ := polls_to_end timeoutSec _ _ hrounds o
  exact ⟨b, mem_eval.mpr ⟨hread.trans (.head hclock hpoll), hend⟩, hb⟩

/-- The limit is kept up to one polling interval: the call returns the status of a compiler
that exits before it is over, and kills one that does not. -/
def KeepsLimit (timeoutSec : Nat) (c : CompileProcess) : Prop :=
  ∃ b ∈ eval (step timeoutSec c) (start c), ∃ r, b.pc = .returned r ∧
    ((∃ x e, c.exits = some (x, e) ∧ x ≤ seconds timeoutSec + pollingInterval ∧
        (runCompileProcess r).1 = e.status ∧ b.killedAt = none) ∨
      (∀ x e, c.exits = some (x, e) → seconds timeoutSec < x) ∧ (runCompileProcess r).1 = -2 ∧
        ∃ k, b.killedAt = some k ∧ seconds timeoutSec ≤ k ∧
          k ≤ seconds timeoutSec + pollingInterval)

/-- **When the limit is kept.** -/
theorem keepsLimit_iff (timeoutSec : Nat) (c : CompileProcess) :
    KeepsLimit timeoutSec c ↔
      ∃ k, c.closes = some k ∧
        (k = 0 ∨ ∃ x e, c.exits = some (x, e) ∧ x ≤ seconds timeoutSec + pollingInterval) := by
  constructor
  · intro ⟨b, hb, r, hpc, hkeeps⟩
    cases hk : c.closes with
    | none => exact absurd hb (not_ends_of_open hk b)
    | some k =>
      refine ⟨k, rfl, ?_⟩
      obtain ⟨b', hb', hends⟩ := ends_of_closes timeoutSec hk
      obtain rfl : b = b' := Part.mem_unique hb hb'
      rcases hkeeps with ⟨x, e, hexits, hx, -⟩ | ⟨-, -, k', hkilled, -, hk'⟩
      · exact .inr ⟨x, e, hexits, hx⟩
      · rcases hends with ⟨x, e, -, -, -, halive⟩ | ⟨-, -, hkilled'⟩
        · rw [halive] at hkilled
          cases hkilled
        · cases hkilled.symm.trans hkilled'
          exact .inl (by omega)
  · intro ⟨k, hk, hor⟩
    obtain ⟨b, hb, hends⟩ := ends_of_closes timeoutSec hk
    rcases hends with ⟨x, e, hexits, hx, hpc, halive⟩ | ⟨hlate, hpc, hkilled⟩
    · refine ⟨b, hb, _, hpc, .inl ⟨x, e, hexits, ?_, rfl, halive⟩⟩
      rcases hor with hzero | ⟨x', e', hexits', hx'⟩
      · omega
      · cases hexits.symm.trans hexits'
        exact hx'
    · rcases hor with hzero | ⟨x, e, hexits, hx⟩
      · refine ⟨b, hb, _, hpc, .inr ⟨?_, rfl, _, hkilled, by omega, by omega⟩⟩
        intro x e hexits
        have := hlate x e hexits
        omega
      · have := hlate x e hexits
        omega

/-- A compiler that hangs with its output open is not killed: the call does not return. -/
theorem hangs : ¬ KeepsLimit 10 { writes := fun _ => [], closes := none, exits := none } := by
  intro ⟨b, hb, _⟩
  exact not_ends_of_open rfl b hb

end Build

end Ocpe
