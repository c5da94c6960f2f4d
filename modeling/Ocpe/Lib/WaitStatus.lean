import Mathlib.Tactic.Common

/-!
# Ended processes

The wait status of a process and its resource usage, as Linux packs and reports
them, and the macros that take the status apart.  `Ended` is a status that
`waitpid` can report for a process that has ended, together with its usage;
`exited` and `signaled` build the two kinds.
-/

namespace Ocpe.Lib

def wtermsig (status : Nat) : Nat := status % 128

def wifexited (status : Nat) : Bool := wtermsig status = 0

def wexitstatus (status : Nat) : Nat := status / 256 % 256

def wifsignaled (status : Nat) : Bool := 0 < wtermsig status ∧ wtermsig status < 127

/-- The fields of `struct rusage` that carry CPU time and peak memory. -/
structure Rusage where
  utimeSec : Nat := 0
  utimeUsec : Nat := 0
  stimeSec : Nat := 0
  stimeUsec : Nat := 0
  maxrss : Nat := 0
  deriving DecidableEq, Repr

structure Ended where
  status : Nat
  usage : Rusage
  ended : wifexited status = true ∨ wifsignaled status = true

/-- A process that called `exit(code)`. -/
def Ended.exited (code : Fin 256) (usage : Rusage) : Ended where
  status := code * 256
  usage := usage
  ended := .inl (decide_eq_true (by unfold wtermsig; omega))

/-- A process that a signal killed. -/
def Ended.signaled (sig : Fin 127) (hsig : 0 < sig.val) (usage : Rusage) : Ended where
  status := sig
  usage := usage
  ended := .inr (decide_eq_true (by unfold wtermsig; omega))

theorem wifsignaled_eq_false {status : Nat} (h : wifexited status = true) :
    wifsignaled status = false := by
  simp only [wifexited, decide_eq_true_eq] at h
  simp [wifsignaled, h]

end Ocpe.Lib
