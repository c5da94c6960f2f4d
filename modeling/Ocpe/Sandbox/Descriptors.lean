import Ocpe.Lib.FdTable
import Ocpe.Lib.Run

/-!
# What a sandboxed child inherits

The descriptor table of a worker process, which its threads share, and the table of every
child of `Sandbox::run` at its `execv`.  Each thread goes through `Sandbox::run` and
`run_compile_process` (`sandbox/src/sandbox.cpp`, `sandbox/src/compiler.cpp`) one system call
a step, in any order with the other threads; everything else in the process that opens or
closes descriptors, such as a connection to Redis, does so at any time.

* `childTable`: the calls of the child from `fork` to `execv`.
* `isolated_childTable_iff`: what the table at the `fork` must look like.
* `childrenIsolated_iff`: in every run, every child is isolated exactly when every `fork` is taken
  at such a table.

A connection that is open at the `fork` is inherited, and so are the pipes of another
thread: `inherits_connection`.
-/

namespace Ocpe.Descriptors

open Lib

/-- What a descriptor refers to: one of the two ends of a pipe, the input file of a child or
its descriptor from `mkstemp`, or something else. -/
inductive File
  | readEnd (pipe : Nat)
  | writeEnd (pipe : Nat)
  | temp (child : Nat)
  | input (child : Nat)
  | other (k : Nat)
  deriving DecidableEq, Repr

abbrev Table := FdTable File

/-- The array that `pipe` fills, with the pipe it has made. -/
structure Ends where
  pipe : Nat
  read : Nat
  write : Nat
  deriving DecidableEq, Repr

/-- `pipe(2)` -/
def makePipe (t : Table) (pipe : Nat) : Ends × Table :=
  let read := t.lowestFree
  let t := t.opens (.readEnd pipe) false
  (⟨pipe, read, t.lowestFree⟩, t.opens (.writeEnd pipe) false)

/-! ### The child -/

/-- The child's input: `mkstemp` and then `open`, each of which may fail. -/
def placeInput (child : Nat) (made opened : Bool) (t : Table) : Table :=
  if made then
    let inputFd := t.lowestFree
    let t := (t.opens (.temp child) false).close inputFd
    if opened then
      let inFd := t.lowestFree
      ((t.opens (.input child) false).dup2 inFd 0).close inFd
    else t
  else t

/-- The child's outputs. -/
def redirect (t : Table) (out err : Ends) : Table :=
  let t := (t.close out.read).close err.read
  let t := (t.dup2 out.write 1).dup2 err.write 2
  (t.close out.write).close err.write

/-- The child from `fork` to `execv`. -/
def childTable (t : Table) (out err : Ends) (child : Nat) (made opened : Bool) : Table :=
  (placeInput child made opened (redirect t out err)).exec

structure Child where
  id : Nat
  out : Nat
  err : Nat
  table : Table

/-- **What the child is promised**: 0, 1 and 2 are open and nothing else, 0 reads the
input, and 1 and 2 are the write ends of its own pipes. -/
def Child.Isolated (c : Child) : Prop :=
  ∀ n, c.table.get n =
    match n with
    | 0 => some ⟨.input c.id, false⟩
    | 1 => some ⟨.writeEnd c.out, false⟩
    | 2 => some ⟨.writeEnd c.err, false⟩
    | _ => none

/-! ### The process -/

/-- Where a thread stands, with the descriptors in its variables. -/
inductive Thread
  | idle
  /-- `Sandbox::run` after its first `pipe` -/
  | madeOut (out : Ends)
  /-- `Sandbox::run` after its second `pipe` -/
  | madeBoth (out err : Ends)
  /-- `run_compile_process` after its `pipe` -/
  | madeCompile (ends : Ends)
  /-- the `close` calls of the parent that are left -/
  | closing (fds : List Nat)
  deriving DecidableEq, Repr

structure Process where
  table : Table
  threads : Nat → Thread := fun _ => .idle
  /-- The number of pipes made so far, and the children of `Sandbox::run`. -/
  pipes : Nat := 0
  children : List Child := []

inductive Event
  /-- Something else in the process opens or closes a descriptor of its own. -/
  | opens (k : Nat) (cloexec : Bool)
  | closes (fd : Nat)
  /-- The thread calls `pipe` in `Sandbox::run`, `pipe` in `run_compile_process`. -/
  | pipe (thread : Nat) (success : Bool)
  | compilePipe (thread : Nat) (success : Bool)
  /-- It calls `fork`; the child of `Sandbox::run` then makes and opens its input file. -/
  | fork (thread : Nat) (success made opened : Bool)
  | close (thread : Nat)
  deriving DecidableEq, Repr

namespace Process

def setThread (w : Process) (thread : Nat) (th : Thread) : Process :=
  { w with threads := Function.update w.threads thread th }

def piped (w : Process) (thread : Nat) (th : Ends → Thread) : Process :=
  { w with
    table := (makePipe w.table w.pipes).2
    threads := Function.update w.threads thread (th (makePipe w.table w.pipes).1)
    pipes := w.pipes + 1 }

/-- The child that `Sandbox::run` forks. -/
def forked (w : Process) (out err : Ends) (made opened : Bool) : Child where
  id := w.children.length
  out := out.pipe
  err := err.pipe
  table := childTable w.table out err w.children.length made opened

def step (w : Process) : Event → Option Process
  | .opens k cloexec => some { w with table := w.table.opens (.other k) cloexec }
  | .closes fd =>
    match w.table.get fd with
    | some ⟨.other _, _⟩ => some { w with table := w.table.close fd }
    | _ => none
  | .pipe thread success =>
    match w.threads thread with
    | .idle => some (if success then w.piped thread .madeOut else w)
    -- when the second one fails, the first pipe stays open
    | .madeOut out =>
      some (if success then w.piped thread (.madeBoth out) else w.setThread thread .idle)
    | _ => none
  | .compilePipe thread success =>
    match w.threads thread with
    | .idle => some (if success then w.piped thread .madeCompile else w)
    | _ => none
  | .fork thread success made opened =>
    match w.threads thread with
    | .madeBoth out err =>
      if success then
        some { w.setThread thread (.closing [out.write, err.write, out.read, err.read]) with
          children := w.forked out err made opened :: w.children }
      else some (w.setThread thread (.closing [out.read, out.write, err.read, err.write]))
    | .madeCompile ends =>
      some (w.setThread thread
        (.closing (if success then [ends.write, ends.read] else [ends.read, ends.write])))
    | _ => none
  | .close thread =>
    match w.threads thread with
    | .closing (fd :: fds) =>
      some { w with
        table := w.table.close fd
        threads := Function.update w.threads thread (if fds = [] then .idle else .closing fds) }
    | _ => none

end Process

/-! ### What the child makes of the table -/

def Ends.In (ends : Ends) (t : Table) : Prop :=
  t.get ends.read = some ⟨.readEnd ends.pipe, false⟩ ∧
    t.get ends.write = some ⟨.writeEnd ends.pipe, false⟩

section Child

variable {t : Table} {out err : Ends} {child : Nat} {made opened : Bool}

/-- The input file is opened under the number that `mkstemp` had used. -/
theorem get_placeInput (n : Nat) :
    (placeInput child made opened t).get n =
      if (made = true ∧ opened = true) ∧ t.lowestFree ≠ 0 ∧ n = 0 then some ⟨.input child, false⟩
      else t.get n := by
  unfold placeInput
  have hclosed : ∀ m, ((t.opens (.temp child) false).close t.lowestFree).get m = t.get m :=
    FdTable.get_opens_close t (.temp child) false
  cases made with
  | false => rw [if_neg (by simp), if_neg (by simp)]
  | true =>
  rw [if_pos rfl]
  cases opened with
  | false =>
    rw [if_neg (by simp)]
    simp only [Bool.false_eq_true]
    exact hclosed n
  | true =>
    dsimp only
    rw [if_pos rfl, FdTable.get_opens_dup2_close, FdTable.lowestFree_congr hclosed, hclosed]
    simp only [and_self, true_and]

theorem nodup_ends {out err : Ends} (hout : out.In t) (herr : err.In t)
    (hpipes : out.pipe ≠ err.pipe) : [out.read, out.write, err.read, err.write].Nodup := by
  have hne : ∀ {m k : Nat} {d e : Desc File}, t.get m = some d → t.get k = some e → d ≠ e → m ≠ k := by
    rintro m k d e hm hk hde rfl
    exact hde (Option.some.inj (hm.symm.trans hk))
  have h1 : out.read ≠ out.write := hne hout.1 hout.2 (by simp)
  have h2 : out.read ≠ err.read := hne hout.1 herr.1 (by simpa using hpipes)
  have h3 : out.read ≠ err.write := hne hout.1 herr.2 (by simp)
  have h4 : out.write ≠ err.read := hne hout.2 herr.1 (by simp)
  have h5 : out.write ≠ err.write := hne hout.2 herr.2 (by simpa using hpipes)
  have h6 : err.read ≠ err.write := hne herr.1 herr.2 (by simp)
  simp [h1, h2, h3, h4, h5, h6]

theorem get_redirect (hout : out.In t) (herr : err.In t) (hpipes : out.pipe ≠ err.pipe) (n : Nat) :
    (redirect t out err).get n =
      if n = out.write ∨ n = err.write then none
      else if n = 2 then
        some ⟨.writeEnd (if err.write = 1 then out.pipe else err.pipe), false⟩
      else if n = 1 then some ⟨.writeEnd out.pipe, false⟩
      else if n = out.read ∨ n = err.read then none
      else t.get n := by
  have hnodup := nodup_ends hout herr hpipes
  simp only [List.nodup_cons, List.mem_cons, List.not_mem_nil, or_false, not_or] at hnodup
  obtain ⟨⟨how, -, hewo⟩, ⟨howe, hww⟩, hew, -⟩ := hnodup
  unfold redirect
  dsimp only
  -- without the read ends
  have hclosed : ∀ m, ((t.close out.read).close err.read).get m =
      if m = out.read ∨ m = err.read then none else t.get m := by
    intro m
    rw [FdTable.get_close, FdTable.get_close]
    by_cases hm : m = err.read
    · rw [if_pos hm, if_pos (.inr hm)]
    · rw [if_neg hm]
      simp only [hm, or_false]
  have hout' : ((t.close out.read).close err.read).get out.write =
      some ⟨.writeEnd out.pipe, false⟩ := by
    rw [hclosed, if_neg (by simp [Ne.symm how, howe]), hout.2]
  -- `dup2(stdout_pipe[1], STDOUT_FILENO)`, which may overwrite the other write end
  have hone : ∀ m, (((t.close out.read).close err.read).dup2 out.write 1).get m =
      if m = 1 ∧ out.write ≠ 1 then some ⟨.writeEnd out.pipe, false⟩
      else if m = out.read ∨ m = err.read then none else t.get m := by
    intro m
    rw [FdTable.get_dup2 hout', hclosed]
    by_cases hw : out.write = 1
    · rw [if_pos hw]
      exact (if_neg fun h => h.2 hw).symm
    · rw [if_neg hw]
      simp only [hw, ne_eq, not_false_eq_true, and_true]
  have herr' : (((t.close out.read).close err.read).dup2 out.write 1).get err.write =
      some ⟨.writeEnd (if err.write = 1 then out.pipe else err.pipe), false⟩ := by
    rw [hone]
    by_cases hw : err.write = 1
    · rw [if_pos ⟨hw, fun h => hww (h.trans hw.symm)⟩, if_pos hw]
    · rw [if_neg (fun h => hw h.1), if_neg (by simp [Ne.symm hewo, Ne.symm hew]), if_neg hw, herr.2]
  rw [FdTable.get_close, FdTable.get_close, FdTable.get_dup2 herr', hone]
  by_cases hnw : n = out.write ∨ n = err.write
  · rw [if_pos hnw]
    rcases hnw with rfl | rfl
    · rw [if_neg hww, if_pos rfl]
    · rw [if_pos rfl]
  rw [if_neg hnw]
  rw [not_or] at hnw
  rw [if_neg hnw.2, if_neg hnw.1]
  by_cases htwo : n = 2
  · rw [if_pos htwo, if_neg (fun h => hnw.2 (htwo.trans h.symm)), if_pos htwo]
  rw [if_neg htwo, if_neg htwo, ite_self]
  by_cases hn : n = 1
  · rw [if_pos hn, if_pos ⟨hn, fun h => hnw.1 (hn.trans h.symm)⟩]
  · rw [if_neg hn, if_neg (fun h => hn h.1)]

/-- **The table that a child can be forked from**: it has nothing but 0, 1, 2 and the
call's own ends that `exec` would keep, 0 is open and no end of a pipe, the write ends are
not 1 or 2, and the input file can be made and opened. -/
structure Sealed (t : Table) (out err : Ends) (made opened : Bool) : Prop where
  input : made = true ∧ opened = true
  zero : t.get 0 ≠ none
  ends : ∀ n ∈ [out.read, out.write, err.read, err.write], n ≠ 0
  writes : ∀ n ∈ [out.write, err.write], n ≠ 1 ∧ n ≠ 2
  nothing : ∀ n d, t.get n = some d → d.cloexec = false →
    n ∈ [0, 1, 2, out.read, out.write, err.read, err.write]

theorem get_placeInput_of_ne {n : Nat} (hn : n ≠ 0) :
    (placeInput child made opened t).get n = t.get n := by
  rw [get_placeInput, if_neg fun h => hn h.2.2]

theorem sealed_of_isolated (hout : out.In t) (herr : err.In t) (hpipes : out.pipe ≠ err.pipe)
    (hfresh : ∀ n d, t.get n = some d → d.file ≠ .input child)
    (h : Child.Isolated ⟨child, out.pipe, err.pipe, childTable t out err child made opened⟩) :
    Sealed t out err made opened := by
  have hget := get_redirect hout herr hpipes
  -- 0 reads the input, so it was in use when the input was opened
  have h0 := (FdTable.get_exec_eq_some.mp (h 0)).1
  rw [get_placeInput] at h0
  have hopened : (made = true ∧ opened = true) ∧ (redirect t out err).lowestFree ≠ 0 ∧ 0 = 0 := by
    by_contra hnot
    rw [if_neg hnot, hget] at h0
    split at h0
    · cases h0
    split at h0
    · contradiction
    split at h0
    · contradiction
    split at h0
    · cases h0
    · exact hfresh 0 _ h0 rfl
  have hused : (redirect t out err).get 0 ≠ none := by
    intro hnone
    exact hopened.2.1 (FdTable.lowestFree_eq_zero_iff.mpr hnone)
  rw [hget] at hused
  have hwrite : ∀ n, n < 3 → n ≠ 0 → ¬ (n = out.write ∨ n = err.write) := by
    intro n hlt hzero hw
    have hn := @get_placeInput_of_ne (redirect t out err) child made opened n hzero
    rw [hget, if_pos hw] at hn
    have hsome : ∃ d, (childTable t out err child made opened).get n = some d := by
      rcases (by omega : n = 1 ∨ n = 2) with rfl | rfl
      · exact ⟨_, h 1⟩
      · exact ⟨_, h 2⟩
    obtain ⟨d, hd⟩ := hsome
    rw [childTable, FdTable.get_exec_eq_some, hn] at hd
    cases hd.1
  have hzero : ¬ (0 = out.write ∨ 0 = err.write) ∧ ¬ (0 = out.read ∨ 0 = err.read) ∧
      t.get 0 ≠ none := by
    split at hused
    · exact absurd rfl hused
    next hw =>
    rw [if_neg (by omega), if_neg (by omega)] at hused
    split at hused
    · exact absurd rfl hused
    next hr => exact ⟨hw, hr, hused⟩
  obtain ⟨hw0, hr0, ht0⟩ := hzero
  have hw1 := hwrite 1 (by omega) (by omega)
  have hw2 := hwrite 2 (by omega) (by omega)
  refine ⟨hopened.1, ht0, ?_, ?_, ?_⟩
  · simp only [List.mem_cons, List.not_mem_nil, or_false, forall_eq_or_imp, forall_eq]
    omega
  · simp only [List.mem_cons, List.not_mem_nil, or_false, forall_eq_or_imp, forall_eq]
    omega
  · intro n d hd hkept
    by_contra hn
    simp only [List.mem_cons, List.not_mem_nil, or_false, not_or] at hn
    have hnone : (childTable t out err child made opened).get n = none := by
      match n, hn with
      | n + 3, _ => exact h (n + 3)
    rw [childTable, FdTable.get_exec_eq_none, get_placeInput_of_ne hn.1] at hnone
    have hsame : (redirect t out err).get n = some d := by
      rw [hget, if_neg (by omega), if_neg hn.2.2.1, if_neg hn.2.1, if_neg (by omega), hd]
    rw [hnone d hsame] at hkept
    cases hkept

theorem isolated_of_sealed (hout : out.In t) (herr : err.In t) (hpipes : out.pipe ≠ err.pipe)
    (h : Sealed t out err made opened) :
    Child.Isolated ⟨child, out.pipe, err.pipe, childTable t out err child made opened⟩ := by
  have hget := get_redirect hout herr hpipes
  obtain ⟨hinput, hzero, hends, hwrites, hnothing⟩ := h
  simp only [List.mem_cons, List.not_mem_nil, or_false, forall_eq_or_imp, forall_eq] at hends hwrites
  have hused : (redirect t out err).lowestFree ≠ 0 := by
    intro h
    have hnone := FdTable.lowestFree_eq_zero_iff.mp h
    rw [hget, if_neg (by omega), if_neg (by omega), if_neg (by omega), if_neg (by omega)] at hnone
    exact hzero hnone
  intro n
  match n with
  | 0 =>
    refine FdTable.get_exec_eq_some.mpr ⟨?_, rfl⟩
    rw [get_placeInput, if_pos ⟨hinput, hused, rfl⟩]
  | 1 =>
    refine FdTable.get_exec_eq_some.mpr ⟨?_, rfl⟩
    rw [get_placeInput_of_ne (by omega), hget, if_neg (by omega), if_neg (by omega), if_pos rfl]
  | 2 =>
    refine FdTable.get_exec_eq_some.mpr ⟨?_, rfl⟩
    rw [get_placeInput_of_ne (by omega), hget, if_neg (by omega), if_pos rfl, if_neg (by omega)]
  | n + 3 =>
    refine FdTable.get_exec_eq_none.mpr fun d hd => ?_
    rw [get_placeInput_of_ne (by omega), hget] at hd
    by_contra hkept
    split at hd
    · cases hd
    next hw =>
    rw [if_neg (by omega), if_neg (by omega)] at hd
    split at hd
    · cases hd
    next hr =>
    have hmem := hnothing (n + 3) d hd (by simpa using hkept)
    simp only [List.mem_cons, List.not_mem_nil, or_false] at hmem
    omega

theorem isolated_childTable_iff (hout : out.In t) (herr : err.In t) (hpipes : out.pipe ≠ err.pipe)
    (hfresh : ∀ n d, t.get n = some d → d.file ≠ .input child) :
    Child.Isolated ⟨child, out.pipe, err.pipe, childTable t out err child made opened⟩ ↔
      Sealed t out err made opened :=
  ⟨sealed_of_isolated hout herr hpipes hfresh, isolated_of_sealed hout herr hpipes⟩

end Child

/-! ### What the threads hold -/

def IsEnd (t : Table) (fd : Nat) : Prop :=
  ∃ p, t.get fd = some ⟨.readEnd p, false⟩ ∨ t.get fd = some ⟨.writeEnd p, false⟩

def Thread.fds : Thread → List Nat
  | .idle => []
  | .madeOut out => [out.read, out.write]
  | .madeBoth out err => [out.read, out.write, err.read, err.write]
  | .madeCompile ends => [ends.read, ends.write]
  | .closing fds => fds

/-- The table has under these numbers what the thread has put there. -/
def Thread.Holds (t : Table) : Thread → Prop
  | .idle => True
  | .madeOut out => out.In t
  | .madeBoth out err => (out.In t ∧ err.In t) ∧ out.pipe ≠ err.pipe
  | .madeCompile ends => ends.In t
  | .closing fds => fds.Nodup ∧ ∀ fd ∈ fds, IsEnd t fd

/-- What the table of the process can have open. -/
def File.Known (pipes : Nat) : File → Prop
  | .readEnd p => p < pipes
  | .writeEnd p => p < pipes
  | .temp _ => False
  | .input _ => False
  | .other _ => True

/-- Every thread's numbers are its own. -/
structure Sound (w : Process) : Prop where
  holds : ∀ i, (w.threads i).Holds w.table
  apart : ∀ i j, i ≠ j → ∀ fd ∈ (w.threads i).fds, fd ∉ (w.threads j).fds
  known : ∀ n d, w.table.get n = some d → d.file.Known w.pipes

section Sound

variable {t u : Table} {w v : Process} {th : Thread}

theorem Ends.In.congr {ends : Ends} (h : ends.In t) (hread : u.get ends.read = t.get ends.read)
    (hwrite : u.get ends.write = t.get ends.write) : ends.In u :=
  ⟨hread.trans h.1, hwrite.trans h.2⟩

theorem Ends.In.isEnd {ends : Ends} (h : ends.In t) {fd : Nat} (hfd : fd ∈ [ends.read, ends.write]) :
    IsEnd t fd := by
  simp only [List.mem_cons, List.not_mem_nil, or_false] at hfd
  rcases hfd with rfl | rfl
  · exact ⟨_, .inl h.1⟩
  · exact ⟨_, .inr h.2⟩

theorem holds_congr (h : th.Holds t) (hsame : ∀ fd ∈ th.fds, u.get fd = t.get fd) : th.Holds u := by
  cases th with
  | idle => trivial
  | madeOut out => exact h.congr (hsame _ (by simp [Thread.fds])) (hsame _ (by simp [Thread.fds]))
  | madeCompile ends =>
    exact h.congr (hsame _ (by simp [Thread.fds])) (hsame _ (by simp [Thread.fds]))
  | madeBoth out err =>
    obtain ⟨⟨hout, herr⟩, hpipes⟩ := h
    exact ⟨⟨hout.congr (hsame _ (by simp [Thread.fds])) (hsame _ (by simp [Thread.fds])),
      herr.congr (hsame _ (by simp [Thread.fds])) (hsame _ (by simp [Thread.fds]))⟩, hpipes⟩
  | closing fds =>
    refine ⟨h.1, fun fd hfd => ?_⟩
    obtain ⟨p, hp⟩ := h.2 fd hfd
    exact ⟨p, by rw [hsame fd hfd]; exact hp⟩

theorem isEnd_of_mem (h : th.Holds t) {fd : Nat} (hfd : fd ∈ th.fds) : IsEnd t fd := by
  cases th with
  | idle => cases hfd
  | madeOut out => exact h.isEnd hfd
  | madeCompile ends => exact h.isEnd hfd
  | madeBoth out err =>
    rcases List.mem_append.mp (show fd ∈ [out.read, out.write] ++ [err.read, err.write] from hfd)
      with hfd | hfd
    · exact h.1.1.isEnd hfd
    · exact h.1.2.isEnd hfd
  | closing fds => exact h.2 fd hfd

theorem IsEnd.used {fd : Nat} (h : IsEnd t fd) : t.get fd ≠ none := by
  obtain ⟨p, hp | hp⟩ := h <;> rw [hp] <;> exact fun h => nomatch h

/-- One thread moves on, and the table changes outside the numbers of the others. -/
theorem sound_of {i pipes : Nat} {children : List Child} (hw : Sound w)
    (hsame : ∀ j, j ≠ i → ∀ fd ∈ (w.threads j).fds, u.get fd = w.table.get fd)
    (hth : th.Holds u) (hapart : ∀ j, j ≠ i → ∀ fd ∈ th.fds, fd ∉ (w.threads j).fds)
    (hknown : ∀ n d, u.get n = some d → d.file.Known pipes) :
    Sound ⟨u, Function.update w.threads i th, pipes, children⟩ := by
  refine ⟨fun j => ?_, fun j k hjk fd hj hk => ?_, hknown⟩
  · show (Function.update w.threads i th j).Holds u
    by_cases hj : j = i
    · rw [hj, Function.update_self]
      exact hth
    · rw [Function.update_of_ne hj]
      exact holds_congr (hw.holds j) (hsame j hj)
  · dsimp only at hj hk
    by_cases hji : j = i
    · subst hji
      rw [Function.update_self] at hj
      rw [Function.update_of_ne hjk.symm] at hk
      exact hapart k hjk.symm fd hj hk
    · rw [Function.update_of_ne hji] at hj
      by_cases hki : k = i
      · subst hki
        rw [Function.update_self] at hk
        exact hapart j hji fd hk hj
      · rw [Function.update_of_ne hki] at hk
        exact hw.apart j k hjk fd hj hk

/-- The two numbers that `pipe` returns were free, and nothing else has changed. -/
theorem makePipe_spec (t : Table) (pipe : Nat) :
    (makePipe t pipe).1.In (makePipe t pipe).2 ∧
      (t.get (makePipe t pipe).1.read = none ∧ t.get (makePipe t pipe).1.write = none) ∧
      ∀ n, (makePipe t pipe).2.get n =
        if n = (makePipe t pipe).1.write then some ⟨.writeEnd pipe, false⟩
        else if n = (makePipe t pipe).1.read then some ⟨.readEnd pipe, false⟩ else t.get n := by
  have hread : ∀ n, (t.opens (.readEnd pipe) false).get n =
      if n = t.lowestFree then some ⟨.readEnd pipe, false⟩ else t.get n := fun n =>
    FdTable.get_set ..
  have hfree := FdTable.get_lowestFree (t.opens (File.readEnd pipe) false)
  have hne : (t.opens (File.readEnd pipe) false).lowestFree ≠ t.lowestFree := by
    intro h
    rw [h, hread, if_pos rfl] at hfree
    cases hfree
  have hget : ∀ n, (makePipe t pipe).2.get n =
      if n = (makePipe t pipe).1.write then some ⟨.writeEnd pipe, false⟩
      else if n = (makePipe t pipe).1.read then some ⟨.readEnd pipe, false⟩ else t.get n := by
    intro n
    have hwrite := FdTable.get_set (t.opens (.readEnd pipe) false)
      (t.opens (.readEnd pipe) false).lowestFree (some ⟨.writeEnd pipe, false⟩) n
    rw [hread] at hwrite
    exact hwrite
  have hends : (makePipe t pipe).1.read ≠ (makePipe t pipe).1.write := hne.symm
  refine ⟨⟨?_, ?_⟩, ⟨FdTable.get_lowestFree t, ?_⟩, hget⟩
  · rw [hget, if_neg hends, if_pos rfl]
    rfl
  · rw [hget, if_pos rfl]
    rfl
  · rw [hread, if_neg hne] at hfree
    exact hfree

theorem sound_piped {i : Nat} {made : Ends → Thread} (hw : Sound w)
    (hmade : ∀ ends : Ends, ends.pipe = w.pipes → ends.In (makePipe w.table w.pipes).2 →
      (made ends).Holds (makePipe w.table w.pipes).2 ∧
        ∀ fd ∈ (made ends).fds, fd ∈ (w.threads i).fds ∨ fd ∈ [ends.read, ends.write]) :
    Sound (w.piped i made) := by
  obtain ⟨hin, ⟨hread, hwrite⟩, hget⟩ := makePipe_spec w.table w.pipes
  -- the numbers of a thread are in use, so the new ones are not among them
  have hnew : ∀ j, ∀ fd ∈ (w.threads j).fds, fd ≠ (makePipe w.table w.pipes).1.read ∧
      fd ≠ (makePipe w.table w.pipes).1.write := by
    intro j fd hfd
    have hused := (isEnd_of_mem (hw.holds j) hfd).used
    constructor
    · rintro rfl
      exact hused hread
    · rintro rfl
      exact hused hwrite
  obtain ⟨hholds, hfds⟩ := hmade _ rfl hin
  refine sound_of hw (fun j _ fd hfd => ?_) hholds (fun j hj fd hfd hfd' => ?_) fun n d hd => ?_
  · rw [hget, if_neg (hnew j fd hfd).2, if_neg (hnew j fd hfd).1]
  · rcases hfds fd hfd with hfd | hfd
    · exact hw.apart i j hj.symm fd hfd hfd'
    · simp only [List.mem_cons, List.not_mem_nil, or_false] at hfd
      rcases hfd with hfd | hfd
      · exact (hnew j fd hfd').1 hfd
      · exact (hnew j fd hfd').2 hfd
  · rw [hget] at hd
    split at hd
    · cases hd
      exact Nat.lt_succ_self _
    split at hd
    · cases hd
      exact Nat.lt_succ_self _
    · have hknown := hw.known n d hd
      cases hfile : d.file <;> rw [hfile] at hknown
      · exact Nat.lt_succ_of_lt hknown
      · exact Nat.lt_succ_of_lt hknown
      · exact hknown
      · exact hknown
      · trivial

theorem sound_setThread {i : Nat} {children : List Child} (hw : Sound w) (hth : th.Holds w.table)
    (hfds : ∀ fd ∈ th.fds, fd ∈ (w.threads i).fds) :
    Sound { w.setThread i th with children := children } :=
  sound_of hw (fun _ _ _ _ => rfl) hth
    (fun j hj fd hfd => hw.apart i j hj.symm fd (hfds fd hfd)) hw.known

theorem sound_table (hw : Sound w)
    (hsame : ∀ j, ∀ fd ∈ (w.threads j).fds, u.get fd = w.table.get fd)
    (hknown : ∀ n d, u.get n = some d → d.file.Known w.pipes) : Sound { w with table := u } where
  holds j := holds_congr (hw.holds j) (hsame j)
  apart := hw.apart
  known := hknown

theorem sound_opens {k : Nat} {cloexec : Bool} (h : w.step (.opens k cloexec) = some v)
    (hw : Sound w) : Sound v := by
  cases h
  have hget : ∀ n, (w.table.opens (.other k) cloexec).get n =
      if n = w.table.lowestFree then some ⟨.other k, cloexec⟩ else w.table.get n := fun n =>
    FdTable.get_set ..
  refine sound_table hw (fun j fd hfd => ?_) fun n d hd => ?_
  · rw [hget, if_neg]
    rintro rfl
    exact (isEnd_of_mem (hw.holds j) hfd).used (FdTable.get_lowestFree _)
  · rw [hget] at hd
    split at hd
    · cases hd
      trivial
    · exact hw.known n d hd

theorem sound_closes {fd : Nat} (h : w.step (.closes fd) = some v) (hw : Sound w) : Sound v := by
  rw [Process.step] at h
  split at h
  · next k cloexec hother =>
    cases h
    refine sound_table hw (fun j fd' hfd' => ?_) fun n d hd => ?_
    · rw [FdTable.get_close, if_neg]
      rintro rfl
      obtain ⟨p, hp | hp⟩ := isEnd_of_mem (hw.holds j) hfd'
      · exact absurd (hother.symm.trans hp) (by simp)
      · exact absurd (hother.symm.trans hp) (by simp)
    · rw [FdTable.get_close] at hd
      split at hd
      · cases hd
      · exact hw.known n d hd
  · cases h

theorem sound_pipe {i : Nat} {success : Bool} (h : w.step (.pipe i success) = some v)
    (hw : Sound w) : Sound v := by
  rw [Process.step] at h
  split at h
  · next hidle =>
    cases h
    split
    · exact sound_piped hw fun ends _ hin => ⟨hin, fun fd hfd => .inr hfd⟩
    · exact hw
  · next out hout =>
    cases h
    have hholds : out.In w.table := by
      have hi := hw.holds i
      rw [hout] at hi
      exact hi
    split
    · obtain ⟨-, ⟨hread, hwrite⟩, hget⟩ := makePipe_spec w.table w.pipes
      refine sound_piped hw fun ends hpipe hin => ⟨⟨⟨?_, hin⟩, ?_⟩, fun fd hfd => ?_⟩
      · -- the first pipe is still there
        have hnew : ∀ fd, w.table.get fd ≠ none →
            (makePipe w.table w.pipes).2.get fd = w.table.get fd := by
          intro fd hused
          rw [hget, if_neg, if_neg]
          · rintro rfl
            exact hused hread
          · rintro rfl
            exact hused hwrite
        refine hholds.congr (hnew _ ?_) (hnew _ ?_)
        · rw [hholds.1]
          exact fun h => nomatch h
        · rw [hholds.2]
          exact fun h => nomatch h
      · have hlt : out.pipe < w.pipes := hw.known _ _ hholds.1
        omega
      · rw [hout]
        exact List.mem_append.mp (show fd ∈ [out.read, out.write] ++ [ends.read, ends.write] from hfd)
    · exact sound_setThread hw trivial fun fd hfd => nomatch hfd
  · cases h

theorem sound_compilePipe {i : Nat} {success : Bool} (h : w.step (.compilePipe i success) = some v)
    (hw : Sound w) : Sound v := by
  rw [Process.step] at h
  split at h
  · cases h
    split
    · exact sound_piped hw fun ends _ hin => ⟨hin, fun fd hfd => .inr hfd⟩
    · exact hw
  · cases h

/-- After a `fork` the thread has the same ends, in the order it closes them in. -/
theorem sound_fork {i : Nat} {success made opened : Bool}
    (h : w.step (.fork i success made opened) = some v) (hw : Sound w) : Sound v := by
  rw [Process.step] at h
  split at h
  · next out err hboth =>
    have hi := hw.holds i
    rw [hboth] at hi
    obtain ⟨⟨hout, herr⟩, hpipes⟩ := hi
    have hnodup := nodup_ends hout herr hpipes
    have hboth' : Thread.Holds w.table (.madeBoth out err) := ⟨⟨hout, herr⟩, hpipes⟩
    have hends : ∀ fd ∈ [out.read, out.write, err.read, err.write], IsEnd w.table fd :=
      fun fd hfd => isEnd_of_mem hboth' hfd
    split at h
    · cases h
      have hperm : [out.write, err.write, out.read, err.read].Perm
          [out.read, out.write, err.read, err.write] := by
        grind
      refine sound_setThread hw ⟨hperm.nodup_iff.mpr hnodup, fun fd hfd => ?_⟩ fun fd hfd => ?_
      · exact hends fd (hperm.mem_iff.mp hfd)
      · rw [hboth]
        exact hperm.mem_iff.mp hfd
    · cases h
      refine @sound_setThread _ _ i w.children hw ⟨hnodup, hends⟩ fun fd hfd => ?_
      rw [hboth]
      exact hfd
  · next ends hcompile =>
    cases h
    have hi := hw.holds i
    rw [hcompile] at hi
    have hne : ends.read ≠ ends.write := by
      intro h
      have hread := hi.1
      rw [h, hi.2] at hread
      cases hread
    have hends : ∀ fd ∈ [ends.read, ends.write], IsEnd w.table fd := fun fd hfd => hi.isEnd hfd
    cases success with
    | true =>
      refine @sound_setThread _ _ i w.children hw ⟨by simpa using hne.symm, fun fd hfd => ?_⟩
        fun fd hfd => ?_
      · exact hends fd (by simpa [or_comm] using hfd)
      · rw [hcompile]
        simpa [Thread.fds, or_comm] using hfd
    | false =>
      refine @sound_setThread _ _ i w.children hw ⟨by simpa using hne, hends⟩ fun fd hfd => ?_
      rw [hcompile]
      exact hfd
  · cases h

theorem sound_close {i : Nat} (h : w.step (.close i) = some v) (hw : Sound w) : Sound v := by
  rw [Process.step] at h
  split at h
  · next fd fds hclosing =>
    cases h
    have hi := hw.holds i
    rw [hclosing] at hi
    obtain ⟨hnotin, hnodup⟩ := List.nodup_cons.mp hi.1
    refine sound_of hw (fun j hj fd' hfd' => ?_) ?_ (fun j hj fd' hfd' => ?_) fun n d hd => ?_
    · rw [FdTable.get_close, if_neg]
      rintro rfl
      refine hw.apart j i hj fd' hfd' ?_
      rw [hclosing]
      exact List.mem_cons_self
    · split
      · trivial
      · refine ⟨hnodup, fun fd' hfd' => ?_⟩
        obtain ⟨p, hp⟩ := hi.2 fd' (List.mem_cons_of_mem _ hfd')
        refine ⟨p, ?_⟩
        rw [FdTable.get_close, if_neg]
        · exact hp
        · rintro rfl
          exact hnotin hfd'
    · refine hw.apart i j hj.symm fd' ?_
      rw [hclosing]
      split at hfd'
      · cases hfd'
      · exact List.mem_cons_of_mem _ hfd'
    · rw [FdTable.get_close] at hd
      split at hd
      · cases hd
      · exact hw.known n d hd
  · cases h

/-- **The descriptors of the threads stay apart.** -/
theorem sound_step {e : Event} (h : w.step e = some v) (hw : Sound w) : Sound v := by
  cases e with
  | opens => exact sound_opens h hw
  | closes => exact sound_closes h hw
  | pipe => exact sound_pipe h hw
  | compilePipe => exact sound_compilePipe h hw
  | fork => exact sound_fork h hw
  | close => exact sound_close h hw

/-! ### Every child of every run -/

/-- The process before its threads do anything, with any descriptors open. -/
def start (t : FdTable Nat) : Process where
  table := t.map .other

/-- A condition on the steps: `Sandbox::run` forks at a table that a child can be forked
from. -/
def Meets (w : Process) : Event → Prop
  | .fork i true made opened =>
    match w.threads i with
    | .madeBoth out err => Sealed w.table out err made opened
    | _ => True
  | _ => True

theorem sound_start (t : FdTable Nat) : Sound (start t) := by
  refine ⟨fun i => trivial, fun i j hij fd hfd => (nomatch hfd), fun n d hd => ?_⟩
  obtain ⟨e, -, rfl⟩ := Option.map_eq_some_iff.mp hd
  trivial

/-- **One step**: it adds a child that is not isolated exactly when it is a `fork` at a
table that is not fit for it. -/
theorem isolated_step {e : Event} (h : w.step e = some v) (hw : Sound w) :
    (∀ c ∈ v.children, c.Isolated) ↔ (∀ c ∈ w.children, c.Isolated) ∧ Meets w e := by
  have hsame : v.children = w.children → Meets w e →
      ((∀ c ∈ v.children, c.Isolated) ↔ (∀ c ∈ w.children, c.Isolated) ∧ Meets w e) := by
    intro hchildren hmeets
    rw [hchildren, and_iff_left hmeets]
  cases e with
  | opens k cloexec =>
    cases h
    exact hsame rfl trivial
  | closes fd =>
    rw [Process.step] at h
    split at h <;> cases h
    exact hsame rfl trivial
  | pipe i success =>
    rw [Process.step] at h
    split at h <;> cases h
    all_goals exact hsame (by split <;> rfl) trivial
  | compilePipe i success =>
    rw [Process.step] at h
    split at h <;> cases h
    exact hsame (by split <;> rfl) trivial
  | close i =>
    rw [Process.step] at h
    split at h <;> cases h
    exact hsame rfl trivial
  | fork i success made opened =>
    rw [Process.step] at h
    split at h
    · next out err hboth =>
      cases success with
      | false =>
        cases h
        exact hsame rfl trivial
      | true =>
        cases h
        have hi := hw.holds i
        rw [hboth] at hi
        obtain ⟨⟨hout, herr⟩, hpipes⟩ := hi
        show (∀ c ∈ w.forked out err made opened :: w.children, c.Isolated) ↔ _
        rw [List.forall_mem_cons, and_comm]
        simp only [Meets, hboth]
        rw [← isolated_childTable_iff hout herr hpipes]
        · rfl
        · intro n d hd hfile
          have hknown := hw.known n d hd
          rw [hfile] at hknown
          exact hknown
    · next ends hcompile =>
      cases h
      refine hsame rfl ?_
      cases success with
      | false => trivial
      | true => simp only [Meets, hcompile]
    · cases h

end Sound

/-- **When every child is isolated.**  From any table the process starts with, in every
run of its threads: exactly when every `fork` of `Sandbox::run` is taken while the process
has nothing open but 0, 1, 2 and the call's own four ends that the program would inherit,
0 is open, the ends are not in the way of the standard descriptors, and the child gets its
input file. -/
theorem childrenIsolated_iff {t : FdTable Nat} {es : List Event} {w : Process}
    (h : run Process.step (start t) es = some w) :
    (∀ c ∈ w.children, c.Isolated) ↔ AllSteps Process.step Meets (start t) es := by
  have hall : (∀ c ∈ w.children, c.Isolated) ↔
      (∀ c ∈ (start t).children, c.Isolated) ∧ AllSteps Process.step Meets (start t) es :=
    run_iff_allSteps Sound (fun w => ∀ c ∈ w.children, c.Isolated) h (sound_start t)
      (fun _ _ _ hw hstep => sound_step hstep hw) fun _ _ _ hw hstep => isolated_step hstep hw
  exact hall.trans (and_iff_right fun c hc => nomatch hc)

/-! ### A child that inherits too much -/

def standard : FdTable Nat where
  get n := if n < 3 then some ⟨n, false⟩ else none
  bound := 3
  free n hn := if_neg (by omega)

def forks (thread : Nat) : List Event :=
  [.pipe thread true, .pipe thread true, .fork thread true true true]

/-- **A child with a connection of the worker, and one with a pipe of another thread.** -/
theorem inherits_connection :
    (∃ w, run Process.step (start standard) (.opens 7 false :: forks 0) = some w ∧
      ∃ c ∈ w.children, c.table.get 3 = some ⟨.other 7, false⟩ ∧ ¬ c.Isolated) ∧
    ∃ w, run Process.step (start standard) (.pipe 1 true :: forks 0) = some w ∧
      ∃ c ∈ w.children, c.table.get 4 = some ⟨.writeEnd 0, false⟩ ∧ c.out ≠ 0 ∧ c.err ≠ 0 ∧
        ¬ c.Isolated := by
  refine ⟨⟨_, rfl, _, List.mem_cons_self, rfl, fun h => ?_⟩,
    ⟨_, rfl, _, List.mem_cons_self, rfl, by decide, by decide, fun h => ?_⟩⟩
  · exact nomatch h 3
  · exact nomatch h 4

theorem childrenIsolated_iff_alone :
    ∃ w, run Process.step (start standard) (forks 0) = some w ∧ w.children.length = 1 ∧
      ∀ c ∈ w.children, c.Isolated := by
  refine ⟨_, rfl, rfl, (@childrenIsolated_iff standard (forks 0) _ rfl).mpr ?_⟩
  refine allSteps_cons rfl trivial (allSteps_cons rfl trivial (allSteps_cons rfl ?_ trivial))
  refine ⟨⟨rfl, rfl⟩, by decide, by decide, by decide, fun n d hd _ => ?_⟩
  by_contra hn
  have hle : 7 ≤ n := by
    by_contra hlt
    have hcases : n = 0 ∨ n = 1 ∨ n = 2 ∨ n = 3 ∨ n = 4 ∨ n = 5 ∨ n = 6 := by omega
    rcases hcases with rfl | rfl | rfl | rfl | rfl | rfl | rfl <;> exact hn (by decide)
  have hfree : ∀ u : Table, u.bound = 7 → u.get n ≠ some d := by
    intro u hbound
    rw [u.free n (by omega)]
    exact fun h => nomatch h
  exact hfree _ rfl hd

end Ocpe.Descriptors
