import Mathlib.Data.List.TakeDrop
import Ocpe.Sandbox.Descriptors
import Ocpe.Sandbox.Sandbox

/-!
# What a program reads

The child of `Sandbox::run` writes the input into a temporary file, opens that and puts it
under descriptor 0.  At this point the limit on the size of files is in force already, and
no answer of a call is looked at but those of `mkstemp` and `open`, which on failure leave
the input where it is.  So the program is executed in any case, on what is under 0 then.

* `get_childInput`: that is as much of the input as was written, or what the worker has there.
* `childInput_fed`: a child of a worker, which has its own input under 0, reads what `fed` says.
* `childInput_eq_placeInput`: the descriptors are those of `Sandbox/Descriptors.lean`.
* `fed_iff`: when the program is executed on the input and on nothing else.
-/

namespace Ocpe.Sandbox

open Lib

/-- What a descriptor delivers to a program that reads it to the end: exactly these bytes, or
something else. -/
abbrev Source := Option Bytes

/-- What the calls of the child answer. -/
structure InputCalls where
  /-- `mkstemp` -/
  made : Bool
  /-- how many bytes `write` would write without a limit: fewer than all, or none, when it
  fails -/
  wrote : Nat
  /-- `SIGXFSZ` ends the process -/
  xfszFatal : Bool
  /-- `open` -/
  opened : Bool
  /-- `dup2` -/
  dupped : Bool
  /-- `execv` -/
  started : Bool
  deriving DecidableEq, Repr

variable (limits : SandboxLimits) (calls : InputCalls) (inputData : Bytes)

/-- `fsize_limit.rlim_cur`, in bytes.  It is near 2^64 for an `output_limit_kb` below 0, which no
caller gives: there the kernel, which compares signed offsets, would let no byte be written. -/
def fsizeLimit : Nat := (limits.outputLimitKb.toInt64.toUInt64 * 1024).toNat

/-- What is in the temporary file after `write`.  A byte that is written at the limit raises
`SIGXFSZ`. -/
def writeInput : Option Bytes :=
  if fsizeLimit limits = 0 ∧ inputData ≠ [] ∧ calls.xfszFatal then none
  else some (inputData.take (min calls.wrote (fsizeLimit limits)))

/-- The descriptors of the child at its `execv`, from those before `mkstemp`. -/
def childInput (t : FdTable Source) : Option (FdTable Source) :=
  if calls.made then
    let inputFd := t.lowestFree
    let t := t.opens none false
    match writeInput limits calls inputData with
    | none => none
    | some content =>
      let t := t.close inputFd
      if calls.opened then
        let inFd := t.lowestFree
        let t := t.opens (some content) false
        let t := if calls.dupped then t.dup2 inFd 0 else t
        some (t.close inFd)
      else some t
  else some t

def stdin (t : FdTable Source) : Option Source := (t.exec.get 0).map Desc.file

/-- **The program is executed on the input only.** -/
def Fed (t : FdTable Source) : Prop :=
  ∀ u, childInput limits calls inputData t = some u → calls.started = true →
    stdin u = some (some inputData)

def Killed : Prop :=
  calls.made = true ∧ fsizeLimit limits = 0 ∧ inputData ≠ [] ∧ calls.xfszFatal = true

/-- Every call succeeds, and 0 is not the number that the file is opened under. -/
def Placed (t : FdTable Source) : Prop :=
  calls.made = true ∧ calls.opened = true ∧ calls.dupped = true ∧ t.get 0 ≠ none

/-- What the program reads in the child of a worker, which has something of its own under 0; `none`
where the write has ended the child. -/
def fed : Option Source :=
  if calls.made then
    (writeInput limits calls inputData).map fun content =>
      if calls.opened ∧ calls.dupped then some content else none
  else some none

variable {limits calls inputData} {t u : FdTable Source}

instance : Decidable (Placed calls t) := inferInstanceAs (Decidable (_ ∧ _))

theorem writeInput_eq_none_iff :
    writeInput limits calls inputData = none ↔
      fsizeLimit limits = 0 ∧ inputData ≠ [] ∧ calls.xfszFatal = true := by
  unfold writeInput
  split
  · next h => exact iff_of_true rfl h
  · next h => exact iff_of_false (Option.some_ne_none _) h

theorem childInput_eq_none_iff :
    childInput limits calls inputData t = none ↔ Killed limits calls inputData := by
  unfold childInput Killed
  rw [← writeInput_eq_none_iff]
  by_cases hmade : calls.made = true
  · rw [if_pos hmade]
    cases hwrite : writeInput limits calls inputData with
    | none => exact iff_of_true rfl ⟨hmade, rfl⟩
    | some content =>
      refine iff_of_false (fun h => ?_) (fun h => Option.some_ne_none _ h.2)
      dsimp only at h
      split at h <;> cases h
  · rw [if_neg hmade]
    exact iff_of_false (Option.some_ne_none _) (fun h => hmade h.1)

theorem writeInput_eq_some {content : Bytes} (h : writeInput limits calls inputData = some content) :
    content = inputData.take (min calls.wrote (fsizeLimit limits)) := by
  unfold writeInput at h
  split at h
  · cases h
  · exact (Option.some.inj h).symm

/-- **What the child has made of its descriptors** at the `execv`. -/
theorem get_childInput (h : childInput limits calls inputData t = some u) (n : Nat) :
    u.get n =
      if Placed calls t ∧ n = 0 then
        some ⟨some (inputData.take (min calls.wrote (fsizeLimit limits))), false⟩
      else t.get n := by
  have hclosed := FdTable.get_opens_close t none false
  unfold childInput at h
  by_cases hmade : calls.made = true
  · rw [if_pos hmade] at h
    dsimp only at h
    split at h
    · cases h
    next content hcontent =>
    rw [← writeInput_eq_some hcontent]
    by_cases hopened : calls.opened = true
    · rw [if_pos hopened] at h
      by_cases hdupped : calls.dupped = true
      · rw [if_pos hdupped] at h
        cases h
        rw [FdTable.get_opens_dup2_close, FdTable.lowestFree_congr hclosed, hclosed]
        refine if_congr (and_congr_left' ?_) rfl rfl
        simp only [Placed, hmade, hopened, hdupped, true_and, ne_eq,
          FdTable.lowestFree_eq_zero_iff]
      · rw [if_neg hdupped] at h
        cases h
        rw [FdTable.get_opens_close, hclosed, if_neg fun hp => hdupped hp.1.2.2.1]
    · rw [if_neg hopened] at h
      cases h
      rw [hclosed, if_neg fun hp => hopened hp.1.2.1]
  · rw [if_neg hmade] at h
    cases h
    rw [if_neg fun hp => hmade hp.1.1]

/-- Where `dup2` succeeds this is what `Descriptors.placeInput` says, for any account of what
the files deliver. -/
theorem childInput_eq_placeInput {child : Nat} {table : Descriptors.Table}
    {delivers : Descriptors.File → Source}
    (hinput : delivers (.input child) =
      some (inputData.take (min calls.wrote (fsizeLimit limits))))
    (hdupped : calls.dupped = true)
    (h : childInput limits calls inputData (table.map delivers) = some u) (n : Nat) :
    u.get n =
      ((Descriptors.placeInput child calls.made calls.opened table).map delivers).get n := by
  have hzero : (table.map delivers).get 0 ≠ none ↔ table.lowestFree ≠ 0 := by
    rw [ne_eq, ne_eq, FdTable.lowestFree_eq_zero_iff]
    exact not_congr Option.map_eq_none_iff
  show _ = Option.map _ _
  rw [get_childInput h, Descriptors.get_placeInput]
  by_cases hplaced : Placed calls (table.map delivers) ∧ n = 0
  · obtain ⟨⟨hmade, hopened, -, hused⟩, hn⟩ := hplaced
    rw [if_pos ⟨⟨hmade, hopened, hdupped, hused⟩, hn⟩,
      if_pos ⟨⟨hmade, hopened⟩, hzero.mp hused, hn⟩, Option.map_some, hinput]
  · rw [if_neg hplaced, if_neg]
    · rfl
    · intro ⟨⟨hmade, hopened⟩, hused, hn⟩
      exact hplaced ⟨⟨hmade, hopened, hdupped, hzero.mpr hused⟩, hn⟩

theorem childInput_fed (ht : t.get 0 = some ⟨none, false⟩) :
    (childInput limits calls inputData t).map stdin = (fed limits calls inputData).map some := by
  have hstdin : ∀ {u : FdTable Source} {source : Source}, u.get 0 = some ⟨source, false⟩ →
      stdin u = some source := by
    intro u source hget
    rw [stdin, FdTable.get_exec_eq_some.mpr ⟨hget, rfl⟩, Option.map_some]
  by_cases hmade : calls.made = true
  · cases hwrite : writeInput limits calls inputData with
    | none =>
      have hkilled : childInput limits calls inputData t = none :=
        childInput_eq_none_iff.mpr ⟨hmade, writeInput_eq_none_iff.mp hwrite⟩
      simp [hkilled, fed, hmade, hwrite]
    | some content =>
      obtain ⟨u, hu⟩ := Option.ne_none_iff_exists'.mp fun hnone =>
        Option.some_ne_none content
          (hwrite.symm.trans (writeInput_eq_none_iff.mpr (childInput_eq_none_iff.mp hnone).2))
      have hget := get_childInput hu 0
      rw [← writeInput_eq_some hwrite] at hget
      rw [hu, fed, if_pos hmade, hwrite, Option.map_some, Option.map_some, Option.map_some]
      by_cases hplaced : calls.opened = true ∧ calls.dupped = true
      · rw [if_pos ⟨⟨hmade, hplaced.1, hplaced.2, by rw [ht]; simp⟩, rfl⟩] at hget
        rw [if_pos hplaced, hstdin hget]
      · rw [if_neg fun h => hplaced ⟨h.1.2.1, h.1.2.2.1⟩] at hget
        rw [if_neg hplaced, hstdin (hget.trans ht)]
  · rw [childInput, if_neg hmade, fed, if_neg hmade, Option.map_some, Option.map_some, hstdin ht]

theorem stdin_eq_iff : stdin u = some (some inputData) ↔ u.get 0 = some ⟨some inputData, false⟩ := by
  unfold stdin
  rw [Option.map_eq_some_iff]
  constructor
  · rintro ⟨⟨_, _⟩, hget, rfl⟩
    obtain ⟨hget, rfl⟩ := FdTable.get_exec_eq_some.mp hget
    exact hget
  · intro hget
    exact ⟨_, FdTable.get_exec_eq_some.mpr ⟨hget, rfl⟩, rfl⟩

theorem take_eq_iff :
    inputData.take (min calls.wrote (fsizeLimit limits)) = inputData ↔
      inputData.length ≤ calls.wrote ∧ inputData.length ≤ fsizeLimit limits := by
  rw [List.take_eq_self_iff]
  exact Nat.le_min

/-- **When the program is executed on the input only.** -/
theorem fed_iff (limits : SandboxLimits) (calls : InputCalls) (inputData : Bytes)
    (t : FdTable Source) :
    Fed limits calls inputData t ↔
      calls.started = false ∨ Killed limits calls inputData ∨
      (Placed calls t ∧ inputData.length ≤ calls.wrote ∧ inputData.length ≤ fsizeLimit limits) ∨
      (¬ Placed calls t ∧ t.get 0 = some ⟨some inputData, false⟩) := by
  by_cases hstarted : calls.started = true
  swap
  · exact iff_of_true (fun _ _ h => absurd h hstarted) (.inl (by simpa using hstarted))
  cases hchild : childInput limits calls inputData t with
  | none =>
    have hkilled := childInput_eq_none_iff.mp hchild
    refine iff_of_true (fun u hu => ?_) (.inr (.inl hkilled))
    rw [hchild] at hu
    cases hu
  | some u =>
    have hkilled : ¬ Killed limits calls inputData := by
      intro hkilled
      rw [childInput_eq_none_iff.mpr hkilled] at hchild
      cases hchild
    have hfed : Fed limits calls inputData t ↔ u.get 0 = some ⟨some inputData, false⟩ := by
      rw [← stdin_eq_iff]
      constructor
      · intro h
        exact h u hchild hstarted
      · intro h u' hu' _
        cases hchild.symm.trans hu'
        exact h
    have hget := get_childInput hchild 0
    simp only [hfed, hstarted, Bool.true_eq_false, hkilled, false_or]
    by_cases hp : Placed calls t
    · rw [hget, if_pos ⟨hp, rfl⟩, ← take_eq_iff]
      simp [hp]
    · rw [hget, if_neg fun h => hp h.1]
      simp [hp]

def onlyStdin (source : Source) : FdTable Source where
  get n := if n = 0 then some ⟨source, false⟩ else none
  bound := 1
  free n hn := if_neg (by omega)

/-- An input that is longer than the limit is cut. -/
theorem not_fed_of_long (hplaced : Placed calls t) (hstarted : calls.started = true)
    (hpos : 0 < fsizeLimit limits) (hlong : fsizeLimit limits < inputData.length) :
    ¬ Fed limits calls inputData t := by
  intro h
  cases hchild : childInput limits calls inputData t with
  | none =>
    have hzero := (childInput_eq_none_iff.mp hchild).2.1
    omega
  | some u =>
    have hget := stdin_eq_iff.mp (h u hchild hstarted)
    rw [get_childInput hchild, if_pos ⟨hplaced, rfl⟩] at hget
    have htake : inputData.take (min calls.wrote (fsizeLimit limits)) = inputData := by
      simpa using hget
    have := (take_eq_iff.mp htake).2
    omega

/-- With the limits of the judge this is one byte more than 1 MiB, and every call succeeds. -/
theorem cut_input :
    ¬ Fed {} ⟨true, 1048577, true, true, true, true⟩ (List.replicate 1048577 65)
      (onlyStdin (some [])) := by
  have hlimit : fsizeLimit {} = 1048576 := by decide
  apply not_fed_of_long
  · exact ⟨rfl, rfl, rfl, Option.some_ne_none _⟩
  · rfl
  · rw [hlimit]
    decide
  · rw [hlimit, List.length_replicate]
    decide

end Ocpe.Sandbox
