import Ocpe.Lib.Run
import Ocpe.Worker.WorkTree

/-!
# Evaluations side by side

Any number of workers evaluate on one disk, each moving when it does.  To place its input the child
of `Sandbox::run` takes several steps there: it makes a file in `/tmp` under a name that is not in
use, writes the input, opens the file under its name and takes the name away.

* `Bench`: the workers and their children on the disk, one step at a time.
* `refines_step`: the inputs do not meet, so each is placed as if in one step, with nothing left.
* `workers_undisturbed`: workers with different submissions judge as each does alone.
-/

namespace Ocpe

open Lib

/-! ### The steps -/

/-- What the child has done to place the input. -/
inductive PlacingStage
  | made
  | written
  /-- the file is open, with what was found in it, or `open` has failed -/
  | opened (found : Sandbox.Source)

structure Placing where
  name : Bytes
  stage : PlacingStage

/-- The disk, where each worker stands, and the children that place an input. -/
structure Bench (P : Type) where
  disk : WorkDisk
  tasks : P → Task EvalOp EvalReply Exn SubmissionResult
  placing : P → Option Placing

namespace Bench

variable {P : Type} [DecidableEq P]

def reached (x : Bench P) (p : P) (d : WorkDisk) (placing : Placing) : Bench P :=
  { x with disk := d, placing := Function.update x.placing p (some placing) }

def replied (x : Bench P) (p : P) (d : WorkDisk) (reply : EvalReply) : Bench P where
  disk := d
  tasks := Function.update x.tasks p ((x.tasks p).feed reply)
  placing := Function.update x.placing p none

/-- The next step of the child to place the input; `mkstemp` gives it the name. -/
def place (x : Bench P) (p : P) (name : Bytes) (limits : SandboxLimits)
    (calls : Sandbox.InputCalls) (input : Bytes) : Option (Bench P) :=
  match x.placing p with
  | none =>
    if calls.made = false then some (x.replied p x.disk (.fed (some none)))
    else if isInputName name = true ∧ x.disk.look name = none then
      some (x.reached p (x.disk.put name (.file [])) ⟨name, .made⟩)
    else none
  | some ⟨name, .made⟩ =>
    match Sandbox.writeInput limits calls input with
    -- `SIGXFSZ` has ended the child, and nobody takes the file away
    | none => some (x.replied p x.disk (.fed none))
    | some content => some (x.reached p (x.disk.put name (.file content)) ⟨name, .written⟩)
  | some ⟨name, .written⟩ =>
    let found := if calls.opened then (x.disk.look name).bind Node.contents? else none
    some (x.reached p x.disk ⟨name, .opened found⟩)
  | some ⟨name, .opened found⟩ =>
    some (x.replied p (x.disk.erase name) (.fed (some (if calls.dupped then found else none))))

/-- A worker, or its child, takes one step. -/
def step (x : Bench P) (a : P × Bytes) : Option (Bench P) :=
  match (x.tasks a.1).op? with
  | none => none
  | some (.file op) => some (x.replied a.1 (x.disk.serve op).1 (.file (x.disk.serve op).2))
  | some (.placeInput limits calls input) => x.place a.1 a.2 limits calls input

end Bench

/-! ### As if in one step -/

/-- The file of a child that places its input. -/
structure Holds (submissionsDir : Bytes) (d : WorkDisk) (limits : SandboxLimits)
    (calls : Sandbox.InputCalls) (input : Bytes) (placing : Placing) : Prop where
  made : calls.made = true
  named : placing.name ∈ inputNames submissionsDir
  file : ∃ content, d.look placing.name = some (.file content) ∧
    match placing.stage with
    | .made => True
    | .written => Sandbox.writeInput limits calls input = some content
    | .opened found => Sandbox.writeInput limits calls input = some content ∧
        found = if calls.opened then some content else none

section Refines

variable {P : Type} [DecidableEq P] (submissionsDir : Bytes)

/-- The evaluations are at the same operations on a disk that differs in the inputs only, and each
child has a file of its own. -/
structure Refines (x : Bench P) (y : Shared WorkDisk EvalOp EvalReply Exn SubmissionResult P) :
    Prop where
  tasks : y.tasks = x.tasks
  same : ∀ k ∉ inputNames submissionsDir, y.state.look k = x.disk.look k
  held : ∀ p placing, x.placing p = some placing → ∃ limits calls input,
    (x.tasks p).op? = some (.placeInput limits calls input) ∧
      Holds submissionsDir x.disk limits calls input placing
  distinct : ∀ p q, p ≠ q → ∀ a b, x.placing p = some a → x.placing q = some b → a.name ≠ b.name

variable {submissionsDir} {x x' : Bench P}
  {y : Shared WorkDisk EvalOp EvalReply Exn SubmissionResult P} {p : P} {limits : SandboxLimits}
  {calls : Sandbox.InputCalls} {input : Bytes}

theorem Holds.congr {d d' : WorkDisk} {placing : Placing}
    (h : Holds submissionsDir d limits calls input placing)
    (hlook : d'.look placing.name = d.look placing.name) :
    Holds submissionsDir d' limits calls input placing where
  made := h.made
  named := h.named
  file := hlook ▸ h.file

theorem Refines.reached (h : Refines submissionsDir x y) {d : WorkDisk} {placing : Placing}
    (hop : (x.tasks p).op? = some (.placeInput limits calls input))
    (hholds : Holds submissionsDir d limits calls input placing)
    (hframe : ∀ k, k ≠ placing.name → d.look k = x.disk.look k)
    (hothers : ∀ q, q ≠ p → ∀ b, x.placing q = some b → b.name ≠ placing.name) :
    Refines submissionsDir (x.reached p d placing) y where
  tasks := h.tasks
  same k hk := (h.same k hk).trans (hframe k fun heq => hk (heq ▸ hholds.named)).symm
  held q b hq := by
    by_cases hqp : q = p
    · subst hqp
      obtain rfl : placing = b := by simpa [Bench.reached] using hq
      exact ⟨limits, calls, input, hop, hholds⟩
    · have hb : x.placing q = some b := by simpa [Bench.reached, hqp] using hq
      obtain ⟨limits, calls, input, hop, hholds⟩ := h.held q b hb
      exact ⟨limits, calls, input, hop, hholds.congr (hframe _ (hothers q hqp b hb))⟩
  distinct q r hqr a b hq hr := by
    by_cases hqp : q = p
    · subst hqp
      obtain rfl : placing = a := by simpa [Bench.reached] using hq
      exact (hothers r hqr.symm b (by simpa [Bench.reached, hqr.symm] using hr)).symm
    · have ha : x.placing q = some a := by simpa [Bench.reached, hqp] using hq
      by_cases hrp : r = p
      · subst hrp
        obtain rfl : placing = b := by simpa [Bench.reached] using hr
        exact hothers q hqp a ha
      · exact h.distinct q r hqr a b ha (by simpa [Bench.reached, hrp] using hr)

theorem Refines.replied (h : Refines submissionsDir x y) {d : WorkDisk} {op : EvalOp}
    (hop : (x.tasks p).op? = some op)
    (hsame : ∀ k ∉ inputNames submissionsDir, (serve y.state op).1.look k = d.look k)
    (hothers : ∀ q, q ≠ p → ∀ b, x.placing q = some b → d.look b.name = x.disk.look b.name) :
    ∃ y', y.step serve p = some y' ∧
      Refines submissionsDir (x.replied p d (serve y.state op).2) y' := by
  refine ⟨_, Option.map_eq_some_iff.mpr ⟨op, h.tasks ▸ hop, rfl⟩, ?_, hsame, ?_, ?_⟩
  · rw [h.tasks]
    rfl
  · intro q b hq
    by_cases hqp : q = p
    · subst hqp
      simp [Bench.replied] at hq
    · have hb : x.placing q = some b := by simpa [Bench.replied, hqp] using hq
      obtain ⟨limits, calls, input, hop, hholds⟩ := h.held q b hb
      refine ⟨limits, calls, input, ?_, hholds.congr (hothers q hqp b hb)⟩
      simpa [Bench.replied, hqp] using hop
  · intro q r hqr a b hq hr
    by_cases hqp : q = p
    · subst hqp
      simp [Bench.replied] at hq
    by_cases hrp : r = p
    · subst hrp
      simp [Bench.replied] at hr
    · exact h.distinct q r hqr a b (by simpa [Bench.replied, hqp] using hq)
        (by simpa [Bench.replied, hrp] using hr)

/-- What `mkstemp` gives is the name of no directory above, since those are there. -/
theorem input_of_fresh {d : WorkDisk} (hready : Ready submissionsDir d) {name : Bytes}
    (hname : isInputName name = true) (hfresh : d.look name = none) :
    name ∈ inputNames submissionsDir := by
  refine ⟨hname, fun habove => ?_⟩
  simp only [isInputName, Bool.and_eq_true, decide_eq_true_eq] at hname
  obtain ⟨⟨-, hlen⟩, hletters⟩ := hname
  have hne : name ≠ [] := fun hnil => by simp [hnil] at hlen
  have hlast : name.getLast? ≠ some 47 := by
    intro hslash
    have hmem : (47 : UInt8) ∈ name.drop 16 := by
      apply List.mem_of_getLast?
      rw [List.getLast?_drop, if_neg (by omega)]
      exact hslash
    exact absurd (List.all_eq_true.mp hletters 47 hmem) (by decide)
  rw [hready name habove hne hlast] at hfresh
  cases hfresh

/-- **A step of the child** to place its input is seen only when it is the last. -/
theorem refines_place (h : Refines submissionsDir x y) (hready : Ready submissionsDir x.disk)
    {name : Bytes} (hop : (x.tasks p).op? = some (.placeInput limits calls input))
    (hstep : x.place p name limits calls input = some x') :
    Refines submissionsDir x' y ∨
      ∃ y', y.step serve p = some y' ∧ Refines submissionsDir x' y' := by
  have hreply : (serve y.state (.placeInput limits calls input)).2 =
      .fed (Sandbox.fed limits calls input) := rfl
  -- the names of two children differ
  have hothers : ∀ {name stage}, x.placing p = some ⟨name, stage⟩ →
      ∀ q, q ≠ p → ∀ b, x.placing q = some b → b.name ≠ name :=
    fun hplacing q hq b hb => h.distinct q p hq b _ hb hplacing
  have hput : ∀ (name : Bytes) (node : Node) (k : Bytes), k ≠ name →
      (x.disk.put name node).look k = x.disk.look k := fun name node k hk =>
    WorkDisk.look_put_of_ne _ _ _ hk
  unfold Bench.place at hstep
  split at hstep
  · next hnone =>
    split at hstep
    · next hmade =>
      cases hstep
      have hfed : Sandbox.fed limits calls input = some none := by
        rw [Sandbox.fed, if_neg (by simp [hmade])]
      have hend := h.replied hop (d := x.disk) (fun k hk => h.same k hk) fun _ _ _ _ => rfl
      rw [hreply, hfed] at hend
      exact .inr hend
    next hmade =>
    split at hstep
    · next hfresh =>
      cases hstep
      refine .inl (h.reached hop ⟨by simpa using hmade, input_of_fresh hready hfresh.1 hfresh.2, [],
        WorkDisk.look_put_self .., trivial⟩ (hput _ _) fun q _ b hb heq => ?_)
      -- the file of another child is there
      obtain ⟨_, _, _, -, hholds⟩ := h.held q b hb
      obtain ⟨content, hfile, -⟩ := hholds.file
      rw [heq, hfresh.2] at hfile
      cases hfile
    · cases hstep
  · next name hplacing =>
    obtain ⟨limits', calls', input', hop', hholds⟩ := h.held p _ hplacing
    cases hop.symm.trans hop'
    split at hstep
    · next hwrite =>
      cases hstep
      have hfed : Sandbox.fed limits calls input = none := by
        rw [Sandbox.fed, if_pos hholds.made, hwrite, Option.map_none]
      have hend := h.replied hop (d := x.disk) (fun k hk => h.same k hk) fun _ _ _ _ => rfl
      rw [hreply, hfed] at hend
      exact .inr hend
    · next content hwrite =>
      cases hstep
      exact .inl (h.reached hop ⟨hholds.made, hholds.named, content, WorkDisk.look_put_self ..,
        hwrite⟩ (hput _ _) (hothers hplacing))
  · next name hplacing =>
    obtain ⟨limits', calls', input', hop', hholds⟩ := h.held p _ hplacing
    cases hop.symm.trans hop'
    cases hstep
    obtain ⟨content, hfile, hwrite⟩ := hholds.file
    refine .inl (h.reached hop ⟨hholds.made, hholds.named, content, hfile, hwrite, ?_⟩
      (fun _ _ => rfl) (hothers hplacing))
    change x.disk.look name = _ at hfile
    rw [hfile]
    rfl
  · next name found hplacing =>
    obtain ⟨limits', calls', input', hop', hholds⟩ := h.held p _ hplacing
    cases hop.symm.trans hop'
    cases hstep
    obtain ⟨content, hfile, hwrite, hfound⟩ := hholds.file
    have hfed : Sandbox.fed limits calls input = some (if calls.dupped then found else none) := by
      rw [Sandbox.fed, if_pos hholds.made, hwrite, Option.map_some, hfound]
      cases calls.opened <;> cases calls.dupped <;> rfl
    have herase : ∀ k ∉ inputNames submissionsDir,
        (serve y.state (.placeInput limits calls input)).1.look k = (x.disk.erase name).look k := by
      intro k hk
      rw [WorkDisk.look_erase_of_ne _ _ fun heq : k = name => hk (heq ▸ hholds.named)]
      exact h.same k hk
    have hend := h.replied hop herase fun q hq b hb =>
      WorkDisk.look_erase_of_ne _ _ (hothers hplacing q hq b hb)
    rw [hreply, hfed] at hend
    exact .inr hend

variable {mine : P → Set Bytes}

/-- **A step of the bench** is one of the evaluations, or none of them. -/
theorem refines_step (h : Refines submissionsDir x y)
    (hmine : ∀ p, ∀ k ∈ mine p, k ∉ inputNames submissionsDir)
    (hstays : ∀ p, StaysIn WorkDisk.look serve (mine p) (elsewhere submissionsDir) y.state
      (y.tasks p).rest)
    (hready : Ready submissionsDir x.disk) {a : P × Bytes} (hstep : x.step a = some x') :
    Refines submissionsDir x' y ∨
      ∃ y', y.step serve a.1 = some y' ∧ Refines submissionsDir x' y' := by
  unfold Bench.step at hstep
  split at hstep
  · cases hstep
  · next op hop =>
    cases hstep
    obtain ⟨next, hrest⟩ := Task.op?_eq_some.mp hop
    have hkeeps := hstays a.1
    rw [h.tasks, hrest] at hkeeps
    -- the inputs are out of its sight
    have heq : Set.EqOn y.state.look x.disk.look (mine a.1 ∪ elsewhere submissionsDir) := by
      rintro k (hk | hk)
      · exact h.same k (hmine a.1 k hk)
      · exact h.same k hk.2
    have hreply : (serve y.state (.file op)).2 = .file (x.disk.serve op).2 :=
      hkeeps.1.reply x.disk heq
    have hend := h.replied hop (d := (x.disk.serve op).1) (fun k hk => ?_) fun q _ b hb => ?_
    · rw [hreply] at hend
      exact .inr hend
    · by_cases hk' : k ∈ mine a.1
      · exact hkeeps.1.effect x.disk heq hk'
      · rw [hkeeps.1.frame y.state (Set.eqOn_refl _ _) k hk', h.same k hk]
        exact (hkeeps.1.frame x.disk heq k hk').symm
    · obtain ⟨_, _, _, -, hholds⟩ := h.held q b hb
      exact hkeeps.1.frame x.disk heq b.name fun hk => hmine a.1 _ hk hholds.named
  · next limits calls input hop => exact refines_place h hready hop hstep

end Refines

/-! ### The workers -/

section Workers

variable {F : JsonFormat} {problemsDir submissionsDir : Bytes} {files : FileSys} {d : WorkDisk}
  {P : Type} [DecidableEq P] {tools : P → Tools} {job : P → SubmissionJob} {x : Bench P}

variable (F problemsDir submissionsDir files d) in
/-- Each of the jobs is about to be evaluated. -/
def Bench.begin (tools : P → Tools) (job : P → SubmissionJob) : Bench P where
  disk := d
  tasks p := .begin (evaluateOnDisk F problemsDir submissionsDir files (tools p) (job p))
  placing _ := none

/-- **No worker disturbs another.**  Any number of workers evaluate the jobs of different
submissions, with ids as `POST /submit` draws them, on one disk, moving in any order.  When the
compiler and the program of each, run alone, keep to the directory of the submission, every
evaluation that ends does so as `evaluateSubmission` does alone on the disk, and nothing outside
these directories has changed but inputs in `/tmp`. -/
theorem workers_undisturbed {id : P → HexString 32}
    (hid : ∀ p, (job p).submissionId = (id p).text)
    (hdistinct : ∀ p q, p ≠ q → (id p).text ≠ (id q).text) (hready : Ready submissionsDir d)
    (htools : ∀ p, ToolsKeep F problemsDir submissionsDir files (tools p) d (job p))
    {as : List (P × Bytes)}
    (hrun : run Bench.step (.begin F problemsDir submissionsDir files d tools job) as = some x) :
    (∀ p result, (x.tasks p).rest = .pure result →
      aloneOnDisk F problemsDir submissionsDir files (tools p) d (job p) = .ok result) ∧
    (∀ p e, (x.tasks p).rest = .throw e →
      aloneOnDisk F problemsDir submissionsDir files (tools p) d (job p) = .error e) ∧
    ∀ k, (∀ p, k ∉ workTree submissionsDir (id p).text) → isInputName k = false →
      x.disk.look k = d.look k := by
  have hname : ∀ p, EntryName (job p).submissionId := fun p =>
    hid p ▸ (id p).entryName (by decide)
  have hmine : ∀ p, ∀ k ∈ workTree submissionsDir (job p).submissionId,
      k ∉ inputNames submissionsDir := fun p => hid p ▸ input_notMem_workTree (id p)
  have hdisjoint : ∀ p q, p ≠ q → ∀ k ∈ workTree submissionsDir (job p).submissionId,
      k ∉ workTree submissionsDir (job q).submissionId := fun p q hpq =>
    workTree_disjoint (hname p) (hname q) (by rw [hid p, hid q]; exact hdistinct p q hpq)
  -- the evaluations, each input placed in one step
  let x₀ : Shared WorkDisk EvalOp EvalReply Exn SubmissionResult P :=
    ⟨d, fun p => .begin (evaluateOnDisk F problemsDir submissionsDir files (tools p) (job p))⟩
  obtain ⟨y, hrefines, hund⟩ : ∃ y, Refines submissionsDir x y ∧
      Undisturbed WorkDisk.look serve (fun p => workTree submissionsDir (job p).submissionId)
        (elsewhere submissionsDir) x₀ y := by
    refine run_invariant (fun x => ∃ y, Refines submissionsDir x y ∧ Undisturbed _ _ _ _ x₀ y) hrun
      ⟨x₀, ⟨rfl, fun _ _ => rfl, fun _ _ h => absurd h.symm (Option.some_ne_none _),
          fun _ _ _ _ _ h => absurd h.symm (Option.some_ne_none _)⟩,
        ⟨fun p => evaluateOnDisk_staysIn (hname p) hready (htools p), fun _ => rfl,
          fun _ => Set.eqOn_refl _ _, fun _ _ => rfl⟩⟩ ?_
    rintro x a x' ⟨y, hrefines, hund⟩ hstep
    have hready' : Ready submissionsDir x.disk := by
      intro k hk hne hlast
      have helse := above_subset hk
      rw [← hrefines.same k helse.2, hund.frame k fun p hp => elsewhere_disjoint k hp helse]
      exact hready k hk hne hlast
    rcases refines_step hrefines hmine hund.confined hready' hstep with
      hsame | ⟨y', hy, hrefines'⟩
    · exact ⟨y, hsame, hund⟩
    · exact ⟨y', hrefines', undisturbed_step hdisjoint (fun _ => elsewhere_disjoint) hund hy⟩
  have halone : ∀ p, aloneOnDisk F problemsDir submissionsDir files (tools p) d (job p) =
      (Prog.interp serve y.state (x.tasks p).rest).2 := by
    intro p
    rw [aloneOnDisk_eq, ← hrefines.tasks, hund.result p]
    rfl
  refine ⟨fun p result hrest => ?_, fun p e hrest => ?_, fun k hk hinput => ?_⟩
  · rw [halone p, hrest]
    rfl
  · rw [halone p, hrest]
    rfl
  · have hnot : k ∉ inputNames submissionsDir := by
      intro hmem
      rw [hmem.1] at hinput
      cases hinput
    rw [← hrefines.same k hnot]
    exact hund.frame k fun p => by rw [hid p]; exact hk p

end Workers

/-! ### Two workers -/

/-- The source of a program that prints its input. -/
def catSource : Bytes :=
  "#include <stdio.h>\nint main(void) \x7b int c; while ((c = getchar()) != EOF) putchar(c); \x7d\n"

/-- A compiler that makes an executable of any source, and the program above. -/
def catTools : Tools where
  compiler argv :=
    match argv with
    | [_, _, _, _, source, _, output, _] =>
      .op (.read source) fun reply =>
        match reply.node? with
        | some (.file contents) => .op (.write output contents) fun _ => .pure (.exited 0 [])
        | _ => .pure (.exited 256 [])
    | _ => .pure (.exited 256 [])
  program _ runnablePath _ stdin _ :=
    .op (.read runnablePath) fun reply =>
      match reply.node? with
      | some (.file _) => .pure ⟨false, stdin.getD [], [], 0, {}⟩
      | _ => .pure ⟨false, [], [], 0, {}⟩
  calls _ := ⟨true, true, ⟨true, 4096, true, true, true, true⟩, ⟨false, [], [], 0, {}⟩⟩

section Cat

variable {F : JsonFormat} {problemsDir submissionsDir : Bytes} {files : FileSys} {d : WorkDisk}
  {job : SubmissionJob}

theorem catTools_keep (h : EntryName job.submissionId) :
    ToolsKeep F problemsDir submissionsDir files catTools d job := by
  intro problem _
  have hbinary : EntryName (bytes "main") := ⟨by decide, by decide⟩
  have hsourceIn : sourcePath submissionsDir job ∈ workTree submissionsDir job.submissionId :=
    file_mem_workTree h (entryName_main (extension_noSlash _))
  have hbinaryIn : binaryPath submissionsDir job ∈ workTree submissionsDir job.submissionId :=
    file_mem_workTree h hbinary
  have hparent : WorkDisk.parentPath (binaryPath submissionsDir job) ∈
      workTree submissionsDir job.submissionId := by
    rw [binaryPath, parentPath_file h hbinary]
    exact .inl (workDir_eq h)
  have hcompiler : ∀ language d, StaysIn WorkDisk.look serve
      (workTree submissionsDir job.submissionId) (elsewhere submissionsDir) d
      (Outside.embed (catTools.compiler (compileArgv language (sourcePath submissionsDir job)
        (binaryPath submissionsDir job)))) := by
    intro language d
    unfold compileArgv
    split
    · trivial
    split
    · trivial
    · refine ⟨read_keeps (.inl hsourceIn), ?_⟩
      dsimp only
      split
      · exact ⟨write_keeps hbinaryIn hparent, trivial⟩
      · trivial
  have htests : ∀ compile limits (tests : List (Bytes × Bytes)) i d,
      compile.runnablePath ∈ workTree submissionsDir job.submissionId →
      StaysIn WorkDisk.look serve (workTree submissionsDir job.submissionId)
        (elsewhere submissionsDir) d (runTests catTools compile limits i tests) := by
    intro compile limits tests
    induction tests with
    | nil => exact fun _ _ _ => trivial
    | cons test rest ih =>
      intro i d hpath
      refine staysIn_bind ?_ fun _ _ => staysIn_bind (ih _ _ hpath) fun _ _ => trivial
      refine staysIn_perform (placeInput_keeps _ _ _) ?_
      split
      · trivial
      · refine staysIn_bind ⟨read_keeps (.inl hpath), ?_⟩ fun _ _ => trivial
        dsimp only
        split <;> trivial
  refine staysIn_bind (staysIn_bind (hcompiler _ _) fun _ _ => trivial) fun compile hcompile => ?_
  split
  · trivial
  · refine staysIn_bind (htests compile _ _ _ _ ?_) fun _ _ => trivial
    obtain rfl := Except.ok.inj ((compileOnDisk_ok _).symm.trans hcompile)
    unfold compileSource
    dsimp only
    split
    · exact hsourceIn
    · exact hbinaryIn

end Cat

def twoProblems : FileSys := .ofFiles
  [("p/a/meta.json", bytes "\x7b\x7d"), ("p/a/tests/0.in", "1"), ("p/a/tests/0.out", "1"),
    ("p/b/meta.json", bytes "\x7b\x7d"), ("p/b/tests/0.in", "2"), ("p/b/tests/0.out", "2")]

theorem two_isHex : (50 : UInt8) ∈ bytes "0123456789abcdef" := by decide

def eitherId : Bool → HexString 32
  | true => .replicate 32 49 one_isHex
  | false => .replicate 32 50 two_isHex

def catJob (p : Bool) : SubmissionJob :=
  { submissionId := (eitherId p).text
    problemId := if p then "a" else "b"
    sourceCode := catSource }

/-- The inputs are in `/tmp` at the same time. -/
def sideBySide : List (Bool × Bytes) :=
  [(true, []), (true, []), (true, []), (false, []), (false, []), (true, []),
    (true, "/tmp/ocpe_input_aaaaaa"), (true, []), (false, []), (false, []),
    (false, "/tmp/ocpe_input_bbbbbb"), (false, []), (true, []), (true, []), (false, []),
    (false, []), (true, []), (false, []), (true, []), (false, [])]

/-- Each of the two is judged on its own input. -/
theorem workers_undisturbed_both :
    ∃ x : Bench Bool,
      run Bench.step (.begin jsonText "p" "s" twoProblems [("s", .dir)] (fun _ => catTools) catJob)
        sideBySide = some x ∧
      ∀ p, ∃ result, (x.tasks p).rest = .pure result ∧ result.verdict = .accepted ∧
        aloneOnDisk jsonText "p" "s" twoProblems catTools [("s", .dir)] (catJob p) =
          .ok result := by
  have hready : Ready "s" [("s", .dir)] := by
    intro k hk hne _
    obtain ⟨rest, hrest⟩ := hk
    have hbase : baseDir "s" = [115, 47] := by decide
    rw [hbase] at hrest
    cases k with
    | nil => exact absurd rfl hne
    | cons b k =>
      cases k with
      | nil =>
        cases hrest
        rfl
      | cons c k =>
        have hlen := congrArg List.length hrest
        simp at hlen
  have hdistinct : ∀ p q : Bool, p ≠ q → (eitherId p).text ≠ (eitherId q).text := by decide
  obtain ⟨x, hrun, htrue, hfalse⟩ : ∃ x : Bench Bool,
      run Bench.step (.begin jsonText "p" "s" twoProblems [("s", .dir)] (fun _ => catTools) catJob)
        sideBySide = some x ∧
      (∃ result, (x.tasks true).rest = .pure result ∧ result.verdict = .accepted) ∧
      ∃ result, (x.tasks false).rest = .pure result ∧ result.verdict = .accepted :=
    ⟨_, rfl, ⟨_, rfl, by decide⟩, _, rfl, by decide⟩
  have halone := (workers_undisturbed (fun _ => rfl) hdistinct hready
    (fun p => catTools_keep ((eitherId p).entryName (by decide))) hrun).1
  refine ⟨x, hrun, fun p => ?_⟩
  cases p with
  | true =>
    obtain ⟨result, hrest, haccepted⟩ := htrue
    exact ⟨result, hrest, haccepted, halone true result hrest⟩
  | false =>
    obtain ⟨result, hrest, haccepted⟩ := hfalse
    exact ⟨result, hrest, haccepted, halone false result hrest⟩

end Ocpe
