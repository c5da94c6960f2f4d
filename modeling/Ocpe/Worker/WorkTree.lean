import Mathlib.Data.List.Infix
import Ocpe.Worker.Workspace

/-!
# The directory of a submission

* `workTree_disjoint`: the directories of different submissions have nothing in common.
* `createDirectories_keeps`, `write_keeps`, `remove_keeps`: what an evaluation does on the disk is
  done in the directory of its submission.
* `evaluateOnDisk_staysIn`: so it keeps to this directory, when its compiler and its program do.
-/

namespace Ocpe

open Lib

/-! ### The directory of a submission -/

section Tree

variable (submissionsDir : Bytes)

/-- The directory of the submissions, with its slash. -/
def baseDir : Bytes := pathAppend submissionsDir []

/-- A name for an entry of a directory. -/
structure EntryName (name : Bytes) : Prop where
  nonempty : name ≠ []
  noSlash : 47 ∉ name

/-- The paths of a submission: its directory and what is below. -/
def workTree (id : Bytes) : Set Bytes :=
  {k | k = baseDir submissionsDir ++ id ∨ (baseDir submissionsDir ++ id ++ [47]) <+: k}

/-- The paths above. -/
def above : Set Bytes := {k | (k ++ [47]) <+: baseDir submissionsDir}

/-- A name that `mkstemp` makes of `/tmp/ocpe_input_XXXXXX`. -/
def isInputName (name : Bytes) : Bool :=
  (bytes "/tmp/ocpe_input_").isPrefixOf name && name.length = 22 &&
    (name.drop 16).all fun b => 48 ≤ b && b ≤ 57 || 65 ≤ b && b ≤ 90 || 97 ≤ b && b ≤ 122

/-- The names of inputs; the directories above are none. -/
def inputNames : Set Bytes := {k | isInputName k = true ∧ k ∉ above submissionsDir}

/-- The paths that are neither in the directory of the submissions nor inputs. -/
def elsewhere : Set Bytes :=
  {k | ¬ baseDir submissionsDir <+: k ∧ k ∉ inputNames submissionsDir}

/-- The directory of the submissions is there. -/
def Ready (d : WorkDisk) : Prop :=
  ∀ k ∈ above submissionsDir, k ≠ [] → k.getLast? ≠ some 47 → d.look k = some .dir

variable {submissionsDir} {id id' name : Bytes}

theorem EntryName.head (h : EntryName name) : name.head? ≠ some 47 := fun hhead =>
  h.noSlash (List.mem_of_mem_head? hhead)

theorem EntryName.last (h : EntryName name) (p : Bytes) : (p ++ name).getLast? ≠ some 47 := by
  rw [List.getLast?_append_of_ne_nil _ h.nonempty]
  exact fun hlast => h.noSlash (List.mem_of_getLast? hlast)

theorem pathAppend_base (h : EntryName id) :
    pathAppend submissionsDir id = baseDir submissionsDir ++ id := by
  unfold baseDir pathAppend
  rw [if_neg h.head, if_neg (show ¬ ([] : Bytes).head? = some 47 by simp)]
  split
  · simp
  · simp

theorem mem_workTree_iff {k : Bytes} : k ∈ workTree submissionsDir id ↔
    ∃ rest, k = baseDir submissionsDir ++ (id ++ rest) ∧ (rest = [] ∨ rest.head? = some 47) := by
  constructor
  · rintro (rfl | ⟨rest, rfl⟩)
    · exact ⟨[], by simp, .inl rfl⟩
    · exact ⟨47 :: rest, by simp, .inr rfl⟩
  · rintro ⟨rest, rfl, rfl | hrest⟩
    · exact .inl (by simp)
    · obtain ⟨rest, rfl⟩ := List.head?_eq_some_iff.mp hrest
      exact .inr ⟨rest, by simp⟩

theorem name_of_append {rest rest' : Bytes} (h : EntryName id) (h' : EntryName id')
    (hrest : rest = [] ∨ rest.head? = some 47) (hrest' : rest' = [] ∨ rest'.head? = some 47)
    (heq : id ++ rest = id' ++ rest') : id = id' := by
  have htake : ∀ {name rest : Bytes}, EntryName name → (rest = [] ∨ rest.head? = some 47) →
      (name ++ rest).takeWhile (· ≠ 47) = name := by
    intro name rest hname hrest
    rw [List.takeWhile_append_of_pos]
    · rcases hrest with rfl | hrest
      · simp
      · obtain ⟨rest, rfl⟩ := List.head?_eq_some_iff.mp hrest
        simp
    · intro b hb
      rw [decide_eq_true_eq]
      rintro rfl
      exact hname.noSlash hb
  rw [← htake h hrest, heq, htake h' hrest']

/-- **Different submissions have nothing in common.** -/
theorem workTree_disjoint (h : EntryName id) (h' : EntryName id') (hne : id ≠ id') :
    ∀ k ∈ workTree submissionsDir id, k ∉ workTree submissionsDir id' := by
  intro k hk hk'
  obtain ⟨rest, rfl, hrest⟩ := mem_workTree_iff.mp hk
  obtain ⟨rest', heq, hrest'⟩ := mem_workTree_iff.mp hk'
  exact hne (name_of_append h h' hrest hrest' (List.append_cancel_left heq))

theorem above_subset : above submissionsDir ⊆ elsewhere submissionsDir := by
  intro k hk
  refine ⟨fun hbase => ?_, fun hinput => hinput.2 hk⟩
  have hlt := List.IsPrefix.length_le hk
  have hle := hbase.length_le
  simp only [List.length_append, List.length_singleton] at hlt
  omega

theorem elsewhere_disjoint : ∀ k ∈ workTree submissionsDir id, k ∉ elsewhere submissionsDir := by
  intro k hk helse
  obtain ⟨rest, rfl, -⟩ := mem_workTree_iff.mp hk
  exact helse.1 (List.prefix_append _ _)

/-- The name of an input is shorter than an id. -/
theorem input_notMem_workTree (s : HexString 32) :
    ∀ k ∈ workTree submissionsDir s.text, k ∉ inputNames submissionsDir := by
  intro k hk hinput
  obtain ⟨rest, rfl, -⟩ := mem_workTree_iff.mp hk
  have hname := hinput.1
  simp only [isInputName, Bool.and_eq_true, decide_eq_true_eq] at hname
  have hlen := hname.1.2
  have hid := s.length_text
  simp only [List.length_append] at hlen
  omega

theorem onTheWay_base (h : EntryName id) {q : Bytes}
    (hq : q ∈ WorkDisk.onTheWay (baseDir submissionsDir ++ id)) :
    q = baseDir submissionsDir ++ id ∨
      (q ∈ above submissionsDir ∧ q ≠ [] ∧ q.getLast? ≠ some 47) := by
  unfold WorkDisk.onTheWay at hq
  rw [List.mem_filter, List.mem_inits, decide_eq_true_eq] at hq
  obtain ⟨hinit, hne, hlast, heq | hslash⟩ := hq
  · exact .inl heq
  · refine .inr ⟨?_, hne, hlast⟩
    obtain ⟨rest, hrest⟩ := hinit
    have hdrop : (baseDir submissionsDir ++ id).drop q.length = rest := by
      rw [← hrest, List.drop_left]
    rw [hdrop] at hslash
    obtain ⟨rest, rfl⟩ := List.head?_eq_some_iff.mp hslash
    -- the slash is one of the base, since there is none in the name
    by_cases hlen : q.length < (baseDir submissionsDir).length
    · have hprefix : (q ++ [47]) <+: baseDir submissionsDir ++ id := ⟨rest, by simp [hrest]⟩
      exact List.prefix_of_prefix_length_le hprefix (List.prefix_append ..) (by simp; omega)
    · exfalso
      have hnil : (baseDir submissionsDir).drop q.length = [] :=
        List.drop_of_length_le (by omega)
      have hid : id.drop (q.length - (baseDir submissionsDir).length) = 47 :: rest := by
        rw [← hdrop, List.drop_append, hnil, List.nil_append]
      exact h.noSlash (List.mem_of_mem_drop (hid ▸ List.mem_cons_self))

theorem mem_onTheWay (h : EntryName id) :
    baseDir submissionsDir ++ id ∈ WorkDisk.onTheWay (baseDir submissionsDir ++ id) := by
  unfold WorkDisk.onTheWay
  rw [List.mem_filter, List.mem_inits, decide_eq_true_eq]
  refine ⟨List.prefix_rfl, ?_, h.last _, .inl rfl⟩
  intro hnil
  exact h.nonempty (List.append_eq_nil_iff.mp hnil).2

end Tree

/-! ### What an evaluation touches -/

section Touches

open Set

variable {submissionsDir : Bytes} {id : Bytes} {d d' : WorkDisk}

theorem Ready.congr (h : Ready submissionsDir d)
    (heq : EqOn d.look d'.look (workTree submissionsDir id ∪ above submissionsDir)) :
    Ready submissionsDir d' := fun k hk hne hlast =>
  (heq (mem_union_right _ hk)).symm.trans (h k hk hne hlast)

theorem makeDirectories_of_dirs {paths : List Bytes} (h : ∀ q ∈ paths, d.look q = some .dir) :
    d.makeDirectories paths = (d, true) := by
  induction paths with
  | nil => rfl
  | cons q paths ih =>
    rw [WorkDisk.makeDirectories, h q List.mem_cons_self]
    exact ih fun q hq => h q (List.mem_cons_of_mem _ hq)

/-- When all the others are directories, only the last one is in question. -/
theorem makeDirectories_last {path : Bytes} {paths : List Bytes} (hmem : path ∈ paths)
    (h : ∀ q ∈ paths, q = path ∨ d.look q = some .dir) :
    d.makeDirectories paths =
      match d.look path with
      | none => (d.put path .dir, true)
      | some .dir => (d, true)
      | some (.file _) => (d, false) := by
  induction paths with
  | nil => cases hmem
  | cons q paths ih =>
    have hrest : ∀ q ∈ paths, q = path ∨ d.look q = some .dir := fun q hq =>
      h q (List.mem_cons_of_mem _ hq)
    rw [WorkDisk.makeDirectories]
    by_cases hq : q = path
    · subst hq
      cases hlook : d.look q with
      | none =>
        apply makeDirectories_of_dirs
        intro q' hq'
        by_cases heq : q' = q
        · rw [heq, WorkDisk.look_put_self]
        · rw [WorkDisk.look_put_of_ne _ _ _ heq]
          exact (hrest q' hq').resolve_left heq
      | some node =>
        cases node with
        | file contents => rfl
        | dir =>
          apply makeDirectories_of_dirs
          intro q' hq'
          rcases hrest q' hq' with rfl | hdir
          · exact hlook
          · exact hdir
    · rw [(h q List.mem_cons_self).resolve_left hq]
      rcases List.mem_cons.mp hmem with rfl | hmem
      · exact absurd rfl hq
      · exact ih hmem hrest

/-- Where the directory of the submissions is there, one directory is made. -/
theorem createDirectories_of_ready (h : EntryName id) (hready : Ready submissionsDir d) :
    d.createDirectories (baseDir submissionsDir ++ id) =
      match d.look (baseDir submissionsDir ++ id) with
      | none => (d.put (baseDir submissionsDir ++ id) .dir, true)
      | some .dir => (d, true)
      | some (.file _) => (d, false) :=
  makeDirectories_last (mem_onTheWay h) fun q hq =>
    (onTheWay_base h hq).imp_right fun ⟨habove, hne, hlast⟩ => hready q habove hne hlast

theorem look_put_congr {K : Set Bytes} {path : Bytes} {node : Node} (heq : EqOn d.look d'.look K) :
    EqOn (d.put path node).look (d'.put path node).look K := by
  intro k hk
  by_cases hpath : k = path
  · rw [hpath, WorkDisk.look_put_self, WorkDisk.look_put_self]
  · rw [WorkDisk.look_put_of_ne _ _ _ hpath, WorkDisk.look_put_of_ne _ _ _ hpath]
    exact heq hk

theorem look_erase_congr {K : Set Bytes} {path : Bytes} (heq : EqOn d.look d'.look K) :
    EqOn (d.erase path).look (d'.erase path).look K := by
  intro k hk
  by_cases hpath : k = path
  · rw [hpath, WorkDisk.look_erase_self, WorkDisk.look_erase_self]
  · rw [WorkDisk.look_erase_of_ne _ _ hpath, WorkDisk.look_erase_of_ne _ _ hpath]
    exact heq hk

theorem createDirectories_keeps (h : EntryName id) (hready : Ready submissionsDir d) :
    Keeps WorkDisk.look serve (workTree submissionsDir id) (above submissionsDir) d
      (.file (.createDirectories (baseDir submissionsDir ++ id))) := by
  have hmem : baseDir submissionsDir ++ id ∈ workTree submissionsDir id := .inl rfl
  have hdir : ∀ d' : WorkDisk,
      EqOn d.look d'.look (workTree submissionsDir id ∪ above submissionsDir) →
        d.look (baseDir submissionsDir ++ id) = d'.look (baseDir submissionsDir ++ id) := fun d' heq =>
    heq (mem_union_left _ hmem)
  refine ⟨fun d' heq => ?_, fun d' heq => ?_, fun d' heq k hk => ?_⟩
  · simp only [serve, WorkDisk.serve, createDirectories_of_ready h hready,
      createDirectories_of_ready h (hready.congr heq), hdir d' heq]
    cases d'.look (baseDir submissionsDir ++ id) with
    | none => rfl
    | some node => cases node <;> rfl
  · simp only [serve, WorkDisk.serve, createDirectories_of_ready h hready,
      createDirectories_of_ready h (hready.congr heq), hdir d' heq]
    have hmine := heq.mono subset_union_left
    cases d'.look (baseDir submissionsDir ++ id) with
    | none => exact look_put_congr hmine
    | some node => cases node <;> exact hmine
  · simp only [serve, WorkDisk.serve, createDirectories_of_ready h (hready.congr heq)]
    cases d'.look (baseDir submissionsDir ++ id) with
    | none => exact WorkDisk.look_put_of_ne _ _ _ fun hpath => hk (hpath ▸ hmem)
    | some node => cases node <;> rfl

theorem write_keeps {K C : Set Bytes} {path contents : Bytes} (hpath : path ∈ K)
    (hparent : WorkDisk.parentPath path ∈ K) :
    Keeps WorkDisk.look serve K C d (.file (.write path contents)) := by
  have hsame : ∀ d' : WorkDisk, EqOn d.look d'.look (K ∪ C) → d.look path = d'.look path ∧
      d.look (WorkDisk.parentPath path) = d'.look (WorkDisk.parentPath path) := fun d' heq =>
    ⟨heq (mem_union_left _ hpath), heq (mem_union_left _ hparent)⟩
  refine ⟨fun d' heq => rfl, fun d' heq => ?_, fun d' heq k hk => ?_⟩
  · obtain ⟨h₁, h₂⟩ := hsame d' heq
    have hmine := heq.mono subset_union_left
    simp only [serve, WorkDisk.serve, WorkDisk.write, h₁, h₂]
    split
    · exact hmine
    · split
      · exact look_put_congr hmine
      · exact hmine
  · simp only [serve, WorkDisk.serve, WorkDisk.write]
    split
    · rfl
    · split
      · exact WorkDisk.look_put_of_ne _ _ _ fun h => hk (h ▸ hpath)
      · rfl

theorem any_iff_look {p : Bytes → Bool} :
    d.any (fun e => p e.1) = true ↔ ∃ k, p k = true ∧ d.look k ≠ none := by
  constructor
  · intro h
    obtain ⟨e, he, hp⟩ := List.any_eq_true.mp h
    refine ⟨e.1, hp, ?_⟩
    unfold WorkDisk.look
    rw [ne_eq, Option.map_eq_none_iff, List.find?_eq_none]
    exact fun hnone => hnone e he (by simp)
  · rintro ⟨k, hp, hlook⟩
    obtain ⟨node, hnode⟩ := Option.ne_none_iff_exists'.mp hlook
    obtain ⟨e, he, -⟩ := Option.map_eq_some_iff.mp hnode
    have hk : e.1 = k := by simpa using List.find?_some he
    exact List.any_eq_true.mpr ⟨e, List.mem_of_find?_eq_some he, by rw [hk]; exact hp⟩

theorem remove_keeps {K C : Set Bytes} {path : Bytes} (hpath : path ∈ K)
    (hbelow : ∀ k, (path ++ [47]) <+: k → k ∈ K) :
    Keeps WorkDisk.look serve K C d (.file (.remove path)) := by
  have hsame : ∀ d' : WorkDisk, EqOn d.look d'.look (K ∪ C) →
      (d.look path = some .dir ∧ d.any (fun e => (path ++ [47]).isPrefixOf e.1) = true ↔
        d'.look path = some .dir ∧ d'.any (fun e => (path ++ [47]).isPrefixOf e.1) = true) := by
    intro d' heq
    rw [heq (mem_union_left _ hpath), any_iff_look, any_iff_look]
    have hkeys : ∀ k, (path ++ [47]).isPrefixOf k = true → d.look k = d'.look k := fun k hk =>
      heq (mem_union_left _ (hbelow k (List.isPrefixOf_iff_prefix.mp hk)))
    constructor
    · rintro ⟨hdir, k, hk, hlook⟩
      exact ⟨hdir, k, hk, hkeys k hk ▸ hlook⟩
    · rintro ⟨hdir, k, hk, hlook⟩
      exact ⟨hdir, k, hk, (hkeys k hk).symm ▸ hlook⟩
  refine ⟨fun d' heq => ?_, fun d' heq => ?_, fun d' heq k hk => ?_⟩
  · have hiff := hsame d' heq
    simp only [serve, WorkDisk.serve, WorkDisk.remove, hiff]
    split <;> rfl
  · have hiff := hsame d' heq
    have hmine := heq.mono subset_union_left
    simp only [serve, WorkDisk.serve, WorkDisk.remove, hiff]
    split
    · exact hmine
    · exact look_erase_congr hmine
  · simp only [serve, WorkDisk.serve, WorkDisk.remove]
    split
    · rfl
    · exact WorkDisk.look_erase_of_ne _ _ fun h => hk (h ▸ hpath)

theorem read_keeps {K C : Set Bytes} {path : Bytes} (hpath : path ∈ K ∪ C) :
    Keeps WorkDisk.look serve K C d (.file (.read path)) := by
  refine ⟨fun d' heq => ?_, fun d' heq => heq.mono subset_union_left, fun d' _ k _ => rfl⟩
  simp only [serve, WorkDisk.serve, heq hpath]

theorem placeInput_keeps {K C : Set Bytes} (limits : SandboxLimits) (calls : Sandbox.InputCalls)
    (input : Bytes) : Keeps WorkDisk.look serve K C d (.placeInput limits calls input) :=
  ⟨fun _ _ => rfl, fun _ heq => heq.mono subset_union_left, fun _ _ _ _ => rfl⟩

end Touches

/-! ### Side by side -/

section Confinement

variable {F : JsonFormat} {problemsDir submissionsDir : Bytes} {files : FileSys} {tools : Tools}
  {d : WorkDisk} {job : SubmissionJob}

theorem HexString.entryName {n : Nat} (s : HexString n) (hn : n ≠ 0) : EntryName s.text where
  nonempty hnil := hn (by rw [← s.length_text, hnil]; rfl)
  noSlash hmem := absurd (s.hex 47 hmem) (by decide)

theorem extension_noSlash (language : Bytes) : 47 ∉ sourceExtension language := by
  unfold sourceExtension
  split
  · next l hl =>
    have hmem := List.mem_of_find?_eq_some hl
    unfold supportedLanguages at hmem
    simp only [List.mem_cons, List.not_mem_nil, or_false] at hmem
    rcases hmem with rfl | rfl | rfl <;> decide
  · decide

theorem entryName_main {ext : Bytes} (h : 47 ∉ ext) : EntryName (bytes "main" ++ ext) where
  nonempty hnil := absurd (List.append_eq_nil_iff.mp hnil).1 (by decide)
  noSlash hmem := by
    rcases List.mem_append.mp hmem with hmem | hmem
    · exact absurd hmem (by decide)
    · exact h hmem

theorem workDir_eq (h : EntryName job.submissionId) :
    workDir submissionsDir job = baseDir submissionsDir ++ job.submissionId := pathAppend_base h

theorem pathAppend_workDir (h : EntryName job.submissionId) {name : Bytes}
    (hname : EntryName name) :
    pathAppend (workDir submissionsDir job) name =
      baseDir submissionsDir ++ job.submissionId ++ 47 :: name := by
  have hne : baseDir submissionsDir ++ job.submissionId ≠ [] := fun hnil =>
    h.nonempty (List.append_eq_nil_iff.mp hnil).2
  rw [workDir_eq h, pathAppend, if_neg hname.head, if_neg fun hor => hor.elim hne (h.last _)]
  simp [bytes]
  rfl

theorem file_mem_workTree (h : EntryName job.submissionId) {name : Bytes} (hname : EntryName name) :
    pathAppend (workDir submissionsDir job) name ∈
      workTree submissionsDir job.submissionId := by
  rw [pathAppend_workDir h hname]
  exact .inr ⟨name, by simp⟩

theorem parentPath_file (h : EntryName job.submissionId) {name : Bytes} (hname : EntryName name) :
    WorkDisk.parentPath (pathAppend (workDir submissionsDir job) name) =
      workDir submissionsDir job := by
  have hrest : ∀ w : Bytes, w.getLast? ≠ some 47 →
      (w.reverse.dropWhile fun b => decide (b = 47)) = w.reverse := by
    intro w hw
    rw [← List.head?_reverse] at hw
    cases hrev : w.reverse with
    | nil => rfl
    | cons b rest =>
      rw [hrev] at hw
      rw [List.dropWhile_cons_of_neg]
      simpa using hw
  have hslash : ∀ b ∈ name.reverse, decide (b ≠ 47) = true := by
    intro b hb
    rw [decide_eq_true_eq]
    rintro rfl
    exact hname.noSlash (List.mem_reverse.mp hb)
  rw [pathAppend_workDir h hname, workDir_eq h]
  generalize hw : baseDir submissionsDir ++ job.submissionId = w
  have hlast : w.getLast? ≠ some 47 := hw ▸ h.last _
  rw [WorkDisk.parentPath, List.reverse_append, List.reverse_cons, List.append_assoc,
    List.dropWhile_append_of_pos hslash, List.singleton_append,
    List.dropWhile_cons_of_neg (by simp),
    List.dropWhile_cons_of_pos (by simp), hrest w hlast, List.reverse_reverse]

variable (F problemsDir submissionsDir files tools d) in
/-- Alone, the compiler and the judged program change nothing but the directory of the submission,
and depend on nothing in those of the others and on no input file. -/
def ToolsKeep (job : SubmissionJob) : Prop :=
  ∀ problem, getProblem files problemsDir F job.problemId = .ok (some problem) →
    StaysIn WorkDisk.look serve (workTree submissionsDir job.submissionId)
      (elsewhere submissionsDir) (prepared submissionsDir d job)
      (useTools problemsDir submissionsDir files tools job problem)

/-- **An evaluation keeps to the directory of its submission**, when its tools do. -/
theorem evaluateOnDisk_staysIn (h : EntryName job.submissionId) (hready : Ready submissionsDir d)
    (htools : ToolsKeep F problemsDir submissionsDir files tools d job) :
    StaysIn WorkDisk.look serve (workTree submissionsDir job.submissionId)
      (elsewhere submissionsDir) d
      (evaluateOnDisk F problemsDir submissionsDir files tools job) := by
  have hsource : EntryName (bytes "main" ++ sourceExtension (normalizeLanguage job.language)) :=
    entryName_main (extension_noSlash _)
  have hbinary : EntryName (bytes "main") := ⟨by decide, by decide⟩
  have hdir : workDir submissionsDir job ∈ workTree submissionsDir job.submissionId :=
    .inl (workDir_eq h)
  have hprepare : StaysIn WorkDisk.look serve (workTree submissionsDir job.submissionId)
      (elsewhere submissionsDir) d (prepare submissionsDir job) := by
    unfold prepare
    refine staysIn_perform ?_ ?_
    · rw [workDir_eq h]
      exact (createDirectories_keeps h hready).mono above_subset
    · split
      · trivial
      · refine staysIn_perform (write_keeps (file_mem_workTree h hsource) ?_) trivial
        rw [sourcePath, parentPath_file h hsource]
        exact hdir
  refine staysIn_bind ?_ fun found hfound => ?_
  · cases (getProblem files problemsDir F job.problemId).mapError Exn.json <;> trivial
  have hproblem : getProblem files problemsDir F job.problemId = .ok found := by
    cases hget : getProblem files problemsDir F job.problemId with
    | error e => rw [hget] at hfound; cases hfound
    | ok found' => rw [hget] at hfound; cases hfound; rfl
  have hdisk : (Prog.interp serve d (Prog.ofExcept ((getProblem files problemsDir F
      job.problemId).mapError Exn.json) : Prog EvalOp EvalReply Exn _)).1 = d := by
    rw [hproblem]
    rfl
  rw [hdisk]
  cases found with
  | none => trivial
  | some problem =>
    dsimp only
    split
    · trivial
    · refine staysIn_bind hprepare fun _ _ => staysIn_bind (htools problem hproblem) ?_
      intro used _
      unfold finish
      dsimp only
      split
      · trivial
      · split
        · refine staysIn_perform
            (remove_keeps (file_mem_workTree h hbinary) fun k hk => ?_) ?_
          · rw [binaryPath, pathAppend_workDir h hbinary] at hk
            exact .inr (List.IsPrefix.trans ⟨bytes "main" ++ [47], by simp⟩ hk)
          · split <;> trivial
        · trivial

variable (F problemsDir files) in
def problemOf (job : SubmissionJob) : ProblemInfo :=
  match getProblem files problemsDir F job.problemId with
  | .ok (some problem) => problem
  | _ => {}

variable (F problemsDir submissionsDir files tools d) in
/-- The result of an evaluation that has the disk for itself. -/
def aloneOnDisk (job : SubmissionJob) : Except Exn SubmissionResult :=
  evaluateSubmission F problemsDir submissionsDir
    (machineOf problemsDir submissionsDir files tools d job (problemOf F problemsDir files job)) job

theorem aloneOnDisk_eq : aloneOnDisk F problemsDir submissionsDir files tools d job =
    (Prog.interp serve d (evaluateOnDisk F problemsDir submissionsDir files tools job)).2 := by
  refine (evaluateOnDisk_alone F fun problem hproblem => ?_).symm
  rw [problemOf, hproblem]

end Confinement

end Ocpe
