import Mathlib.Data.List.Basic
import Ocpe.Lib.Bytes

/-!
# Looking for an executable

`execv` takes a path as it is, a relative one from the working directory.  `execvp` does
so with a name that has a slash, and looks for any other name in the directories of
`PATH`, in their order; an empty one there is the working directory.

The files are a graph here and not a tree, so that several names, or links, can lead to
one file.

* `execv_name`: `execv` looks for a name without a slash in the working directory only.
* `execvp_eq_some_iff`: `execvp` takes it from the first directory of `PATH` that has it.
-/

namespace Ocpe.Lib

/-- Files and directories: `entry d c` is where the component `c` of a path leads from
`d`, with links followed, and for `.`, `..` and the empty component as well. -/
structure FileGraph (N : Type) where
  root : N
  entry : N → Bytes → Option N
  executable : N → Bool

namespace FileGraph

variable {N : Type} (files : FileGraph N) (cwd : N)

def resolve (path : Bytes) : Option N :=
  if path = [] then none
  else (path.splitOn 47).foldlM files.entry (if path.head? = some 47 then files.root else cwd)

def execv (path : Bytes) : Option N := (files.resolve cwd path).filter files.executable

/-- The directories of `PATH`, by default those of the C library. -/
def pathDirs (path : Option Bytes) : List Bytes := (path.getD "/bin:/usr/bin").splitOn 58

/-- What `execvp` tries in a directory of `PATH`. -/
def candidate (dir name : Bytes) : Bytes := if dir = [] then name else dir ++ 47 :: name

def execvp (path : Option Bytes) (name : Bytes) : Option N :=
  if name = [] then none
  else if (47 : UInt8) ∈ name then files.execv cwd name
  else (pathDirs path).findSome? fun dir => files.execv cwd (candidate dir name)

/-- The executable of that name in a directory of `PATH`. -/
def inDir (dir name : Bytes) : Option N :=
  ((if dir = [] then some cwd else files.resolve cwd dir).bind fun d => files.entry d name).filter
    files.executable

/-- A name that `execvp` looks for. -/
def SearchedName (name : Bytes) : Prop := name ≠ [] ∧ (47 : UInt8) ∉ name

instance (name : Bytes) : Decidable (SearchedName name) := inferInstanceAs (Decidable (_ ∧ _))

variable {files cwd} {name : Bytes}

theorem foldlM_entry_singleton (d : N) (c : Bytes) :
    [c].foldlM files.entry d = files.entry d c := bind_pure _

theorem resolve_name (hname : SearchedName name) :
    files.resolve cwd name = files.entry cwd name := by
  have hhead : name.head? ≠ some 47 := fun h => hname.2 (List.mem_of_head? h)
  rw [resolve, if_neg hname.1, if_neg hhead, List.splitOn_eq_singleton hname.2,
    foldlM_entry_singleton]

/-- **Without a slash `execv` looks in the working directory only.** -/
theorem execv_name (hname : SearchedName name) :
    files.execv cwd name = (files.entry cwd name).filter files.executable := by
  rw [execv, resolve_name hname]

theorem resolve_below {dir : Bytes} (hdir : dir ≠ []) (hname : SearchedName name) :
    files.resolve cwd (dir ++ 47 :: name) =
      (files.resolve cwd dir).bind fun d => files.entry d name := by
  obtain ⟨b, dir, rfl⟩ := List.exists_cons_of_ne_nil hdir
  rw [resolve, if_neg (by simp), resolve, if_neg hdir, List.splitOn_append_cons_self,
    List.splitOn_eq_singleton hname.2, List.foldlM_append]
  apply congrArg
  funext d
  exact foldlM_entry_singleton d name

theorem execv_candidate (dir : Bytes) (hname : SearchedName name) :
    files.execv cwd (candidate dir name) = files.inDir cwd dir name := by
  unfold candidate inDir
  by_cases hdir : dir = []
  · rw [if_pos hdir, if_pos hdir, execv_name hname]
    rfl
  · rw [if_neg hdir, if_neg hdir, execv, resolve_below hdir hname]

/-- **`execvp` takes the first directory of `PATH` that has the name.** -/
theorem execvp_eq_some_iff (path : Option Bytes) (hname : SearchedName name) {n : N} :
    files.execvp cwd path name = some n ↔
      ∃ pre dir post, pathDirs path = pre ++ dir :: post ∧ files.inDir cwd dir name = some n ∧
        ∀ d ∈ pre, files.inDir cwd d name = none := by
  rw [execvp, if_neg hname.1, if_neg hname.2, List.findSome?_eq_some_iff]
  simp only [execv_candidate _ hname]

end FileGraph

end Ocpe.Lib
