import Mathlib.Data.List.Basic
import Ocpe.Lib.Bytes

/-!
# File trees and paths

A tree of directories and files, and the resolution of a path in it, component by
component: an empty component and `.` stay, `..` goes up, and everything else is a name
that the directory must have.  A place in the tree is the list of the names on the way
to it from the root.

* `walk_append`: a path is resolved piece by piece.
* `walk_name`: a component that is a name goes one level down, and nowhere else.
* `walk_names`: a path of names leads below where it starts.
-/

namespace Ocpe.Lib

/-- A component that is a name, not a step in place or up. -/
def PlainName (c : Bytes) : Prop := c ≠ [] ∧ c ≠ bytes "." ∧ c ≠ bytes ".." ∧ (47 : UInt8) ∉ c

instance (c : Bytes) : Decidable (PlainName c) := inferInstanceAs (Decidable (_ ∧ _))

/-- **A name in a directory.** -/
structure FileName where
  text : Bytes
  plain : PlainName text
  nulFree : NulFree text

inductive Tree
  | file (content : Bytes) (readable : Bool)
  | dir (entries : List (FileName × Tree))

namespace Tree

def child? : Tree → Bytes → Option Tree
  | .file .., _ => none
  | .dir entries, name => (entries.find? fun e => e.1.text = name).map Prod.snd

def at? (root : Tree) (place : List Bytes) : Option Tree := place.foldlM child? root

def walk (root : Tree) : List Bytes → List Bytes → Option (List Bytes)
  | place, [] => some place
  | place, c :: cs =>
    match root.at? place with
    | some (.dir entries) =>
      if c = [] ∨ c = bytes "." then walk root place cs
      else if c = bytes ".." then walk root place.dropLast cs
      else if ((Tree.dir entries).child? c).isSome then walk root (place ++ [c]) cs
      else none
    | _ => none

/-- The place that a path names, from the current directory `cwd`. -/
def resolve (root : Tree) (cwd : List Bytes) (path : Bytes) : Option (List Bytes) :=
  if path = [] then none
  else walk root (if path.head? = some 47 then [] else cwd) (path.splitOn 47)

section Walk

variable {root : Tree} {place l : List Bytes}

theorem walk_append (cs ds : List Bytes) :
    walk root place (cs ++ ds) = (walk root place cs).bind fun l => walk root l ds := by
  induction cs generalizing place with
  | nil => rfl
  | cons c cs ih =>
    rw [List.cons_append, walk, walk]
    split
    · split
      · exact ih
      split
      · exact ih
      split
      · exact ih
      · rfl
    · rfl

/-- **A name goes one level down.** -/
theorem walk_name {c : Bytes} {cs : List Bytes} (hc : PlainName c)
    (h : walk root place (c :: cs) = some l) :
    (∃ entries, root.at? place = some (.dir entries) ∧
      ((Tree.dir entries).child? c).isSome = true) ∧ walk root (place ++ [c]) cs = some l := by
  rw [walk] at h
  split at h
  · next entries hdir =>
    rw [if_neg (fun h => h.elim hc.1 hc.2.1), if_neg hc.2.2.1] at h
    split at h
    · next hchild => exact ⟨⟨entries, hdir, hchild⟩, h⟩
    · cases h
  · cases h

/-- **A path of names leads below where it starts.** -/
theorem walk_names {cs : List Bytes} (hcs : ∀ c ∈ cs, PlainName c)
    (h : walk root place cs = some l) : l = place ++ cs := by
  induction cs generalizing place with
  | nil =>
    cases h
    rw [List.append_nil]
  | cons c cs ih =>
    obtain ⟨-, h⟩ := walk_name (hcs c List.mem_cons_self) h
    rw [ih (fun c hc => hcs c (List.mem_cons_of_mem _ hc)) h, List.append_assoc]
    rfl

end Walk

def names (entries : List (FileName × Tree)) : List Bytes := entries.map fun e => e.1.text

theorem mem_names_of_child {entries : List (FileName × Tree)} {c : Bytes}
    (h : ((Tree.dir entries).child? c).isSome = true) : c ∈ names entries := by
  rw [child?, Option.isSome_map, List.find?_isSome] at h
  obtain ⟨e, he, hname⟩ := h
  exact List.mem_map.mpr ⟨e, he, by simpa using hname⟩

theorem plain_of_mem_names {entries : List (FileName × Tree)} {c : Bytes} (h : c ∈ names entries) :
    PlainName c ∧ NulFree c := by
  obtain ⟨e, -, rfl⟩ := List.mem_map.mp h
  exact ⟨e.1.plain, e.1.nulFree⟩

theorem resolve_append {root : Tree} {cwd : List Bytes} {p q : Bytes} (hp : p ≠ []) :
    root.resolve cwd (p ++ 47 :: q) =
      (root.resolve cwd p).bind fun l => walk root l (q.splitOn 47) := by
  obtain ⟨b, p, rfl⟩ := List.exists_cons_of_ne_nil hp
  rw [resolve, if_neg (by simp), resolve, if_neg hp, List.splitOn_append_cons_self, walk_append]
  rfl

end Tree

end Ocpe.Lib
