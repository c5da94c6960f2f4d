import Mathlib.Control.Basic
import Mathlib.Tactic.Common

/-!
# Interaction programs

A program that talks to something outside: `Prog ι ρ ε α` performs operations of
type `ι`, gets answers of type `ρ`, and ends with a value of type `α` or with an
exception of type `ε`.  It says nothing about where the answers come from, so the
same program runs alone against a server (`interp`) or as one party among many (a
`Task`, which is answered one operation at a time).

* `Path p t q`: the program `p`, having performed and been answered `t`, goes on as
  `q`.  `path_append_iff` splits a path, and `path_bind_iff` splits it at a `>>=`:
  this is how a call inside a program is found in a trace of it.
* `Issues G p`: every operation `p` can ever perform satisfies `G`.
* `Returns P p`: whatever it is answered, `p` throws nothing, and returns values with `P`.
* `Follows R last p`: every operation of `p` is in the relation `R` to the one before.
* `Within ok n p`: `p` takes at most `n` operations, when they are answered with `ok`.
-/

namespace Ocpe.Lib

/-- A program with operations `ι`, answers `ρ`, exceptions `ε` and result `α`. -/
inductive Prog (ι ρ ε α : Type) where
  | pure (a : α)
  | throw (e : ε)
  | op (i : ι) (next : ρ → Prog ι ρ ε α)

namespace Prog

variable {ι ρ ε α β γ : Type}

def bind : Prog ι ρ ε α → (α → Prog ι ρ ε β) → Prog ι ρ ε β
  | .pure a, f => f a
  | .throw e, _ => .throw e
  | .op i next, f => .op i fun r => (next r).bind f

instance : Monad (Prog ι ρ ε) where
  pure := .pure
  bind := bind

/-- One operation; its answer is the result. -/
def perform (i : ι) : Prog ι ρ ε ρ := .op i .pure

def ofExcept : Except ε α → Prog ι ρ ε α
  | .ok a => .pure a
  | .error e => .throw e

section Bind

variable (f : α → Prog ι ρ ε β)

@[simp] theorem pure_eq (a : α) : (Pure.pure a : Prog ι ρ ε α) = .pure a := rfl

@[simp] theorem pure_bind (a : α) : Prog.pure a >>= f = f a := rfl

@[simp] theorem throw_bind (e : ε) : Prog.throw e >>= f = .throw e := rfl

@[simp] theorem op_bind (i : ι) (next : ρ → Prog ι ρ ε α) :
    Prog.op i next >>= f = .op i fun r => next r >>= f := rfl

@[simp] theorem perform_bind (i : ι) (f : ρ → Prog ι ρ ε β) : perform i >>= f = .op i f := rfl

@[simp] theorem ofExcept_ok_bind (a : α) : ofExcept (.ok a) >>= f = f a := rfl

@[simp] theorem ofExcept_error_bind (e : ε) : ofExcept (.error e) >>= f = .throw e := rfl

theorem bind_assoc (p : Prog ι ρ ε α) (g : β → Prog ι ρ ε γ) :
    p >>= f >>= g = p >>= fun a => f a >>= g := by
  induction p with
  | pure a => rfl
  | throw e => rfl
  | op i next ih => exact congrArg (Prog.op i) (funext ih)

end Bind

/-! ### Paths -/

/-- `p` performs the operations of the trace, is answered as it says, and goes on as
the last argument. -/
def Path : Prog ι ρ ε α → List (ι × ρ) → Prog ι ρ ε α → Prop
  | p, [], q => p = q
  | .op i next, (j, r) :: t, q => i = j ∧ Path (next r) t q
  | .pure _, _ :: _, _ => False
  | .throw _, _ :: _, _ => False

@[simp] theorem path_nil {p q : Prog ι ρ ε α} : Path p [] q ↔ p = q := by cases p <;> rfl

@[simp] theorem path_op_cons {i j : ι} {next : ρ → Prog ι ρ ε α} {r : ρ} {t : List (ι × ρ)}
    {q : Prog ι ρ ε α} : Path (.op i next) ((j, r) :: t) q ↔ i = j ∧ Path (next r) t q := Iff.rfl

@[simp] theorem path_pure {a : α} {t : List (ι × ρ)} {q : Prog ι ρ ε α} :
    Path (.pure a) t q ↔ t = [] ∧ q = .pure a := by
  cases t <;> simp [Path, eq_comm]

@[simp] theorem path_throw {e : ε} {t : List (ι × ρ)} {q : Prog ι ρ ε α} :
    Path (.throw e) t q ↔ t = [] ∧ q = .throw e := by
  cases t <;> simp [Path, eq_comm]

/-- **A path goes through a middle.** -/
theorem path_append_iff {p q : Prog ι ρ ε α} {t u : List (ι × ρ)} :
    Path p (t ++ u) q ↔ ∃ m, Path p t m ∧ Path m u q := by
  induction t generalizing p with
  | nil => simp
  | cons x t ih =>
    obtain ⟨j, r⟩ := x
    cases p with
    | pure a => simp
    | throw e => simp
    | op i next => simp [ih, and_assoc]

/-- **A path ends in one place.** -/
theorem path_unique {p q q' : Prog ι ρ ε α} {t : List (ι × ρ)} (h : Path p t q)
    (h' : Path p t q') : q = q' := by
  induction t generalizing p with
  | nil => exact (path_nil.mp h).symm.trans (path_nil.mp h')
  | cons x t ih =>
    cases p with
    | pure a => cases h
    | throw e => cases h
    | op i next => exact ih h.2 h'.2

theorem path_snoc {p : Prog ι ρ ε α} {t : List (ι × ρ)} {i : ι} {next : ρ → Prog ι ρ ε α}
    (h : Path p t (.op i next)) (r : ρ) : Path p (t ++ [(i, r)]) (next r) :=
  path_append_iff.mpr ⟨_, h, rfl, path_nil.mpr rfl⟩

/-- **A path of `p >>= f`** is still within `p`, or has left `p` with a value and gone
on with `f`, or ended with an exception of `p`. -/
theorem path_bind_iff {p : Prog ι ρ ε α} {f : α → Prog ι ρ ε β} {t : List (ι × ρ)}
    {q : Prog ι ρ ε β} :
    Path (p >>= f) t q ↔
      (∃ m, Path p t m ∧ q = m >>= f) ∨
        ∃ t₁ t₂ a, t = t₁ ++ t₂ ∧ Path p t₁ (.pure a) ∧ Path (f a) t₂ q := by
  induction t generalizing p with
  | nil =>
    constructor
    · intro h
      exact .inl ⟨p, by simp, (path_nil.mp h).symm⟩
    · rintro (⟨m, h, rfl⟩ | ⟨t₁, t₂, a, ht, h₁, h₂⟩)
      · rw [path_nil.mp h, path_nil]
      · obtain ⟨rfl, rfl⟩ := List.append_eq_nil_iff.mp ht.symm
        rw [path_nil.mp h₁]
        exact h₂
  | cons x t ih =>
    obtain ⟨j, r⟩ := x
    cases p with
    | pure a =>
      rw [pure_bind]
      constructor
      · intro h
        exact .inr ⟨[], _, a, rfl, by simp, h⟩
      · rintro (⟨m, h, -⟩ | ⟨t₁, t₂, b, ht, h₁, h₂⟩)
        · cases h
        · obtain ⟨rfl, h₁⟩ := path_pure.mp h₁
          cases h₁
          rwa [ht]
    | throw e =>
      rw [throw_bind]
      constructor
      · intro h
        cases h
      · rintro (⟨m, h, -⟩ | ⟨t₁, t₂, b, ht, h₁, h₂⟩)
        · cases h
        · cases (path_throw.mp h₁).2
    | op i next =>
      rw [op_bind, path_op_cons, ih]
      constructor
      · rintro ⟨rfl, ⟨m, h, rfl⟩ | ⟨t₁, t₂, a, rfl, h₁, h₂⟩⟩
        · exact .inl ⟨m, ⟨rfl, h⟩, rfl⟩
        · exact .inr ⟨(i, r) :: t₁, t₂, a, rfl, ⟨rfl, h₁⟩, h₂⟩
      · rintro (⟨m, ⟨rfl, h⟩, rfl⟩ | ⟨t₁, t₂, a, ht, h₁, h₂⟩)
        · exact ⟨rfl, .inl ⟨m, h, rfl⟩⟩
        · cases t₁ with
          | nil => cases path_nil.mp h₁
          | cons y t₁ =>
            obtain ⟨rfl, htail⟩ := List.cons.inj ht
            exact ⟨h₁.1, .inr ⟨t₁, t₂, a, htail, h₁.2, h₂⟩⟩

theorem Path.bind {p : Prog ι ρ ε α} {f : α → Prog ι ρ ε β} {t u : List (ι × ρ)} {a : α}
    {q : Prog ι ρ ε β} (h : Path p t (.pure a)) (h' : Path (f a) u q) : Path (p >>= f) (t ++ u) q :=
  path_bind_iff.mpr (.inr ⟨t, u, a, rfl, h, h'⟩)

theorem Path.of_bind {p : Prog ι ρ ε α} {f : α → Prog ι ρ ε β} {t u : List (ι × ρ)} {a : α}
    {q : Prog ι ρ ε β} (h : Path (p >>= f) (t ++ u) q) (hp : Path p t (.pure a)) :
    Path (f a) u q := by
  obtain ⟨m, hm, h⟩ := path_append_iff.mp h
  have hmid : Path (p >>= f) (t ++ []) (f a) := hp.bind (path_nil.mpr rfl)
  rw [List.append_nil] at hmid
  rwa [path_unique hmid hm]

theorem path_bind_pure_iff {p : Prog ι ρ ε α} {f : α → Prog ι ρ ε β} {t : List (ι × ρ)} {b : β} :
    Path (p >>= f) t (.pure b) ↔
      ∃ t₁ t₂ a, t = t₁ ++ t₂ ∧ Path p t₁ (.pure a) ∧ Path (f a) t₂ (.pure b) := by
  rw [path_bind_iff]
  constructor
  · rintro (⟨m, h, heq⟩ | h)
    · cases m with
      | pure a => exact ⟨t, [], a, by simp, h, path_nil.mpr heq.symm⟩
      | throw e => cases heq
      | op i next => cases heq
    · exact h
  · exact .inr

/-- A path to an operation of `p >>= f`: it is one of `p`, or `p` has been left. -/
theorem path_bind_op {p : Prog ι ρ ε α} {f : α → Prog ι ρ ε β} {t : List (ι × ρ)} {i : ι}
    {next : ρ → Prog ι ρ ε β} (h : Path (p >>= f) t (.op i next)) :
    (∃ next', Path p t (.op i next')) ∨
      ∃ t₁ t₂ a, t = t₁ ++ t₂ ∧ Path p t₁ (.pure a) ∧ Path (f a) t₂ (.op i next) := by
  rcases path_bind_iff.mp h with ⟨m, hm, heq⟩ | hleft
  · cases m with
    | pure a => exact .inr ⟨t, [], a, by simp, hm, path_nil.mpr heq.symm⟩
    | throw e => cases heq
    | op j next' => cases heq; exact .inl ⟨next', hm⟩
  · exact .inr hleft

/-! ### The operations a program can perform -/

/-- Every operation that `p` can perform satisfies `G`, whatever it is answered. -/
def Issues (G : ι → Prop) : Prog ι ρ ε α → Prop
  | .pure _ => True
  | .throw _ => True
  | .op i next => G i ∧ ∀ r, (next r).Issues G

section Issues

variable {G : ι → Prop}

@[simp] theorem issues_pure (a : α) : (Prog.pure a : Prog ι ρ ε α).Issues G := trivial

@[simp] theorem issues_throw (e : ε) : (Prog.throw e : Prog ι ρ ε α).Issues G := trivial

@[simp] theorem issues_op {i : ι} {next : ρ → Prog ι ρ ε α} :
    (Prog.op i next).Issues G ↔ G i ∧ ∀ r, (next r).Issues G := Iff.rfl

theorem issues_ofExcept (x : Except ε α) : (ofExcept x : Prog ι ρ ε α).Issues G := by
  cases x <;> trivial

theorem issues_bind {p : Prog ι ρ ε α} {f : α → Prog ι ρ ε β} (hp : p.Issues G)
    (hf : ∀ a, (f a).Issues G) : (p >>= f).Issues G := by
  induction p with
  | pure a => exact hf a
  | throw e => trivial
  | op i next ih => exact ⟨hp.1, fun r => ih r (hp.2 r)⟩

theorem Issues.mono {G' : ι → Prop} {p : Prog ι ρ ε α} (h : p.Issues G) (hG : ∀ i, G i → G' i) :
    p.Issues G' := by
  induction p with
  | pure a => trivial
  | throw e => trivial
  | op i next ih => exact ⟨hG i h.1, fun r => ih r (h.2 r)⟩

/-- **A program stays within its operations.** -/
theorem Issues.of_path {p q : Prog ι ρ ε α} {t : List (ι × ρ)} (h : p.Issues G)
    (hpath : Path p t q) : (∀ x ∈ t, G x.1) ∧ q.Issues G := by
  induction t generalizing p with
  | nil =>
    obtain rfl := path_nil.mp hpath
    exact ⟨by simp, h⟩
  | cons x t ih =>
    cases p with
    | pure a => cases hpath
    | throw e => cases hpath
    | op i next =>
      obtain ⟨hi, hpath⟩ := hpath
      obtain ⟨ht, hq⟩ := ih (h.2 x.2) hpath
      exact ⟨List.forall_mem_cons.mpr ⟨hi ▸ h.1, ht⟩, hq⟩

end Issues

/-! ### What a program returns -/

/-- Whatever it is answered, `p` throws nothing, and what it returns satisfies `P`. -/
def Returns (P : α → Prop) : Prog ι ρ ε α → Prop
  | .pure a => P a
  | .throw _ => False
  | .op _ next => ∀ r, (next r).Returns P

section Returns

variable {P : α → Prop}

theorem returns_bind {Q : β → Prop} {p : Prog ι ρ ε α} {f : α → Prog ι ρ ε β} (hp : p.Returns P)
    (hf : ∀ a, P a → (f a).Returns Q) : (p >>= f).Returns Q := by
  induction p with
  | pure a => exact hf a hp
  | throw e => exact hp.elim
  | op i next ih => exact fun r => ih r (hp r)

theorem Returns.mono {P' : α → Prop} {p : Prog ι ρ ε α} (h : p.Returns P) (hP : ∀ a, P a → P' a) :
    p.Returns P' := by
  induction p with
  | pure a => exact hP a h
  | throw e => exact h
  | op i next ih => exact fun r => ih r (h r)

/-- **What is left of a program returns what the program does.** -/
theorem Returns.of_path {p q : Prog ι ρ ε α} {t : List (ι × ρ)} (h : p.Returns P)
    (hpath : Path p t q) : q.Returns P := by
  induction t generalizing p with
  | nil => exact path_nil.mp hpath ▸ h
  | cons x t ih =>
    cases p with
    | pure a => cases hpath
    | throw e => cases hpath
    | op i next => exact ih (h x.2) hpath.2

/-- **A path of `p >>= f` that has come to an end** has left `p`. -/
theorem Returns.path_bind {p : Prog ι ρ ε α} (hp : p.Returns P) {f : α → Prog ι ρ ε β}
    {t : List (ι × ρ)} {q : Prog ι ρ ε β} (h : Path (p >>= f) t q)
    (hq : ∀ i next, q ≠ .op i next) :
    ∃ t₁ t₂ a, t = t₁ ++ t₂ ∧ P a ∧ Path p t₁ (.pure a) ∧ Path (f a) t₂ q := by
  rcases path_bind_iff.mp h with ⟨m, hm, rfl⟩ | ⟨t₁, t₂, a, ht, h₁, h₂⟩
  · cases m with
    | pure a => exact ⟨t, [], a, by simp, hp.of_path hm, hm, by simp⟩
    | throw e => exact (hp.of_path hm).elim
    | op i next => exact absurd rfl (hq i _)
  · exact ⟨t₁, t₂, a, ht, hp.of_path h₁, h₁, h₂⟩

end Returns

/-! ### What an operation follows -/

/-- Every operation is in the relation `R` to the one right before it and its answer;
the argument is the one before the program begins. -/
def Follows (R : Option (ι × ρ) → ι → Prop) : Option (ι × ρ) → Prog ι ρ ε α → Prop
  | _, .pure _ => True
  | _, .throw _ => True
  | last, .op i next => R last i ∧ ∀ r, (next r).Follows R (some (i, r))

section Follows

variable {R : Option (ι × ρ) → ι → Prop} {last : Option (ι × ρ)}

@[simp] theorem follows_pure (a : α) : (Prog.pure a : Prog ι ρ ε α).Follows R last := trivial

@[simp] theorem follows_throw (e : ε) : (Prog.throw e : Prog ι ρ ε α).Follows R last := trivial

theorem follows_ofExcept (x : Except ε α) : (ofExcept x : Prog ι ρ ε α).Follows R last := by
  cases x <;> trivial

theorem follows_bind {p : Prog ι ρ ε α} {f : α → Prog ι ρ ε β} (hp : p.Follows R last)
    (hf : ∀ a last, (f a).Follows R last) : (p >>= f).Follows R last := by
  induction p generalizing last with
  | pure a => exact hf a last
  | throw e => trivial
  | op i next ih => exact ⟨hp.1, fun r => ih r (hp.2 r)⟩

/-- **The operation that a program is at** follows the last one of its path. -/
theorem Follows.of_path {p : Prog ι ρ ε α} {t : List (ι × ρ)} {i : ι}
    {next : ρ → Prog ι ρ ε α} (h : p.Follows R last) (hpath : Path p t (.op i next)) :
    R (t.getLast?.or last) i := by
  induction t generalizing p last with
  | nil =>
    obtain rfl := path_nil.mp hpath
    exact h.1
  | cons x t ih =>
    cases p with
    | pure a => cases hpath
    | throw e => cases hpath
    | op j next' =>
      obtain ⟨hj, hpath⟩ := hpath
      have hlast := ih (h.2 x.2) hpath
      rw [hj] at hlast
      cases t with
      | nil => exact hlast
      | cons y t => simpa [List.getLast?_cons] using hlast

end Follows

/-! ### How many operations a program takes -/

/-- The program ends after at most `n` operations, when every one is answered with `ok`. -/
def Within (ok : ι → ρ → Prop) : Nat → Prog ι ρ ε α → Prop
  | _, .pure _ => True
  | _, .throw _ => True
  | 0, .op _ _ => False
  | n + 1, .op i next => ∀ r, ok i r → (next r).Within ok n

section Within

variable {ok : ι → ρ → Prop} {l m n : Nat}

@[simp] theorem within_pure (a : α) : (Prog.pure a : Prog ι ρ ε α).Within ok n := by
  cases n <;> trivial

@[simp] theorem within_throw (e : ε) : (Prog.throw e : Prog ι ρ ε α).Within ok n := by
  cases n <;> trivial

theorem within_ofExcept (x : Except ε α) : (ofExcept x : Prog ι ρ ε α).Within ok n := by
  cases x <;> simp [ofExcept]

theorem Within.mono {p : Prog ι ρ ε α} (h : p.Within ok m) (hle : m ≤ n) : p.Within ok n := by
  induction p generalizing m n with
  | pure a => exact within_pure a
  | throw e => exact within_throw e
  | op i next ih =>
    cases m with
    | zero => exact h.elim
    | succ m =>
      cases n with
      | zero => omega
      | succ n => exact fun r hr => ih r (h r hr) (by omega)

theorem within_bind {p : Prog ι ρ ε α} {f : α → Prog ι ρ ε β} (hp : p.Within ok m)
    (hf : ∀ a, (f a).Within ok n) (hle : m + n ≤ l) : (p >>= f).Within ok l := by
  induction p generalizing l m with
  | pure a => exact (hf a).mono (by omega)
  | throw e => exact within_throw e
  | op i next ih =>
    cases m with
    | zero => exact hp.elim
    | succ m =>
      cases l with
      | zero => omega
      | succ l => exact fun r hr => ih r (hp r hr) (by omega)

/-- **What is left after a path** takes as many operations less. -/
theorem Within.of_path {p q : Prog ι ρ ε α} {t : List (ι × ρ)} (h : p.Within ok n)
    (hpath : Path p t q) (ht : ∀ x ∈ t, ok x.1 x.2) : ∃ k, t.length + k = n ∧ q.Within ok k := by
  induction t generalizing p n with
  | nil => exact ⟨n, Nat.zero_add n, path_nil.mp hpath ▸ h⟩
  | cons x t ih =>
    cases p with
    | pure a => cases hpath
    | throw e => cases hpath
    | op i next =>
      cases n with
      | zero => exact h.elim
      | succ n =>
        obtain ⟨rfl, hpath⟩ := hpath
        obtain ⟨k, hk, hq⟩ := ih (h x.2 (ht x List.mem_cons_self)) hpath
          fun y hy => ht y (List.mem_cons_of_mem x hy)
        exact ⟨k, by rw [List.length_cons]; omega, hq⟩

theorem Within.length_lt {p : Prog ι ρ ε α} {t : List (ι × ρ)} {i : ι} {next : ρ → Prog ι ρ ε α}
    (h : p.Within ok n) (hpath : Path p t (.op i next)) (ht : ∀ x ∈ t, ok x.1 x.2) :
    t.length < n := by
  obtain ⟨k, hk, hq⟩ := h.of_path hpath ht
  cases k with
  | zero => exact hq.elim
  | succ k => omega

end Within

/-! ### A program alone with a server -/

/-- Runs the program against a server with state `σ`. -/
def interp {σ : Type} (serve : σ → ι → σ × ρ) : σ → Prog ι ρ ε α → σ × Except ε α
  | s, .pure a => (s, .ok a)
  | s, .throw e => (s, .error e)
  | s, .op i next => interp serve (serve s i).1 (next (serve s i).2)

section Interp

variable {σ : Type} {serve : σ → ι → σ × ρ}

@[simp] theorem interp_pure (s : σ) (a : α) :
    interp serve s (.pure a : Prog ι ρ ε α) = (s, .ok a) := rfl

@[simp] theorem interp_throw (s : σ) (e : ε) :
    interp serve s (.throw e : Prog ι ρ ε α) = (s, .error e) := rfl

@[simp] theorem interp_op (s : σ) (i : ι) (next : ρ → Prog ι ρ ε α) :
    interp serve s (.op i next) = interp serve (serve s i).1 (next (serve s i).2) := rfl

theorem interp_bind_ok {p : Prog ι ρ ε α} {f : α → Prog ι ρ ε β} {s : σ} {a : α}
    (h : (interp serve s p).2 = .ok a) :
    interp serve s (p >>= f) = interp serve (interp serve s p).1 (f a) := by
  induction p generalizing s with
  | pure b =>
    cases h
    rfl
  | throw e => cases h
  | op i next ih => exact ih _ h

theorem interp_bind_error {p : Prog ι ρ ε α} {f : α → Prog ι ρ ε β} {s : σ} {e : ε}
    (h : (interp serve s p).2 = .error e) :
    interp serve s (p >>= f) = ((interp serve s p).1, .error e) := by
  induction p generalizing s with
  | pure b => cases h
  | throw e' =>
    cases h
    rfl
  | op i next ih => exact ih _ h

end Interp

end Prog

/-! ### Tasks -/

/-- A program on its way: what it started as, what it has performed and been answered
so far, and how it goes on. -/
structure Task (ι ρ ε α : Type) where
  start : Prog ι ρ ε α
  trace : List (ι × ρ)
  rest : Prog ι ρ ε α
  path : start.Path trace rest

namespace Task

variable {ι ρ ε α : Type}

def begin (p : Prog ι ρ ε α) : Task ι ρ ε α := ⟨p, [], p, Prog.path_nil.mpr rfl⟩

/-- The operation the task waits for. -/
def op? (t : Task ι ρ ε α) : Option ι :=
  match t.rest with
  | .op i _ => some i
  | _ => none

/-- The task gets an answer; one that waits for nothing stays as it is. -/
def feed (t : Task ι ρ ε α) (r : ρ) : Task ι ρ ε α :=
  match h : t.rest with
  | .op i next => ⟨t.start, t.trace ++ [(i, r)], next r, Prog.path_snoc (h ▸ t.path) r⟩
  | .pure _ => t
  | .throw _ => t

variable {t : Task ι ρ ε α}

@[simp] theorem feed_start (r : ρ) : (t.feed r).start = t.start := by
  unfold feed
  split <;> rfl

theorem op?_eq_some {i : ι} : t.op? = some i ↔ ∃ next, t.rest = .op i next := by
  unfold op?
  cases t.rest <;> simp

theorem feed_of_rest {i : ι} {next : ρ → Prog ι ρ ε α} (h : t.rest = .op i next) (r : ρ) :
    (t.feed r).trace = t.trace ++ [(i, r)] ∧ (t.feed r).rest = next r := by
  unfold feed
  split
  · next h' =>
    rw [h] at h'
    cases h'
    exact ⟨rfl, rfl⟩
  · next h' => rw [h] at h'; cases h'
  · next h' => rw [h] at h'; cases h'

theorem op?_of_pure {a : α} (h : t.rest = .pure a) : t.op? = none := by
  rw [op?, h]

theorem feed_of_op?_none (h : t.op? = none) (r : ρ) : t.feed r = t := by
  unfold feed
  split
  · next hrest => rw [op?, hrest] at h; cases h
  · rfl
  · rfl

theorem feed_trace {i : ι} (h : t.op? = some i) (r : ρ) :
    (t.feed r).trace = t.trace ++ [(i, r)] := by
  obtain ⟨next, h⟩ := op?_eq_some.mp h
  exact (feed_of_rest h r).1

/-- **A task stays within the operations of its program.** -/
theorem issues_op? {G : ι → Prop} {i : ι} (hstart : t.start.Issues G) (h : t.op? = some i) :
    G i := by
  obtain ⟨next, hrest⟩ := op?_eq_some.mp h
  have := (hstart.of_path t.path).2
  rw [hrest] at this
  exact this.1

end Task

end Ocpe.Lib
