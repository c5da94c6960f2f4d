import Ocpe.Lib.Prog

/-!
# Programs that keep to a protocol

A `Protocol` says which operations are allowed in which of its states, and where an
operation leads.  `Conforms P Q s p` is a triple: from the state `s` the program `p` performs
only what is allowed, as long as its answers are among those that `P` reckons with, and it
ends in a state with `Q`.

* `conforms_bind`: the rule for a sequence.
* `conforms_of_issues`: a program whose operations the protocol takes no notice of.
* `Conforms.of_path`: what is left of a program conforms from where its path has led.
-/

namespace Ocpe.Lib

/-- The allowed operations of each state, and where they lead. -/
structure Protocol (ι ρ σ : Type) where
  may : σ → ι → Prop
  next : σ → ι → σ
  /-- the answers that are reckoned with -/
  heard : ι → ρ → Prop

namespace Protocol

variable {ι ρ ε σ α β : Type} (P : Protocol ι ρ σ)

/-- The state after the operations of a path. -/
def after (s : σ) (t : List (ι × ρ)) : σ := t.foldl (fun s x => P.next s x.1) s

@[simp] theorem after_nil (s : σ) : P.after s [] = s := rfl

@[simp] theorem after_cons (s : σ) (x : ι × ρ) (t : List (ι × ρ)) :
    P.after s (x :: t) = P.after (P.next s x.1) t := rfl

theorem after_append (s : σ) (t u : List (ι × ρ)) :
    P.after s (t ++ u) = P.after (P.after s t) u := List.foldl_append ..

/-- From `s` on, the program performs what is allowed, and ends in a state with `Q`. -/
def Conforms (Q : σ → Prop) : σ → Prog ι ρ ε α → Prop
  | s, .pure _ => Q s
  | s, .throw _ => Q s
  | s, .op i next => P.may s i ∧ ∀ r, P.heard i r → Conforms Q (P.next s i) (next r)

variable {P} {Q R : σ → Prop} {s : σ}

theorem conforms_ofExcept (x : Except ε α) (h : Q s) :
    P.Conforms Q s (Prog.ofExcept x : Prog ι ρ ε α) := by
  cases x <;> exact h

theorem Conforms.mono {p : Prog ι ρ ε α} (h : P.Conforms R s p) (hR : ∀ s, R s → Q s) :
    P.Conforms Q s p := by
  induction p generalizing s with
  | pure a => exact hR s h
  | throw e => exact hR s h
  | op i next ih => exact ⟨h.1, fun r hr => ih r (h.2 r hr)⟩

/-- **The rule for a sequence**: an exception ends it where the first part may end. -/
theorem conforms_bind {p : Prog ι ρ ε α} {f : α → Prog ι ρ ε β} (hp : P.Conforms R s p)
    (hR : ∀ s, R s → Q s) (hf : ∀ a s, R s → P.Conforms Q s (f a)) : P.Conforms Q s (p >>= f) := by
  induction p generalizing s with
  | pure a => exact hf a s hp
  | throw e => exact hR s hp
  | op i next ih => exact ⟨hp.1, fun r hr => ih r (hp.2 r hr)⟩

/-- A program whose operations are allowed in `s` and stay there. -/
theorem conforms_of_issues {p : Prog ι ρ ε α} (h : p.Issues fun i => P.may s i ∧ P.next s i = s)
    (hQ : Q s) : P.Conforms Q s p := by
  induction p with
  | pure a => exact hQ
  | throw e => exact hQ
  | op i next ih =>
    refine ⟨h.1.1, fun r _ => ?_⟩
    rw [h.1.2]
    exact ih r (h.2 r)

/-- **What is left of a program** conforms from where its path has led. -/
theorem Conforms.of_path {p q : Prog ι ρ ε α} {t : List (ι × ρ)} (h : P.Conforms Q s p)
    (hpath : p.Path t q) (ht : ∀ x ∈ t, P.heard x.1 x.2) : P.Conforms Q (P.after s t) q := by
  induction t generalizing p s with
  | nil => exact Prog.path_nil.mp hpath ▸ h
  | cons x t ih =>
    cases p with
    | pure a => cases hpath
    | throw e => cases hpath
    | op i next =>
      obtain ⟨rfl, hpath⟩ := hpath
      have hx := ht x List.mem_cons_self
      exact ih (h.2 x.2 hx) hpath fun y hy => ht y (List.mem_cons_of_mem x hy)

end Protocol

end Ocpe.Lib
