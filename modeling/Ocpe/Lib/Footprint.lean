import Mathlib.Data.Set.Function
import Ocpe.Lib.Prog

/-!
# Programs that share a state

Parties run their programs on one state, one operation at a time and in any order.  The state
is looked at by keys.

* `Keeps`: an operation depends on the party's own keys and on common ones, and changes its own.
* `StaysIn`: a program, run alone, has such operations only.
* `StaysIn.congr`: it does the same from every state that agrees on its own and the common keys.
* `undisturbed_step`: when the parties' own keys are disjoint, what is left of each program goes on
  giving from the shared state what the program gives alone.
-/

namespace Ocpe.Lib

open Set

variable {σ κ ν ι ρ ε α β P : Type}

section StaysIn

variable (look : σ → κ → ν) (serve : σ → ι → σ × ρ) (mine common : Set κ)

/-- The operation at `s`: a state that agrees on `mine` and `common` gives the same reply and the
same change of `mine`, and nothing else changes. -/
structure Keeps (s : σ) (i : ι) : Prop where
  reply : ∀ s', EqOn (look s) (look s') (mine ∪ common) → (serve s i).2 = (serve s' i).2
  effect : ∀ s', EqOn (look s) (look s') (mine ∪ common) →
    EqOn (look (serve s i).1) (look (serve s' i).1) mine
  frame : ∀ s', EqOn (look s) (look s') (mine ∪ common) → ∀ k ∉ mine,
    look (serve s' i).1 k = look s' k

/-- Run alone from `s`, every operation of the program keeps to `mine` and `common`. -/
def StaysIn : σ → Prog ι ρ ε α → Prop
  | _, .pure _ => True
  | _, .throw _ => True
  | s, .op i next => Keeps look serve mine common s i ∧
      StaysIn (serve s i).1 (next (serve s i).2)

variable {look serve mine common}

theorem Keeps.eqOn {s s' : σ} {i : ι} (h : Keeps look serve mine common s i)
    (heq : EqOn (look s) (look s') (mine ∪ common)) :
    EqOn (look (serve s i).1) (look (serve s' i).1) (mine ∪ common) := by
  intro k hk
  by_cases hmine : k ∈ mine
  · exact h.effect s' heq hmine
  · rw [h.frame s' heq k hmine, h.frame s (eqOn_refl _ _) k hmine]
    exact heq hk

theorem Keeps.congr {s s' : σ} {i : ι} (h : Keeps look serve mine common s i)
    (heq : EqOn (look s) (look s') (mine ∪ common)) : Keeps look serve mine common s' i where
  reply t ht := (h.reply s' heq).symm.trans (h.reply t (heq.trans ht))
  effect t ht := (h.effect s' heq).symm.trans (h.effect t (heq.trans ht))
  frame t ht := h.frame t (heq.trans ht)

theorem Keeps.mono {common' : Set κ} {s : σ} {i : ι} (h : Keeps look serve mine common s i)
    (hsub : common ⊆ common') : Keeps look serve mine common' s i where
  reply t ht := h.reply t (ht.mono (union_subset_union_right _ hsub))
  effect t ht := h.effect t (ht.mono (union_subset_union_right _ hsub))
  frame t ht := h.frame t (ht.mono (union_subset_union_right _ hsub))

/-- **A program that stays in its keys does the same from every state that agrees**: it stays in
them, comes to the same end, and leaves the same behind. -/
theorem StaysIn.congr {p : Prog ι ρ ε α} {s s' : σ} (h : StaysIn look serve mine common s p)
    (heq : EqOn (look s) (look s') (mine ∪ common)) :
    StaysIn look serve mine common s' p ∧
      (Prog.interp serve s p).2 = (Prog.interp serve s' p).2 ∧
      EqOn (look (Prog.interp serve s p).1) (look (Prog.interp serve s' p).1) (mine ∪ common) := by
  induction p generalizing s s' with
  | pure a => exact ⟨trivial, rfl, heq⟩
  | throw e => exact ⟨trivial, rfl, heq⟩
  | op i next ih =>
    obtain ⟨hkeeps, hrest⟩ := h
    obtain ⟨hstays, hend, hleft⟩ := ih _ hrest (hkeeps.eqOn heq)
    have hreply := hkeeps.reply s' heq
    refine ⟨⟨hkeeps.congr heq, hreply ▸ hstays⟩, ?_, ?_⟩
    · rw [Prog.interp_op, Prog.interp_op, hend, hreply]
    · rw [Prog.interp_op, Prog.interp_op, ← hreply]
      exact hleft

theorem staysIn_perform {i : ι} {f : ρ → Prog ι ρ ε β} {s : σ}
    (hi : Keeps look serve mine common s i)
    (hf : StaysIn look serve mine common (serve s i).1 (f (serve s i).2)) :
    StaysIn look serve mine common s (Prog.perform i >>= f) := ⟨hi, hf⟩

theorem staysIn_bind {p : Prog ι ρ ε α} {f : α → Prog ι ρ ε β} {s : σ}
    (hp : StaysIn look serve mine common s p)
    (hf : ∀ a, (Prog.interp serve s p).2 = .ok a →
      StaysIn look serve mine common (Prog.interp serve s p).1 (f a)) :
    StaysIn look serve mine common s (p >>= f) := by
  induction p generalizing s with
  | pure a => exact hf a rfl
  | throw e => trivial
  | op i next ih => exact ⟨hp.1, ih _ hp.2 hf⟩

end StaysIn

/-! ### Side by side -/

/-- A shared state, and where each party stands. -/
structure Shared (σ ι ρ ε α P : Type) where
  state : σ
  tasks : P → Task ι ρ ε α

variable [DecidableEq P]

section Step

variable (serve : σ → ι → σ × ρ)

/-- A party performs the operation that it is at. -/
def Shared.step (x : Shared σ ι ρ ε α P) (p : P) : Option (Shared σ ι ρ ε α P) :=
  (x.tasks p).op?.map fun i =>
    { state := (serve x.state i).1
      tasks := Function.update x.tasks p ((x.tasks p).feed (serve x.state i).2) }

variable {serve}

theorem Shared.step_eq_some {x y : Shared σ ι ρ ε α P} {p : P} :
    x.step serve p = some y ↔ ∃ i next, (x.tasks p).rest = .op i next ∧
      y.state = (serve x.state i).1 ∧ (y.tasks p).rest = next (serve x.state i).2 ∧
      y.tasks = Function.update x.tasks p ((x.tasks p).feed (serve x.state i).2) := by
  constructor
  · intro h
    obtain ⟨i, hop, rfl⟩ := Option.map_eq_some_iff.mp h
    obtain ⟨next, hrest⟩ := Task.op?_eq_some.mp hop
    refine ⟨i, next, hrest, rfl, ?_, rfl⟩
    show (Function.update x.tasks p _ p).rest = _
    rw [Function.update_self]
    exact (Task.feed_of_rest hrest _).2
  · rintro ⟨i, next, hrest, hstate, -, htasks⟩
    refine Option.map_eq_some_iff.mpr ⟨i, Task.op?_eq_some.mpr ⟨next, hrest⟩, ?_⟩
    rw [← hstate, ← htasks]

end Step

section Undisturbed

variable (look : σ → κ → ν) (serve : σ → ι → σ × ρ) (mine : P → Set κ) (common : Set κ)

/-- What is left of the programs in `y` gives what the programs of `x` give. -/
structure Undisturbed (x y : Shared σ ι ρ ε α P) : Prop where
  confined : ∀ p, StaysIn look serve (mine p) common y.state (y.tasks p).rest
  result : ∀ p, (Prog.interp serve y.state (y.tasks p).rest).2 =
    (Prog.interp serve x.state (x.tasks p).rest).2
  left : ∀ p, EqOn (look (Prog.interp serve y.state (y.tasks p).rest).1)
    (look (Prog.interp serve x.state (x.tasks p).rest).1) (mine p ∪ common)
  frame : ∀ k, (∀ p, k ∉ mine p) → look y.state k = look x.state k

variable {look serve mine common} {x : Shared σ ι ρ ε α P}

/-- **The parties do not disturb each other**, whoever moves. -/
theorem undisturbed_step (hmine : ∀ p q, p ≠ q → ∀ k ∈ mine p, k ∉ mine q)
    (hcommon : ∀ p, ∀ k ∈ mine p, k ∉ common) {y z : Shared σ ι ρ ε α P} {q : P}
    (h : Undisturbed look serve mine common x y) (hstep : y.step serve q = some z) :
    Undisturbed look serve mine common x z := by
  obtain ⟨i, next, hrest, hstate, hrest', htasks⟩ := Shared.step_eq_some.mp hstep
  have hstays := h.confined q
  have hresult := h.result q
  have hleft := h.left q
  rw [hrest] at hstays hresult hleft
  have hframe : ∀ k ∉ mine q, look z.state k = look y.state k := by
    intro k hk
    rw [hstate]
    exact hstays.1.frame y.state (eqOn_refl _ _) k hk
  -- what another party sees has not changed
  have hothers : ∀ p, p ≠ q → z.tasks p = y.tasks p ∧
      EqOn (look y.state) (look z.state) (mine p ∪ common) := by
    intro p hp
    refine ⟨by rw [htasks, Function.update_of_ne hp], fun k hk => (hframe k ?_).symm⟩
    rcases hk with hk | hk
    · exact hmine p q hp k hk
    · exact fun hmine => hcommon q k hmine hk
  refine ⟨fun p => ?_, fun p => ?_, fun p => ?_, fun k hk => ?_⟩
  · by_cases hp : p = q
    · rw [hp, hrest', hstate]
      exact hstays.2
    · obtain ⟨htask, heq⟩ := hothers p hp
      rw [htask]
      exact ((h.confined p).congr heq).1
  · by_cases hp : p = q
    · rw [hp, hrest', hstate]
      exact hresult
    · obtain ⟨htask, heq⟩ := hothers p hp
      rw [htask, ← h.result p]
      exact ((h.confined p).congr heq).2.1.symm
  · by_cases hp : p = q
    · rw [hp, hrest', hstate]
      exact hleft
    · obtain ⟨htask, heq⟩ := hothers p hp
      rw [htask]
      exact ((h.confined p).congr heq).2.2.symm.trans (h.left p)
  · rw [hframe k (hk q), h.frame k hk]

end Undisturbed

end Ocpe.Lib
