import Mathlib.Data.List.Induction
import Mathlib.Tactic.Common

/-!
# Runs of a machine

A machine here is a partial step function: `step s a` is the state after the
action `a`, or `none` where `a` is not possible in `s`.  Several parties are one
machine whose actions name the party that moves, so an interleaving is a list of
actions and nothing else.

`run` executes such a list.  The rules are the ones a proof about runs uses:

* `run_invariant`: what holds at the start and is kept by every step holds at
  the end;
* `run_invariant_of`, `run_invariant_hist`: the same for runs of actions that satisfy
  `ok`, which is how a fault-free run is said, and for a property that also speaks of
  the actions so far; `run_invariant_after` for a run that goes on after another;
* `run_mono`: a reflexive and transitive relation between neighbours holds
  between the ends;
* `run_append_iff`: a run of `as ++ bs` stops half way;
* `run_proj`: a run of the whole is a run of a part; `run_proj_steps` where the steps satisfy a
  condition;
* `run_simulates`: where each step of one machine is some run of another, so is each run;
* `AllSteps`, `run_invariant_steps`: the runs whose steps satisfy a condition in the state
  they are taken in; `AllSteps.imp` for a weaker condition, `run_iff_allSteps` for an exact one;
* `exists_run_of_lt`: a measure that some step lowers can be brought down to 0.
-/

namespace Ocpe.Lib

variable {S A : Type}

/-- Executes the actions in order. -/
def run (step : S → A → Option S) (s : S) : List A → Option S
  | [] => some s
  | a :: as => (step s a).bind fun s' => run step s' as

section Run

variable {step : S → A → Option S}

@[simp] theorem run_nil (s : S) : run step s [] = some s := rfl

theorem run_cons_iff {s t : S} {a : A} {as : List A} :
    run step s (a :: as) = some t ↔ ∃ s', step s a = some s' ∧ run step s' as = some t := by
  simp [run, Option.bind_eq_some_iff]

theorem run_single {s t : S} {a : A} (h : step s a = some t) : run step s [a] = some t :=
  run_cons_iff.mpr ⟨t, h, rfl⟩

theorem run_append_iff {as bs : List A} {s t : S} :
    run step s (as ++ bs) = some t ↔ ∃ m, run step s as = some m ∧ run step m bs = some t := by
  induction as generalizing s with
  | nil => simp
  | cons a as ih =>
    simp only [List.cons_append, run_cons_iff, ih]
    constructor
    · rintro ⟨s', h, m, hm, ht⟩
      exact ⟨m, ⟨s', h, hm⟩, ht⟩
    · rintro ⟨m, ⟨s', h, hm⟩, ht⟩
      exact ⟨s', h, m, hm, ht⟩

theorem run_concat_iff {as : List A} {a : A} {s t : S} :
    run step s (as ++ [a]) = some t ↔ ∃ m, run step s as = some m ∧ step m a = some t := by
  simp [run_append_iff, run_cons_iff]

/-- **The invariant rule**, for a property of the actions and the state, in a run that goes on
after the actions `as`. -/
theorem run_invariant_after {ok : A → Prop} (P : List A → S → Prop) {s t : S} {as bs : List A}
    (hrun : run step s bs = some t) (hok : ∀ a ∈ as ++ bs, ok a) (h0 : P [] s)
    (hstep : ∀ hist m a m', run step s hist = some m → (∀ b ∈ as ++ hist, ok b) → P hist m →
      ok a → step m a = some m' → P (hist ++ [a]) m') : P bs t := by
  induction bs using List.reverseRecOn generalizing t with
  | nil =>
    obtain rfl : s = t := Option.some.inj hrun
    exact h0
  | append_singleton bs a ih =>
    obtain ⟨m, hm, ha⟩ := run_concat_iff.mp hrun
    rw [← List.append_assoc, List.forall_mem_append] at hok
    exact hstep bs m a t hm hok.1 (ih hm hok.1) (hok.2 a (List.mem_singleton_self a)) ha

/-- **The invariant rule**, for a property of the actions so far and the state. -/
theorem run_invariant_hist {ok : A → Prop} (P : List A → S → Prop) {s t : S} {as : List A}
    (hrun : run step s as = some t) (hok : ∀ a ∈ as, ok a) (h0 : P [] s)
    (hstep : ∀ hist m a m', run step s hist = some m → P hist m → ok a → step m a = some m' →
      P (hist ++ [a]) m') : P as t :=
  @run_invariant_after _ _ step ok P s t [] as hrun hok h0 fun hist m a m' hm _ =>
    hstep hist m a m' hm

/-- **The invariant rule**, for runs of `ok` actions. -/
theorem run_invariant_of {ok : A → Prop} (P : S → Prop) {s t : S} {as : List A}
    (hrun : run step s as = some t) (hok : ∀ a ∈ as, ok a) (h0 : P s)
    (hstep : ∀ m a m', P m → ok a → step m a = some m' → P m') : P t :=
  run_invariant_hist (fun _ => P) hrun hok h0 fun _ m a m' _ => hstep m a m'

/-- **The invariant rule.** -/
theorem run_invariant (P : S → Prop) {s t : S} {as : List A} (hrun : run step s as = some t)
    (h0 : P s) (hstep : ∀ m a m', P m → step m a = some m' → P m') : P t :=
  run_invariant_of P hrun (fun _ _ => trivial) h0 fun m a m' hm (_ : True) => hstep m a m' hm

/-- **The order rule**: what one step can only raise, a run can only raise. -/
theorem run_mono (R : S → S → Prop) (hrefl : ∀ s, R s s)
    (htrans : ∀ {a b c}, R a b → R b c → R a c) {s t : S} {as : List A}
    (hrun : run step s as = some t) (hstep : ∀ m a m', step m a = some m' → R m m') : R s t :=
  run_invariant (R s) hrun (hrefl s) fun m a m' hm h => htrans hm (hstep m a m' h)

/-- **The simulation rule**: where each step of a machine is some run of another, so is each run;
and where `ok` steps are runs of `ok'` actions, so are `ok` runs. -/
theorem run_simulates {T B : Type} (step' : T → B → Option T) (ok : A → Prop) (ok' : B → Prop)
    (R : S → T → Prop) {s s' : S} {t : T} {as : List A} (hrun : run step s as = some s')
    (h0 : R s t)
    (hsim : ∀ m a m' n, R m n → step m a = some m' →
      ∃ bs n', (ok a → ∀ b ∈ bs, ok' b) ∧ run step' n bs = some n' ∧ R m' n') :
    ∃ bs t', ((∀ a ∈ as, ok a) → ∀ b ∈ bs, ok' b) ∧ run step' t bs = some t' ∧ R s' t' := by
  induction as using List.reverseRecOn generalizing s' with
  | nil =>
    cases hrun
    exact ⟨[], t, fun _ b hb => absurd hb List.not_mem_nil, rfl, h0⟩
  | append_singleton as a ih =>
    obtain ⟨m, hm, ha⟩ := run_concat_iff.mp hrun
    obtain ⟨bs, n, hbs, hn, hR⟩ := ih hm
    obtain ⟨cs, t', hcs, ht, hR'⟩ := hsim m a s' n hR ha
    refine ⟨bs ++ cs, t', fun hok b hb => ?_, run_append_iff.mpr ⟨n, hn, ht⟩, hR'⟩
    rcases List.mem_append.mp hb with hb | hb
    · exact hbs (fun c hc => hok c (List.mem_append_left _ hc)) b hb
    · exact hcs (hok a (by simp)) b hb

/-- Every step of the run satisfies `ok` in the state that it is taken in. -/
def AllSteps (step : S → A → Option S) (ok : S → A → Prop) : S → List A → Prop
  | _, [] => True
  | s, a :: as => ok s a ∧ ∀ t, step s a = some t → AllSteps step ok t as

variable {ok : S → A → Prop}

theorem allSteps_cons {a : A} {as : List A} {s t : S} (h : step s a = some t) (ha : ok s a)
    (has : AllSteps step ok t as) : AllSteps step ok s (a :: as) :=
  ⟨ha, fun t' ht' => by cases h.symm.trans ht'; exact has⟩

theorem allSteps_append {as bs : List A} {s m : S} (hrun : run step s as = some m)
    (has : AllSteps step ok s as) (hbs : AllSteps step ok m bs) : AllSteps step ok s (as ++ bs) := by
  induction as generalizing s with
  | nil =>
    cases hrun
    exact hbs
  | cons a as ih =>
    obtain ⟨s', h, hrun⟩ := run_cons_iff.mp hrun
    refine ⟨has.1, fun t ht => ?_⟩
    cases h.symm.trans ht
    exact ih hrun (has.2 s' h)

theorem AllSteps.of_append {as bs : List A} {s m : S} (h : AllSteps step ok s (as ++ bs))
    (hrun : run step s as = some m) : AllSteps step ok m bs := by
  induction as generalizing s with
  | nil =>
    cases hrun
    exact h
  | cons a as ih =>
    obtain ⟨s', ha, hrun⟩ := run_cons_iff.mp hrun
    exact ih (h.2 s' ha) hrun

/-- **The invariant rule**, for runs whose steps satisfy `ok`. -/
theorem run_invariant_steps (P : S → Prop) {s t : S} {as : List A} (hrun : run step s as = some t)
    (hok : AllSteps step ok s as) (h0 : P s)
    (hstep : ∀ m a m', P m → ok m a → step m a = some m' → P m') : P t := by
  induction as generalizing s with
  | nil =>
    cases hrun
    exact h0
  | cons a as ih =>
    obtain ⟨m, hm, hrun⟩ := run_cons_iff.mp hrun
    exact ih hrun (hok.2 m hm) (hstep s a m h0 hok.1 hm)

/-- **The projection rule**, for runs whose steps satisfy `ok`: where such a step of a machine is a
step of another, or none of its steps, such a run is a run of the other. -/
theorem run_proj_steps {T B : Type} {step' : T → B → Option T} (f : S → T) (g : A → Option B)
    (I : S → Prop) {s t : S} {as : List A} (hrun : run step s as = some t)
    (hok : AllSteps step ok s as) (hI : I s)
    (hinv : ∀ m a m', I m → ok m a → step m a = some m' → I m')
    (htake : ∀ m a m' b, I m → ok m a → step m a = some m' → g a = some b →
      step' (f m) b = some (f m'))
    (hskip : ∀ m a m', I m → ok m a → step m a = some m' → g a = none → f m' = f m) :
    run step' (f s) (as.filterMap g) = some (f t) := by
  induction as generalizing s with
  | nil =>
    cases hrun
    rfl
  | cons a as ih =>
    obtain ⟨m, hm, hrun⟩ := run_cons_iff.mp hrun
    have hrest := ih hrun (hok.2 m hm) (hinv s a m hI hok.1 hm)
    cases hg : g a with
    | none =>
      rw [List.filterMap_cons_none hg, ← hskip s a m hI hok.1 hm hg]
      exact hrest
    | some b =>
      rw [List.filterMap_cons_some hg]
      exact run_cons_iff.mpr ⟨f m, htake s a m b hI hok.1 hm hg, hrest⟩

theorem allSteps_of_forall (h : ∀ s a, ok s a) (s : S) (as : List A) : AllSteps step ok s as := by
  induction as generalizing s with
  | nil => trivial
  | cons a as ih => exact ⟨h s a, fun t _ => ih t⟩

/-- **The projection rule**: where a machine is part of another, a run of the whole is a run of the
part, with the actions that the part takes. -/
theorem run_proj {T B : Type} {step' : T → B → Option T} (f : S → T) (g : A → Option B)
    {s t : S} {as : List A} (hrun : run step s as = some t)
    (htake : ∀ m a m' b, step m a = some m' → g a = some b → step' (f m) b = some (f m'))
    (hskip : ∀ m a m', step m a = some m' → g a = none → f m' = f m) :
    run step' (f s) (as.filterMap g) = some (f t) :=
  @run_proj_steps S A step (fun _ _ => True) T B step' f g (fun _ => True) s t as hrun
    (allSteps_of_forall (fun _ _ => trivial) s as) trivial (fun _ _ _ _ _ _ => trivial)
    (fun m a m' b _ _ => htake m a m' b) fun m a m' _ _ => hskip m a m'

/-- **The rule of consequence**, with what the steps keep. -/
theorem AllSteps.imp {ok' : S → A → Prop} (I : S → Prop) {s : S} {as : List A}
    (hall : AllSteps step ok s as) (hI : I s) (hok : ∀ m a, I m → ok m a → ok' m a)
    (hinv : ∀ m a m', I m → ok m a → step m a = some m' → I m') : AllSteps step ok' s as := by
  induction as generalizing s with
  | nil => trivial
  | cons a as ih =>
    refine ⟨hok s a hI hall.1, fun t ht => ?_⟩
    exact ih (hall.2 t ht) (hinv s a t hI hall.1 ht)

/-- **The exactness rule**: where a step leaves `P` exactly if `P` was there and the step
satisfies `ok`, a run leaves it exactly if all its steps do. -/
theorem run_iff_allSteps (I P : S → Prop) {s t : S} {as : List A} (hrun : run step s as = some t)
    (hI : I s) (hinv : ∀ m a m', I m → step m a = some m' → I m')
    (hstep : ∀ m a m', I m → step m a = some m' → (P m' ↔ P m ∧ ok m a)) :
    P t ↔ P s ∧ AllSteps step ok s as := by
  induction as generalizing s with
  | nil =>
    cases hrun
    exact (and_iff_left trivial).symm
  | cons a as ih =>
    obtain ⟨m, hm, hrest⟩ := run_cons_iff.mp hrun
    rw [ih hrest (hinv s a m hI hm), hstep s a m hI hm, and_assoc]
    refine and_congr_right fun _ => ⟨?_, ?_⟩
    · rintro ⟨ha, hall⟩
      exact allSteps_cons hm ha hall
    · rintro ⟨ha, hall⟩
      exact ⟨ha, hall m hm⟩

/-- **The descent rule**: where some step lowers the measure, some run brings it down to 0. -/
theorem exists_run_of_lt (P : S → Prop) (μ : S → Nat)
    (hstep : ∀ m, P m → 0 < μ m → ∃ a m', step m a = some m' ∧ ok m a ∧ P m' ∧ μ m' < μ m)
    {s : S} (hs : P s) :
    ∃ as t, run step s as = some t ∧ AllSteps step ok s as ∧ P t ∧ μ t = 0 := by
  induction hn : μ s using Nat.strongRecOn generalizing s with
  | ind n ih =>
    rcases Nat.eq_zero_or_pos n with hzero | hpos
    · exact ⟨[], s, rfl, trivial, hs, hn.trans hzero⟩
    · obtain ⟨a, m, hm, ha, hP, hlt⟩ := hstep s hs (hn ▸ hpos)
      obtain ⟨as, t, hrun, has, ht, hzero⟩ := ih (μ m) (hn ▸ hlt) hP rfl
      exact ⟨a :: as, t, run_cons_iff.mpr ⟨m, hm, hrun⟩, allSteps_cons hm ha has, ht, hzero⟩

end Run

end Ocpe.Lib
