import Mathlib.Data.List.Pairwise
import Mathlib.Logic.Function.Basic
import Mathlib.Tactic.Common

/-!
# Calls over one connection

Callers that share one connection.  A call is sent in one step, and in a later one its
caller takes the next reply off the connection, whosever it is; in between, the server
replies to what was sent in the order in which it was sent.

A `Call` carries its number in the order of sending, which no step looks at: with it, a
`Receipt` says which call the reply that a caller has taken belongs to.

* `Matched`: what is outstanding on the connection, oldest first, is what the callers wait
  for.  Sending and serving keep it (`Matched.send`, `Matched.serve`).
* `Matched.own_iff`: in a matched state the next reply is the caller's own if and only if
  nobody waits for an older call, and then taking it leaves a matched state
  (`Matched.receive`).
* `Alone`: matched, with at most one call outstanding.  It stays so where a call is only sent
  while nobody waits (`Alone.send`), and nobody waits for an older reply (`Alone.oldest`).
-/

namespace Ocpe.Lib

/-- What was sent, by whom, and as the how-manieth. -/
structure Call (ι C : Type) where
  number : Nat
  caller : ι
  command : C
  deriving DecidableEq, Repr

/-- A caller that waited for the reply to `mine` has taken the reply to `got`. -/
structure Receipt (ι C R : Type) where
  mine : Call ι C
  got : Call ι C
  reply : R
  deriving DecidableEq, Repr

def Receipt.Own {ι C R : Type} (x : Receipt ι C R) : Prop := x.got = x.mine

structure Pipeline (ι C R : Type) where
  /-- how many calls were sent -/
  calls : Nat := 0
  /-- the calls that the server has not replied to, in order -/
  sent : List (Call ι C) := []
  /-- the replies that nobody has taken, in order -/
  replies : List (Call ι C × R) := []
  /-- the call whose reply a caller waits for -/
  waiting : ι → Option (Call ι C) := fun _ => none

namespace Pipeline

variable {ι C R : Type}

def send [DecidableEq ι] (p : Pipeline ι C R) (i : ι) (c : C) : Option (Pipeline ι C R) :=
  if (p.waiting i).isNone then
    some { p with
      calls := p.calls + 1
      sent := p.sent ++ [⟨p.calls, i, c⟩]
      waiting := Function.update p.waiting i (some ⟨p.calls, i, c⟩) }
  else none

def serve (p : Pipeline ι C R) (reply : R) : Option (Pipeline ι C R) :=
  match p.sent with
  | [] => none
  | call :: sent => some { p with sent := sent, replies := p.replies ++ [(call, reply)] }

def receive [DecidableEq ι] (p : Pipeline ι C R) (i : ι) : Option (Pipeline ι C R × Receipt ι C R) :=
  match p.waiting i, p.replies with
  | some mine, (got, reply) :: replies =>
    some ({ p with replies := replies, waiting := Function.update p.waiting i none },
      ⟨mine, got, reply⟩)
  | _, _ => none

variable {p q : Pipeline ι C R} {i j : ι}

theorem send_eq_some [DecidableEq ι] {c : C} (h : p.send i c = some q) :
    p.waiting i = none ∧ q = { p with
      calls := p.calls + 1
      sent := p.sent ++ [⟨p.calls, i, c⟩]
      waiting := Function.update p.waiting i (some ⟨p.calls, i, c⟩) } := by
  unfold send at h
  split at h
  · next hnone => exact ⟨Option.isNone_iff_eq_none.mp hnone, (Option.some.inj h).symm⟩
  · cases h

theorem serve_eq_some {reply : R} (h : p.serve reply = some q) :
    ∃ call sent, p.sent = call :: sent ∧
      q = { p with sent := sent, replies := p.replies ++ [(call, reply)] } := by
  unfold serve at h
  split at h
  · cases h
  · next call sent hsent => exact ⟨call, sent, hsent, (Option.some.inj h).symm⟩

theorem receive_eq_some [DecidableEq ι] {x : Receipt ι C R} (h : p.receive i = some (q, x)) :
    p.waiting i = some x.mine ∧ ∃ replies, p.replies = (x.got, x.reply) :: replies ∧
      q = { p with replies := replies, waiting := Function.update p.waiting i none } := by
  unfold receive at h
  split at h
  · next mine got reply replies hwaiting hreplies =>
    cases h
    exact ⟨hwaiting, replies, hreplies, rfl⟩
  · cases h

theorem waiting_send [DecidableEq ι] {c : C} (h : p.send i c = some q) :
    q.waiting = Function.update p.waiting i (some ⟨p.calls, i, c⟩) := by
  rw [(send_eq_some h).2]

theorem waiting_serve {reply : R} (h : p.serve reply = some q) : q.waiting = p.waiting := by
  obtain ⟨_, _, -, rfl⟩ := serve_eq_some h
  rfl

theorem waiting_receive [DecidableEq ι] {x : Receipt ι C R} (h : p.receive i = some (q, x)) :
    q.waiting = Function.update p.waiting i none := by
  obtain ⟨-, _, -, rfl⟩ := receive_eq_some h
  rfl

/-- The calls that are on the connection, oldest first. -/
def outstanding (p : Pipeline ι C R) : List (Call ι C) := p.replies.map Prod.fst ++ p.sent

/-- Nobody waits for an older call than `i`. -/
def Oldest (p : Pipeline ι C R) (i : ι) : Prop :=
  ∀ mine, p.waiting i = some mine → ∀ j other, p.waiting j = some other →
    mine.number ≤ other.number

/-- What is on the connection is what the callers wait for. -/
structure Matched (p : Pipeline ι C R) : Prop where
  sorted : p.outstanding.Pairwise fun c d => c.number < d.number
  bound : ∀ call ∈ p.outstanding, call.number < p.calls
  waiting_iff : ∀ i call, p.waiting i = some call ↔ call ∈ p.outstanding ∧ call.caller = i

theorem matched_empty : Matched ({} : Pipeline ι C R) where
  sorted := List.Pairwise.nil
  bound := fun _ h => nomatch h
  waiting_iff := fun i call => by
    constructor
    · intro h
      cases h
    · rintro ⟨hcall, -⟩
      cases hcall

theorem Matched.send [DecidableEq ι] {c : C} (hp : p.Matched) (h : p.send i c = some q) : q.Matched := by
  obtain ⟨hnone, rfl⟩ := send_eq_some h
  have hout : ∀ call, call ∈ outstanding { p with
      calls := p.calls + 1
      sent := p.sent ++ [⟨p.calls, i, c⟩]
      waiting := Function.update p.waiting i (some ⟨p.calls, i, c⟩) } ↔
      call ∈ p.outstanding ∨ call = ⟨p.calls, i, c⟩ := by
    intro call
    simp [outstanding, or_assoc]
  refine ⟨?_, fun call hcall => ?_, fun j call => ?_⟩
  · rw [outstanding, ← List.append_assoc, List.pairwise_append]
    refine ⟨hp.sorted, List.pairwise_singleton _ _, ?_⟩
    intro call hcall new hnew
    rw [List.mem_singleton.mp hnew]
    exact hp.bound call hcall
  · show call.number < p.calls + 1
    rcases (hout call).mp hcall with hcall | rfl
    · have := hp.bound call hcall
      omega
    · exact Nat.lt_succ_self _
  · show Function.update p.waiting i _ j = some call ↔ _
    rw [hout]
    by_cases hj : j = i
    · subst hj
      rw [Function.update_self]
      constructor
      · intro heq
        cases heq
        exact ⟨Or.inr rfl, rfl⟩
      · rintro ⟨hcall | rfl, hcaller⟩
        · -- the caller was not waiting for anything
          have hwaiting := (hp.waiting_iff j call).mpr ⟨hcall, hcaller⟩
          rw [hnone] at hwaiting
          cases hwaiting
        · rfl
    · rw [Function.update_of_ne hj, hp.waiting_iff]
      constructor
      · rintro ⟨hcall, hcaller⟩
        exact ⟨.inl hcall, hcaller⟩
      · rintro ⟨hcall | rfl, hcaller⟩
        · exact ⟨hcall, hcaller⟩
        · exact absurd hcaller.symm hj

theorem Matched.serve {reply : R} (hp : p.Matched) (h : p.serve reply = some q) : q.Matched := by
  obtain ⟨call, sent, hsent, rfl⟩ := serve_eq_some h
  have hout : outstanding { p with sent := sent, replies := p.replies ++ [(call, reply)] } =
      p.outstanding := by
    simp [outstanding, hsent]
  refine ⟨?_, ?_, ?_⟩
  · rw [hout]
    exact hp.sorted
  · rw [hout]
    exact hp.bound
  · rw [hout]
    exact hp.waiting_iff

/-- **The next reply is the caller's own** if and only if nobody waits for an older call. -/
theorem Matched.own_iff [DecidableEq ι] {x : Receipt ι C R} (hp : p.Matched) (h : p.receive i = some (q, x)) :
    x.Own ↔ p.Oldest i := by
  obtain ⟨hwaiting, replies, hreplies, -⟩ := receive_eq_some h
  have hout : p.outstanding = x.got :: (replies.map Prod.fst ++ p.sent) := by
    rw [outstanding, hreplies]
    rfl
  have hsorted := hp.sorted
  rw [hout, List.pairwise_cons] at hsorted
  constructor
  · intro hown mine hmine j other hother
    cases hwaiting.symm.trans hmine
    have hle : x.mine.number ≤ x.got.number := Nat.le_of_eq (congrArg Call.number hown.symm)
    have hmem := ((hp.waiting_iff j other).mp hother).1
    rw [hout, List.mem_cons] at hmem
    rcases hmem with rfl | hmem
    · exact hle
    · have := hsorted.1 other hmem
      omega
  · intro holdest
    have hgot : p.waiting x.got.caller = some x.got :=
      (hp.waiting_iff _ _).mpr ⟨by rw [hout]; exact List.mem_cons_self, rfl⟩
    have hle := holdest x.mine hwaiting _ _ hgot
    have hmem := ((hp.waiting_iff i x.mine).mp hwaiting).1
    rw [hout, List.mem_cons] at hmem
    rcases hmem with hmem | hmem
    · exact hmem.symm
    · have := hsorted.1 x.mine hmem
      omega

/-- **Taking one's own reply leaves a matched state.** -/
theorem Matched.receive [DecidableEq ι] {x : Receipt ι C R} (hp : p.Matched) (h : p.receive i = some (q, x))
    (hown : x.Own) : q.Matched := by
  obtain ⟨hwaiting, replies, hreplies, rfl⟩ := receive_eq_some h
  have hcaller := ((hp.waiting_iff i x.mine).mp hwaiting).2
  have hout : p.outstanding = x.mine :: (replies.map Prod.fst ++ p.sent) := by
    rw [outstanding, hreplies, ← show x.got = x.mine from hown]
    rfl
  have hsorted := hp.sorted
  rw [hout, List.pairwise_cons] at hsorted
  refine ⟨hsorted.2, fun call hcall => ?_, fun j call => ?_⟩
  · refine hp.bound call ?_
    rw [hout]
    exact List.mem_cons_of_mem _ hcall
  · show Function.update p.waiting i none j = some call ↔
      call ∈ replies.map Prod.fst ++ p.sent ∧ call.caller = j
    by_cases hj : j = i
    · subst hj
      rw [Function.update_self]
      constructor
      · intro heq
        cases heq
      · -- its only call has been taken off
        rintro ⟨hmem, rfl⟩
        have hlt := hsorted.1 call hmem
        have hcall := (hp.waiting_iff _ call).mpr
          ⟨by rw [hout]; exact List.mem_cons_of_mem _ hmem, rfl⟩
        cases hwaiting.symm.trans hcall
        omega
    · rw [Function.update_of_ne hj, hp.waiting_iff, hout, List.mem_cons]
      constructor
      · rintro ⟨rfl | hmem, rfl⟩
        · exact absurd hcaller hj
        · exact ⟨hmem, rfl⟩
      · rintro ⟨hmem, rfl⟩
        exact ⟨.inr hmem, rfl⟩

/-! ### One caller at a time -/

/-- The callers take turns: at most one call is outstanding. -/
structure Alone (p : Pipeline ι C R) : Prop where
  matched : p.Matched
  one : p.outstanding.length ≤ 1

theorem alone_empty : Alone ({} : Pipeline ι C R) := ⟨matched_empty, Nat.zero_le 1⟩

theorem Matched.outstanding_eq_nil (hp : p.Matched) (hnone : ∀ i, p.waiting i = none) :
    p.outstanding = [] := by
  refine List.eq_nil_iff_forall_not_mem.mpr fun call hcall => ?_
  have hwaiting := (hp.waiting_iff call.caller call).mpr ⟨hcall, rfl⟩
  rw [hnone] at hwaiting
  cases hwaiting

theorem Alone.send [DecidableEq ι] {c : C} (hp : p.Alone) (hnone : ∀ j, p.waiting j = none)
    (h : p.send i c = some q) : q.Alone := by
  refine ⟨hp.matched.send h, ?_⟩
  obtain ⟨hreplies, hsent⟩ := List.append_eq_nil_iff.mp (hp.matched.outstanding_eq_nil hnone)
  obtain ⟨-, rfl⟩ := send_eq_some h
  simp [outstanding, hsent, List.map_eq_nil_iff.mp hreplies]

theorem Alone.serve {reply : R} (hp : p.Alone) (h : p.serve reply = some q) : q.Alone := by
  refine ⟨hp.matched.serve h, ?_⟩
  obtain ⟨call, sent, hsent, rfl⟩ := serve_eq_some h
  have hone := hp.one
  simp only [outstanding, hsent, List.length_append, List.length_map, List.length_cons,
    List.length_nil] at hone ⊢
  omega

theorem Alone.unique (hp : p.Alone) {mine other : Call ι C} (hmine : p.waiting i = some mine)
    (hother : p.waiting j = some other) : mine = other := by
  have h₁ := ((hp.matched.waiting_iff i mine).mp hmine).1
  have h₂ := ((hp.matched.waiting_iff j other).mp hother).1
  have hone := hp.one
  cases hout : p.outstanding with
  | nil =>
    rw [hout] at h₁
    cases h₁
  | cons call rest =>
    rw [hout, List.length_cons] at hone
    obtain rfl : rest = [] := List.eq_nil_of_length_eq_zero (by omega)
    rw [hout, List.mem_singleton] at h₁ h₂
    rw [h₁, h₂]

/-- **Nobody waits for an older one.** -/
theorem Alone.oldest (hp : p.Alone) : p.Oldest i := by
  intro mine hmine j other hother
  exact Nat.le_of_eq (congrArg Call.number (hp.unique hmine hother))

theorem Alone.receive [DecidableEq ι] {x : Receipt ι C R} (hp : p.Alone)
    (h : p.receive i = some (q, x)) : q.Alone := by
  have hown := (hp.matched.own_iff h).mpr hp.oldest
  refine ⟨hp.matched.receive h hown, ?_⟩
  have hone := hp.one
  obtain ⟨-, replies, hreplies, rfl⟩ := receive_eq_some h
  simp only [outstanding, hreplies, List.map_cons, List.cons_append, List.length_cons] at hone ⊢
  omega

theorem Alone.of_sent {call : Call ι C} (hp : p.Alone) (h : p.sent.head? = some call) :
    p.sent = [call] ∧ p.replies = [] := by
  obtain ⟨rest, hsent⟩ := List.head?_eq_some_iff.mp h
  have hone := hp.one
  rw [outstanding, hsent, List.length_append, List.length_map, List.length_cons] at hone
  obtain rfl : rest = [] := List.eq_nil_of_length_eq_zero (by omega)
  exact ⟨hsent, List.eq_nil_of_length_eq_zero (by omega)⟩

theorem Alone.of_replied {x : Call ι C × R} {rest : List (Call ι C × R)} (hp : p.Alone)
    (h : p.replies = x :: rest) : p.sent = [] ∧ rest = [] := by
  have hone := hp.one
  rw [outstanding, h, List.length_append, List.length_map, List.length_cons] at hone
  exact ⟨List.eq_nil_of_length_eq_zero (by omega), List.eq_nil_of_length_eq_zero (by omega)⟩

/-- **A whole turn**: a call on a connection that nobody uses, its reply, and its end. -/
theorem exists_turn [DecidableEq ι] (hp : p.Alone) (hnone : ∀ j, p.waiting j = none) (i : ι) (c : C)
    (reply : R) : ∃ q₁ q₂ q₃ call x, p.send i c = some q₁ ∧ q₁.sent.head? = some call ∧
      call.caller = i ∧ call.command = c ∧ q₁.serve reply = some q₂ ∧
      q₂.receive i = some (q₃, x) ∧ x.reply = reply ∧ ∀ j, q₃.waiting j = none := by
  obtain ⟨hreplies, hsent⟩ := List.append_eq_nil_iff.mp (hp.matched.outstanding_eq_nil hnone)
  have hreplies : p.replies = [] := List.map_eq_nil_iff.mp hreplies
  let call : Call ι C := ⟨p.calls, i, c⟩
  let waiting := Function.update p.waiting i (some call)
  refine ⟨⟨p.calls + 1, [call], [], waiting⟩, ⟨p.calls + 1, [], [(call, reply)], waiting⟩,
    ⟨p.calls + 1, [], [], Function.update waiting i none⟩, call, ⟨call, call, reply⟩, ?_, rfl, rfl,
    rfl, rfl, ?_, rfl, fun j => ?_⟩
  · simp [Pipeline.send, hnone, hsent, hreplies, call, waiting]
  · simp [Pipeline.receive, waiting]
  · show Function.update waiting i none j = none
    by_cases hj : j = i
    · rw [hj, Function.update_self]
    · rw [Function.update_of_ne hj]
      exact (Function.update_of_ne hj ..).trans (hnone j)

end Pipeline

end Ocpe.Lib
