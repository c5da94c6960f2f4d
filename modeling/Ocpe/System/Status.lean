import Ocpe.System.Written

/-!
# The status key

The handler of a submission and the worker that takes its job both write the status.
The handler enqueues the job *before* it writes `PENDING`, so the worker can be faster.
`status_settles`: the status goes forward, and ends as the verdict of the stored result,
when the handler's write comes before the worker's writes; and only then, once the
handler has written.
-/

namespace Ocpe.System

open Lib Redis RedisClient WorkerPool

variable {cfg : Config} {s : Sys cfg}

/-- The status key of the submission never went backwards. -/
def Forward (id : Bytes) (log : List Event) : Prop :=
  (sets (statusKey id) log).Pairwise fun x y => x.verdict.rank ≤ y.verdict.rank

/-- When a worker writes a status of the submission, the handler has written its own. -/
def PendingFirst (id : Bytes) (log : List Event) : Prop :=
  ∀ pre e post v, log = pre ++ e :: post → e.status? id = some v → ∃ e' ∈ pre, e'.Pends id

/-- Once a worker is through with the job of the submission, the result key holds the
result, and the status key its verdict. -/
def Settled (s : Sys cfg) (id : Bytes) : Prop :=
  ∀ i w job, Line cfg s.log i job → job.submissionId = id →
    (ledger s.log).fates[i]? = some (.done w) →
    ∃ b result t t', submissionResultFromJson cfg.format b = .ok result ∧
      s.store (resultKey id) = some ⟨.str b, some t⟩ ∧
      s.store (statusKey id) = some ⟨.str (verdictToString result.verdict), some t'⟩

theorem pairwise_of_before {α : Type} {R : α → α → Prop} {l : List α}
    (h : ∀ pre a post, l = pre ++ a :: post → ∀ b ∈ pre, R b a) : l.Pairwise R := by
  rw [List.pairwise_iff_forall_sublist]
  intro b a hsub
  obtain ⟨l₁, l₂, rfl, hb, ha⟩ := List.cons_sublist_iff.mp hsub
  obtain ⟨u, v, rfl⟩ := List.append_of_mem (List.singleton_sublist.mp ha)
  exact h (l₁ ++ u) a v (by simp) b (List.mem_append_left _ hb)

theorem status?_of_pends {id : Bytes} {e : Event} (h : e.Pends id) : e.status? id = none := by
  unfold Event.Pends at h
  split at h
  · rfl
  · exact h.elim

theorem pendingFirst_of_split {id : Bytes} {pre post : List Event} {e : Event} (he : e.Pends id)
    (hpre : ∀ e' ∈ pre, e'.status? id = none) : PendingFirst id (pre ++ e :: post) := by
  intro pre' e' post' v hlog hv
  rcases List.append_eq_append_iff.mp hlog with ⟨l, rfl, hl⟩ | ⟨l, rfl, hl⟩
  · cases l with
    | nil =>
      obtain ⟨rfl, -⟩ := List.cons.inj hl
      rw [status?_of_pends he] at hv
      cases hv
    | cons a l =>
      obtain ⟨rfl, -⟩ := List.cons.inj hl
      exact ⟨e, by simp, he⟩
  · cases l with
    | nil =>
      obtain ⟨rfl, -⟩ := List.cons.inj hl
      rw [status?_of_pends he] at hv
      cases hv
    | cons a l =>
      obtain ⟨rfl, -⟩ := List.cons.inj hl
      rw [hpre e' (by simp)] at hv
      cases hv

section Run

variable {as : List Action} (hrun : Reaches cfg as s) (hserved : ∀ a ∈ as, a.Served)
  (hids : DistinctIds s) {id : Bytes}

include hrun hserved hids

/-- **The status goes forward** when the handler is first. -/
theorem forward_of_pendingFirst (hid : NulFree id) (hfirst : PendingFirst id s.log) :
    Forward id s.log := by
  have hstatuses := ((life_of_run hrun hserved hids).statuses hid).1
  rw [List.pairwise_filterMap] at hstatuses
  rw [Forward, sets, List.pairwise_filterMap]
  apply pairwise_of_before
  intro pre e' post hlog e he x hx y hy
  have hmem : e ∈ s.log := by rw [hlog]; exact List.mem_append_left _ he
  have hmem' : e' ∈ s.log := by rw [hlog]; simp
  obtain ⟨-, -, ⟨-, hpending⟩ | hstatus⟩ := status_cases hrun hmem hx
  · rw [hpending]
    exact Nat.zero_le _
  · obtain ⟨-, -, ⟨hpends, -⟩ | hstatus'⟩ := status_cases hrun hmem' hy
    · -- the handler has written before the worker has, and would write again
      obtain ⟨pre', post', rfl⟩ := List.append_of_mem he
      obtain ⟨e₀, he₀, hpends₀⟩ := hfirst pre' e (post' ++ e' :: post) _ (by simp [hlog]) hstatus
      exact absurd hpends₀
        (pends_once hrun hserved hids hlog hpends (List.mem_append_left _ he₀))
    · rw [hlog, List.pairwise_append] at hstatuses
      exact hstatuses.2.2 e he e' List.mem_cons_self _ hstatus _ hstatus'

theorem pendingFirst_of_forward (hid : NulFree id) {e₀ : Event} (he₀ : e₀ ∈ s.log)
    (hpends : e₀.Pends id) (hforward : Forward id s.log) : PendingFirst id s.log := by
  intro pre e post v hlog hv
  have hmem : e ∈ s.log := by rw [hlog]; simp
  have hpos : 0 < v.rank := ((life_of_run hrun hserved hids).statuses hid).2 v
    (List.mem_filterMap.mpr ⟨e, hmem, hv⟩)
  obtain ⟨x, hx, rfl⟩ := set_of_status? (answered hrun hserved e hmem) hv
  obtain ⟨y, hy, hpending⟩ := set_of_pends hpends
  have hzero : y.verdict.rank = 0 := by rw [hpending]; rfl
  rw [hlog, List.mem_append, List.mem_cons] at he₀
  rcases he₀ with he₀ | rfl | he₀
  · exact ⟨e₀, he₀, hpends⟩
  · rw [hx] at hy
    cases hy
    omega
  · -- `PENDING` behind a status of the worker goes backwards
    rw [Forward, sets, List.pairwise_filterMap, hlog, List.pairwise_append,
      List.pairwise_cons] at hforward
    have hle := hforward.2.1.1 e₀ he₀ x hx y hy
    omega

/-- **The status settles as the verdict of the result.** -/
theorem settled_of_forward (hid : NulFree id) (hforward : Forward id s.log) : Settled s id := by
  rintro i w job hline rfl hdone
  have hlife := life_of_run hrun hserved hids
  obtain ⟨m, result, b, heval, hb, hsent⟩ := hlife.of_done hline hdone
  have hresult : b ∈ s.log.filterMap (Event.result? job.submissionId) := by
    rw [filterMap_result?, hsent]
    simp
  have hstatuses : s.log.filterMap (Event.status? job.submissionId) =
      [.compiling, .running, result.verdict] := by
    rw [filterMap_status?, hsent]
    simp
  have hterminal : result.verdict.rank = 3 := (evaluateSubmission_ok heval).2
  obtain ⟨-, -, -, t, -, -, -, hstored⟩ := result_held hrun hserved hlife hid hresult
  -- the verdict of the result was written, and what the key holds is no earlier stage
  obtain ⟨e, he, hstatus⟩ : ∃ e ∈ s.log, e.status? job.submissionId = some result.verdict :=
    List.mem_filterMap.mp (by rw [hstatuses]; simp)
  obtain ⟨x, hx, hxv⟩ := set_of_status? (answered hrun hserved e he) hstatus
  obtain ⟨pre, e', post, y, hlog, hy, hpost, hstore⟩ :=
    held_of_mem (setOnly_statusKey _) hrun he hx
  have he' : e' ∈ s.log := by rw [hlog]; simp
  have hle : x.verdict.rank ≤ y.verdict.rank := by
    have hsets : sets (statusKey job.submissionId) s.log =
        sets (statusKey job.submissionId) pre ++ [y] := by
      rw [hlog, sets_append]
      have hcons : sets (statusKey job.submissionId) (e' :: post) =
          y :: sets (statusKey job.submissionId) post := List.filterMap_cons_some hy
      rw [hcons, hpost]
    have hxmem : x ∈ sets (statusKey job.submissionId) s.log := List.mem_filterMap.mpr ⟨e, he, hx⟩
    rw [Forward, hsets, List.pairwise_append] at hforward
    rw [hsets, List.mem_append, List.mem_singleton] at hxmem
    rcases hxmem with hxpre | rfl
    · exact hforward.2.2 x hxpre y List.mem_cons_self
    · exact Nat.le_refl _
  have hy3 : y.verdict.rank = 3 := by
    have := y.verdict.rank_le
    rw [hxv] at hle
    omega
  obtain ⟨hex, hvalue, ⟨-, hpending⟩ | hstatus'⟩ := status_cases hrun he' hy
  · rw [hpending] at hy3
    cases hy3
  · have hverdict : y.verdict = result.verdict := by
      have hmem : y.verdict ∈ s.log.filterMap (Event.status? job.submissionId) :=
        List.mem_filterMap.mpr ⟨e', he', hstatus'⟩
      rw [hstatuses] at hmem
      simp only [List.mem_cons, List.not_mem_nil, or_false] at hmem
      rcases hmem with h | h | h
      · rw [h] at hy3; cases hy3
      · rw [h] at hy3; cases hy3
      · exact h
    refine ⟨b, result, _, y.now + 86400 * 1000, resultFromJson_toJson hb, hstored, ?_⟩
    rw [hstore, SetEvent.entry, hex, hvalue, hverdict]
    rfl

end Run

/-- **How the status of a submission goes**, in every run in which Redis answers: when
the handler writes `PENDING` before the worker writes anything, the status goes forward
and settles as the verdict of the stored result; once the handler has written, the
status has gone forward only if it was first. -/
theorem status_settles {as : List Action} (hrun : Reaches cfg as s)
    (hserved : ∀ a ∈ as, a.Served) (hids : DistinctIds s) (id : HexString 32) :
    (PendingFirst id.text s.log → Forward id.text s.log ∧ Settled s id.text) ∧
    ((∃ e ∈ s.log, e.Pends id.text) → Forward id.text s.log → PendingFirst id.text s.log) := by
  constructor
  · intro hfirst
    have hforward := forward_of_pendingFirst hrun hserved hids id.nulFree hfirst
    exact ⟨hforward, settled_of_forward hrun hserved hids id.nulFree hforward⟩
  · rintro ⟨e, he, hpends⟩ hforward
    exact pendingFirst_of_forward hrun hserved hids id.nulFree he hpends hforward

theorem status_settles_inOrder :
    ∃ s : Sys textConfig, Reaches textConfig inOrder s ∧ (ledger s.log).Done 0 zeroPayload ∧
      Forward (zeros 32).text s.log ∧ Settled s (zeros 32).text := by
  obtain ⟨h₀, h₁, response, henv₀, henv₁, -, -, -, hrun⟩ := ann_in_order
  refine ⟨_, hrun, ⟨0, rfl, rfl⟩, ?_⟩
  refine (status_settles hrun (fun a ha => (faultFree_inOrder a ha).served)
    (distinctIds_ann henv₀ henv₁ rfl) (zeros 32)).1 ?_
  have hpends : (Event.wire (.handler 1) 0 (statusWrite (zeros 32).text .pending)
      (some (.status "OK")) (.reply (.status "OK"))).Pends (zeros 32).text := rfl
  exact @pendingFirst_of_split _ (enqueued h₀ h₁).log _ _ hpends
    (List.filterMap_eq_nil_iff.mp rfl)

/-- **The worker is through before the handler has written `PENDING`**: the job is
accepted and judged, and its status is `PENDING`. -/
theorem status_backwards :
    ∃ s h response, Reaches textConfig (overtaking 0) s ∧ (∀ a ∈ overtaking 0, a.FaultFree) ∧
      DistinctIds s ∧ s.requests 1 = some h ∧ h.request = annSubmits ∧
      h.env.submissionId = zeros 32 ∧ h.task.rest = .pure response ∧ response.status = 202 ∧
      (ledger s.log).Done 0 zeroPayload ∧
      (sets (statusKey (zeros 32).text) s.log).map SetEvent.verdict =
        [.compiling, .running, .accepted, .pending] ∧
      (s.store (resultKey (zeros 32).text)).map (·.value) = some (.str oneStored) ∧
      (s.store (statusKey (zeros 32).text)).map (·.value) = some (.str "PENDING") ∧
      ¬ Forward (zeros 32).text s.log ∧ ¬ Settled s (zeros 32).text := by
  obtain ⟨h₀, h₁, response, henv₀, henv₁, hrequest, hrest, h202, hrun⟩ := ann_overtaken 0
  have hverdicts : (sets (statusKey (zeros 32).text) (overtaken h₀ h₁ 0).log).map
      SetEvent.verdict = [.compiling, .running, .accepted, .pending] := rfl
  have hresult : ((overtaken h₀ h₁ 0).store (resultKey (zeros 32).text)).map (·.value) =
      some (.str oneStored) := rfl
  have hstatus : ((overtaken h₀ h₁ 0).store (statusKey (zeros 32).text)).map (·.value) =
      some (.str "PENDING") := rfl
  refine ⟨_, h₁, response, hrun, faultFree_overtaking 0, distinctIds_ann henv₀ henv₁ rfl, ?_,
    hrequest, by rw [henv₁]; rfl, hrest, h202, ⟨0, rfl, rfl⟩, hverdicts, hresult, hstatus, ?_, ?_⟩
  · simp [overtaken, workerServed, enqueued]
  · intro hforward
    have hranks : ((sets (statusKey (zeros 32).text) (overtaken h₀ h₁ 0).log).map
        SetEvent.verdict).Pairwise fun v v' => v.rank ≤ v'.rank := List.pairwise_map.mpr hforward
    rw [hverdicts] at hranks
    revert hranks
    decide
  · intro hsettled
    obtain ⟨b, result, t, t', hb, hres, hst⟩ :=
      hsettled 0 0 zeroJob ⟨zeroPayload, rfl, zeroJob_payload⟩ rfl rfl
    rw [hres, Option.map_some, Option.some.injEq, Value.str.injEq] at hresult
    rw [hst, Option.map_some, Option.some.injEq, Value.str.injEq] at hstatus
    rw [hresult, resultFromJson_toJson oneResult_stored] at hb
    cases hb
    revert hstatus
    decide

end Ocpe.System
