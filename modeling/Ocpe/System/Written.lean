import Ocpe.System.Life

/-!
# What the keys of a submission hold

The status key and the result key of a submission, in runs in which Redis answers.

* `status_cases`, `result_cases`: who has written them.  The handler of the submission
  writes the status `PENDING`, and only once (`pends_once`); everything else is the
  life of the submission.
* `held_of_last`: a key holds what was written last.
* `time_le`: the log is in the order of time.
-/

namespace Ocpe.System

open Lib Redis RedisClient WorkerPool

variable {cfg : Config} {s s' : Sys cfg}

/-! ### The last write of a key -/

/-- The verdict that a status key holds after the write. -/
def SetEvent.verdict (x : SetEvent) : Verdict := verdictFromString x.value

theorem last_set {key : Bytes} {log : List Event} {x : SetEvent}
    (h : (sets key log).getLast? = some x) :
    ∃ pre e post, log = pre ++ e :: post ∧ e.set? key = some x ∧ sets key post = [] := by
  induction log using List.reverseRecOn with
  | nil => cases h
  | append_singleton log e ih =>
    rw [sets_append] at h
    cases he : e.set? key with
    | none =>
      have hnil : sets key [e] = [] := by simp [sets, he]
      rw [hnil, List.append_nil] at h
      obtain ⟨pre, e', post, rfl, he', hpost⟩ := ih h
      refine ⟨pre, e', post ++ [e], by simp, he', ?_⟩
      rw [sets_append, hpost, hnil]
      rfl
    | some y =>
      have hone : sets key [e] = [y] := by simp [sets, he]
      rw [hone, List.getLast?_concat] at h
      cases h
      exact ⟨log, e, [], rfl, he, rfl⟩

/-- **A key holds what was written last.** -/
theorem held_of_last {key : Bytes} (hkey : SetOnly key) {as : List Action}
    (hrun : Reaches cfg as s) {pre post : List Event} {e : Event} {x : SetEvent}
    (hlog : s.log = pre ++ e :: post) (he : e.set? key = some x) (hpost : sets key post = []) :
    s.store key = some x.entry := by
  have hsets : sets key s.log = sets key pre ++ [x] := by
    rw [hlog, sets_append]
    have hcons : sets key (e :: post) = x :: sets key post := List.filterMap_cons_some he
    rw [hcons, hpost]
  rw [store_eq_lastSet hkey hrun, hsets, List.getLast?_concat]
  rfl

theorem held_of_mem {key : Bytes} (hkey : SetOnly key) {as : List Action}
    (hrun : Reaches cfg as s) {e : Event} (he : e ∈ s.log) {x : SetEvent}
    (hx : e.set? key = some x) :
    ∃ pre e' post x', s.log = pre ++ e' :: post ∧ e'.set? key = some x' ∧ sets key post = [] ∧
      s.store key = some x'.entry := by
  have hmem : x ∈ sets key s.log := List.mem_filterMap.mpr ⟨e, he, hx⟩
  obtain ⟨x', hlast⟩ : ∃ x', (sets key s.log).getLast? = some x' :=
    ⟨_, List.getLast?_eq_some_getLast (List.ne_nil_of_mem hmem)⟩
  obtain ⟨pre, e', post, hlog, he', hpost⟩ := last_set hlast
  exact ⟨pre, e', post, x', hlog, he', hpost, held_of_last hkey hrun hlog he' hpost⟩

theorem last_of_held {key : Bytes} (hkey : SetOnly key) {as : List Action}
    (hrun : Reaches cfg as s) {entry : Entry} (h : s.store key = some entry) :
    ∃ pre e post x, s.log = pre ++ e :: post ∧ e.set? key = some x ∧ sets key post = [] ∧
      entry = x.entry := by
  rw [store_eq_lastSet hkey hrun, Option.map_eq_some_iff] at h
  obtain ⟨x, hlast, rfl⟩ := h
  obtain ⟨pre, e, post, hlog, he, hpost⟩ := last_set hlast
  exact ⟨pre, e, post, x, hlog, he, hpost, rfl⟩

theorem setOnly_statusKey (id : Bytes) : SetOnly (statusKey id) := by
  apply setOnly_of_take <;> rw [take_statusKey] <;> decide

theorem setOnly_resultKey (id : Bytes) : SetOnly (resultKey id) := by
  apply setOnly_of_take <;> rw [take_resultKey] <;> decide

/-! ### The order of time -/

def Event.time? : Event → Option Nat
  | .wire _ now _ _ _ => some now
  | _ => none

theorem Event.time?_of_set? {e : Event} {key : Bytes} {x : SetEvent} (h : e.set? key = some x) :
    e.time? = some x.now := by
  obtain ⟨who, reply, answer, rfl⟩ := Event.set?_eq_some.mp h
  rfl

theorem times_le_now {as : List Action} (hrun : Reaches cfg as s) {e : Event} (he : e ∈ s.log)
    {t : Nat} (ht : e.time? = some t) : t ≤ s.now := by
  cases e with
  | wire who now op executed answer =>
    obtain rfl : now = t := Option.some.inj ht
    obtain ⟨as₁, net, as₂, m, -, -, -, hevent, hrest⟩ := at_mem hrun he
    have hnow : m.now = now := by cases hevent; rfl
    rw [← hnow, ← perform_now]
    exact (grows_run hrest).now
  | _ => cases ht

/-- **The log is in the order of time.** -/
theorem time_le {as : List Action} (hrun : Reaches cfg as s) {pre post : List Event} {e e' : Event}
    (hlog : s.log = pre ++ e :: post) (he' : e' ∈ pre) {t t' : Nat} (ht : e.time? = some t)
    (ht' : e'.time? = some t') : t' ≤ t := by
  cases e with
  | wire who now op executed answer =>
    obtain rfl : now = t := Option.some.inj ht
    obtain ⟨as₁, net, as₂, m, -, hm, hpre, -, hevent, -⟩ := at_event hrun hlog
    have hnow : m.now = now := by cases hevent; rfl
    rw [← hnow]
    apply times_le_now hm (hpre ▸ he') ht'
  | _ => cases ht

/-! ### Who has written the status -/

/-- The handler's `SET` of the status `PENDING`, executed. -/
def Event.Pends (id : Bytes) : Event → Prop
  | .wire (.handler _) _ op (some _) _ => op = statusWrite id .pending
  | _ => False

/-- The status that an event of a worker writes. -/
def Event.status? (id : Bytes) (e : Event) : Option Verdict := (e.life? id).bind (statusOf? id)

/-- The result that an event of a worker writes. -/
def Event.result? (id : Bytes) (e : Event) : Option Bytes := (e.life? id).bind (resultOf? id)

theorem filterMap_status? (id : Bytes) (log : List Event) :
    log.filterMap (Event.status? id) = (life id log).filterMap (statusOf? id) :=
  List.filterMap_filterMap.symm

theorem filterMap_result? (id : Bytes) (log : List Event) :
    log.filterMap (Event.result? id) = (life id log).filterMap (resultOf? id) :=
  List.filterMap_filterMap.symm

theorem status_cases {as : List Action} (hrun : Reaches cfg as s) {id : Bytes} {e : Event}
    (he : e ∈ s.log) {x : SetEvent} (hset : e.set? (statusKey id) = some x) :
    x.exSec = some 86400 ∧ x.value = verdictToString x.verdict ∧
      ((e.Pends id ∧ x.verdict = .pending) ∨ e.status? id = some x.verdict) := by
  obtain ⟨who, reply, answer, rfl⟩ := Event.set?_eq_some.mp hset
  have hsends := sends_of_mem hrun he
  obtain ⟨now, value, exSec⟩ := x
  generalize hk : statusKey id = key at hsends
  generalize hop : Wire.command (.set key value exSec) = op at hsends
  cases who with
  | handler r =>
    obtain ⟨h, -, hsends⟩ := hsends
    cases hsends with
    | setUser =>
      cases hop
      exact absurd hk (ne_of_take (take_statusKey _) (take_userKey _) (by decide))
    | setToken =>
      cases hop
      exact absurd hk (ne_of_take (take_statusKey _) (take_tokenKey _) (by decide))
    | setPending =>
      cases hop
      refine ⟨rfl, by simp [SetEvent.verdict], .inl ⟨?_, by simp [SetEvent.verdict]⟩⟩
      show Wire.command _ = statusWrite id .pending
      rw [statusWrite, hk]
    | _ => cases hop
  | worker w =>
    cases hsends with
    | setStatus id' v =>
      cases hop
      refine ⟨rfl, by simp [SetEvent.verdict], .inr ?_⟩
      simp [Event.status?, Event.life?, Wire.writes, Cmd.writes, hk, statusOf?, SetEvent.verdict]
    | setResult =>
      cases hop
      exact absurd hk (ne_of_take (take_statusKey _) (take_resultKey _) (by decide))
    | _ => cases hop

theorem result_cases {as : List Action} (hrun : Reaches cfg as s) {id : Bytes} {e : Event}
    (he : e ∈ s.log) {x : SetEvent} (hset : e.set? (resultKey id) = some x) :
    x.exSec = some 86400 ∧ e.result? id = some x.value := by
  obtain ⟨who, reply, answer, rfl⟩ := Event.set?_eq_some.mp hset
  have hsends := sends_of_mem hrun he
  obtain ⟨now, value, exSec⟩ := x
  generalize hk : resultKey id = key at hsends
  generalize hop : Wire.command (.set key value exSec) = op at hsends
  cases who with
  | handler r =>
    obtain ⟨h, -, hsends⟩ := hsends
    cases hsends with
    | setUser =>
      cases hop
      exact absurd hk (ne_of_take (take_resultKey _) (take_userKey _) (by decide))
    | setToken =>
      cases hop
      exact absurd hk (ne_of_take (take_resultKey _) (take_tokenKey _) (by decide))
    | setPending =>
      cases hop
      exact absurd hk (ne_of_take (take_resultKey _) (take_statusKey _) (by decide))
    | _ => cases hop
  | worker w =>
    cases hsends with
    | setStatus id' v =>
      cases hop
      exact absurd hk (ne_of_take (take_resultKey _) (take_statusKey _) (by decide))
    | setResult =>
      cases hop
      refine ⟨rfl, ?_⟩
      simp [Event.result?, Event.life?, Wire.writes, Cmd.writes, hk, resultOf?]
    | _ => cases hop

/-! ### The handler writes the status once -/

theorem at_pending_enqueue {job : SubmissionJob} {t : List (Wire × Answer)} {id : Bytes}
    {next : Answer → Talk Response}
    (h : (ApiServer.enqueueSubmission cfg job).Path t (.op (statusWrite id .pending) next))
    (ht : Replied t) : ∀ x ∈ t, x.1.writes ≠ some (statusKey id) := by
  have hqueue : queueKey ≠ statusKey id := ne_of_take take_queueKey (take_statusKey _) (by decide)
  rw [ApiServer.enqueueSubmission, enqueueJob, Prog.bind_assoc] at h
  obtain ⟨payload, -, h⟩ := path_json_bind h (by simp)
  rcases path_succeeds_replied h ht with ⟨-, heq⟩ | ⟨r, t', rfl, h', ht'⟩
  · cases heq
  · split at h'
    · rw [ApiServer.announceSubmission, setStatus] at h'
      rcases path_succeeds_replied h' ht' with ⟨rfl, -⟩ | ⟨r', t'', rfl, h'', -⟩
      · simpa [Wire.writes, Cmd.writes] using hqueue
      · rcases ((recordAndRespond_writes cfg job).of_path h'').2.1 with hop | hop
        · cases hop
        · exact absurd (Option.some.inj hop)
            (ne_of_take (take_statusKey _) (take_userSubsKey _) (by decide))
    · cases (Prog.path_pure.mp h').2

theorem request_of_sends {env : Surroundings} {request : Request} {id : Bytes}
    (h : HandlerSends cfg env request (statusWrite id .pending)) :
    statusKey env.submissionId.text = statusKey id ∧
      ∃ authorization body, request = .submit authorization body := by
  generalize hop : statusWrite id .pending = op at h
  cases h with
  | setToken username =>
    have hkey := (Cmd.set.inj (Wire.command.inj hop)).1
    exact absurd hkey (ne_of_take (take_statusKey _) (take_tokenKey _) (by decide))
  | setPending authorization body hrequest =>
    have hkey := (Cmd.set.inj (Wire.command.inj hop)).1
    exact ⟨hkey.symm, authorization, body, hrequest⟩
  | _ => cases hop

theorem at_pending {env : Surroundings} {request : Request} {t : List (Wire × Answer)} {id : Bytes}
    {next : Answer → Talk Response}
    (h : (ApiServer.handle cfg env request).Path t (.op (statusWrite id .pending) next))
    (ht : Replied t) : ∀ x ∈ t, x.1.writes ≠ some (statusKey id) := by
  obtain ⟨-, authorization, body, rfl⟩ :=
    request_of_sends ((handle_sends request).of_path h).2.1
  obtain ⟨t₁, t₂, username, job, rfl, h₁, -, h₂⟩ :=
    postSubmit_path_write h (by simp [Wire.writes, Cmd.writes])
  intro x hx
  rcases List.mem_append.mp hx with hx | hx
  · rw [((requireAuth_reads authorization).of_path h₁).1 x hx]
    simp
  · exact at_pending_enqueue h₂ ht.right x hx

section Served

variable {as : List Action} (hrun : Reaches cfg as s) (hserved : ∀ a ∈ as, a.Served)
  (hids : DistinctIds s)

include hrun hserved hids

/-- **The status `PENDING` is written once.** -/
theorem pends_once {id : Bytes} {pre post : List Event} {e e' : Event}
    (hlog : s.log = pre ++ e :: post) (he : e.Pends id) (he' : e' ∈ pre) : ¬ e'.Pends id := by
  intro hpends'
  unfold Event.Pends at he hpends'
  split at he
  · next r now op reply answer =>
    subst he
    split at hpends'
    · next r' now' op' reply' answer' =>
      subst hpends'
      obtain ⟨as₁, net, as₂, m, rfl, hm, rfl, hop, -, hrest⟩ := at_event hrun hlog
      have hstep : Lib.run (step cfg) m (.perform (.handler r) net :: as₂) = some s :=
        run_cons_iff.mpr ⟨_, step_perform_iff.mpr ⟨_, hop, rfl⟩, hrest⟩
      have hids' : DistinctIds m := hids.of_run hstep
      have hserved' : ∀ a ∈ as₁, a.Served := fun a ha => hserved a (List.mem_append_left _ ha)
      obtain ⟨k, next, hr, hpath⟩ := handler_at hop
      obtain ⟨k', hr', hsends'⟩ := sends_of_mem hm he'
      have hid := (request_of_sends ((handle_sends k.request).of_path hpath).2.1).1
      have hid' := (request_of_sends hsends').1
      have htext : k'.env.submissionId.text = k.env.submissionId.text := by
        have heq := statusKey_inj.mp (hid'.trans hid.symm)
        rwa [cstr_eq_self k'.env.submissionId.nulFree, cstr_eq_self k.env.submissionId.nulFree]
          at heq
      obtain rfl := hids' r' r k' k hr' hr htext
      -- the earlier write is in the trace of this handler
      have hmem : (statusWrite id .pending, answer') ∈ k.task.trace :=
        (mem_trace_iff hm hr).mpr ⟨_, _, he'⟩
      exact at_pending hpath (handler_replied hm hserved' hr) _ hmem rfl
    · exact hpends'
  · exact he

end Served

/-! ### The life of a submission, write by write -/

/-- A submission that nobody has written about, or that a worker has taken. -/
theorem Life.cases_of_id (hs : Life s) {id : Bytes} (hid : NulFree id) :
    life id s.log = [] ∨ ∃ i job f m q, Line cfg s.log i job ∧ job.submissionId = id ∧
      (ledger s.log).fates[i]? = some f ∧ Stage cfg m job (life id s.log) q ∧ Stands s m q f := by
  by_cases htaken : ∃ i job f, Line cfg s.log i job ∧ job.submissionId = id ∧
      (ledger s.log).fates[i]? = some f
  · obtain ⟨i, job, f, hline, rfl, hf⟩ := htaken
    obtain ⟨m, q, hstage, hstands⟩ := hs.taken i job f hline hf
    exact .inr ⟨i, job, f, m, q, hline, rfl, hf, hstage, hstands⟩
  · refine .inl (hs.idle id hid fun i job hline hjob => ?_)
    cases hf : (ledger s.log).fates[i]? with
    | none => rfl
    | some f => exact absurd ⟨i, job, f, hline, hjob, hf⟩ htaken

/-- **The statuses that the workers write go forward**, from `COMPILING` on. -/
theorem Life.statuses (hs : Life s) {id : Bytes} (hid : NulFree id) :
    (s.log.filterMap (Event.status? id)).Pairwise (fun v v' => v.rank ≤ v'.rank) ∧
      ∀ v ∈ s.log.filterMap (Event.status? id), 0 < v.rank := by
  rw [filterMap_status?]
  rcases hs.cases_of_id hid with hnil | ⟨i, job, f, m, q, -, rfl, -, hstage, -⟩
  · rw [hnil]
    simp
  · exact hstage.statuses

/-- **The result that a worker has written** is that of an evaluation of the job, it is
the only one, and only behind it comes a verdict, which is the one of the result. -/
theorem Life.of_result (hs : Life s) {id payload : Bytes} (hid : NulFree id)
    (h : payload ∈ s.log.filterMap (Event.result? id)) :
    ∃ job m result, job.submissionId = id ∧ evaluation cfg m job = .ok result ∧
      submissionResultToJson cfg.format result = .ok payload ∧
      (life id s.log = [statusWrite id .compiling, statusWrite id .running,
          resultWrite id payload] ∨
        life id s.log = [statusWrite id .compiling, statusWrite id .running,
          resultWrite id payload, statusWrite id result.verdict]) := by
  rw [filterMap_result?] at h
  rcases hs.cases_of_id hid with hnil | ⟨i, job, f, m, q, -, rfl, -, hstage, -⟩
  · rw [hnil] at h
    cases h
  · obtain ⟨result, heval, hpayload, hlife⟩ := hstage.of_result h
    exact ⟨job, m, result, rfl, heval, hpayload, hlife⟩

theorem Life.result_unique (hs : Life s) {id payload payload' : Bytes} (hid : NulFree id)
    (h : payload ∈ s.log.filterMap (Event.result? id))
    (h' : payload' ∈ s.log.filterMap (Event.result? id)) : payload' = payload := by
  obtain ⟨job, m, result, -, -, -, hlife⟩ := hs.of_result hid h
  rw [filterMap_result?] at h'
  rcases hlife with hlife | hlife <;> rw [hlife] at h' <;> simpa using h'

theorem Life.of_done (hs : Life s) {i w : Nat} {job : SubmissionJob}
    (hline : Line cfg s.log i job) (hf : (ledger s.log).fates[i]? = some (.done w)) :
    ∃ m result payload, evaluation cfg m job = .ok result ∧
      submissionResultToJson cfg.format result = .ok payload ∧
      life job.submissionId s.log =
        [statusWrite job.submissionId .compiling, statusWrite job.submissionId .running,
          resultWrite job.submissionId payload, statusWrite job.submissionId result.verdict] := by
  obtain ⟨m, q, hstage, hq⟩ := hs.taken i job _ hline hf
  obtain rfl : q = .pure () := hq
  obtain ⟨result, payload, heval, hpayload, hlife⟩ := hstage.of_pure
  exact ⟨m, result, payload, heval, hpayload, hlife⟩

/-! ### What a worker has written is there -/

theorem set_of_life? {id key value : Bytes} {exSec : Option Nat} {e : Event} (he : e.Answered)
    (h : e.life? id = some (.command (.set key value exSec))) :
    ∃ x, e.set? key = some x ∧ x.value = value := by
  unfold Event.life? at h
  split at h
  · split at h
    · next w now _ _ answer _ =>
      cases h
      obtain ⟨reply, rfl, -⟩ := he
      exact ⟨⟨now, value, exSec⟩, Event.set?_eq_some.mpr ⟨_, _, _, rfl⟩, rfl⟩
    · cases h
  · cases h

theorem set_of_status? {id : Bytes} {e : Event} (he : e.Answered) {v : Verdict}
    (h : e.status? id = some v) : ∃ x, e.set? (statusKey id) = some x ∧ x.verdict = v := by
  obtain ⟨op, hop, hv⟩ := Option.bind_eq_some_iff.mp h
  obtain ⟨value, exSec, rfl, rfl⟩ := statusOf?_eq_some.mp hv
  obtain ⟨x, hx, rfl⟩ := set_of_life? he hop
  exact ⟨x, hx, rfl⟩

theorem set_of_result? {id : Bytes} {e : Event} (he : e.Answered) {payload : Bytes}
    (h : e.result? id = some payload) :
    ∃ x, e.set? (resultKey id) = some x ∧ x.value = payload := by
  obtain ⟨op, hop, hv⟩ := Option.bind_eq_some_iff.mp h
  obtain ⟨exSec, rfl⟩ := resultOf?_eq_some.mp hv
  exact set_of_life? he hop

theorem set_of_pends {id : Bytes} {e : Event} (h : e.Pends id) :
    ∃ x, e.set? (statusKey id) = some x ∧ x.verdict = .pending := by
  unfold Event.Pends at h
  split at h
  · next r now op reply answer =>
    subst h
    exact ⟨⟨now, cstr (verdictToString .pending), some 86400⟩,
      Event.set?_eq_some.mpr ⟨_, _, _, rfl⟩, by simp [SetEvent.verdict]⟩
  · exact h.elim

/-- **The result that a worker has written is what the result key holds.** -/
theorem result_held {as : List Action} (hrun : Reaches cfg as s)
    (hserved : ∀ a ∈ as, a.Served) (hs : Life s) {id payload : Bytes} (hid : NulFree id)
    (h : payload ∈ s.log.filterMap (Event.result? id)) :
    ∃ pre e post t, s.log = pre ++ e :: post ∧ e.time? = some t ∧ e.result? id = some payload ∧
      s.store (resultKey id) = some ⟨.str payload, some (t + 86400 * 1000)⟩ := by
  obtain ⟨e, he, hresult⟩ := List.mem_filterMap.mp h
  obtain ⟨x, hx, -⟩ := set_of_result? (answered hrun hserved e he) hresult
  obtain ⟨pre, e', post, x', hlog, he', -, hstore⟩ :=
    held_of_mem (setOnly_resultKey id) hrun he hx
  have hmem' : e' ∈ s.log := by rw [hlog]; simp
  obtain ⟨hex, hresult'⟩ := result_cases hrun hmem' he'
  have hvalue : x'.value = payload :=
    hs.result_unique hid h (List.mem_filterMap.mpr ⟨e', hmem', hresult'⟩)
  refine ⟨pre, e', post, x'.now, hlog, Event.time?_of_set? he', hvalue ▸ hresult', ?_⟩
  rw [hstore, SetEvent.entry, hex, hvalue]
  rfl

end Ocpe.System
