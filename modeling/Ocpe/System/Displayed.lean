import Ocpe.System.Findable
import Ocpe.Web.Html

/-!
# What the page shows of a submission

The page puts the verdict and the language of an answer into its HTML as they are, and what the
compiler and the program have printed as text.

* `Evaluated.plain`: the verdict and the language of a result stand for themselves.
* `page_shows`: so no output becomes an element of the page.
-/

namespace Ocpe

open Lib Redis Prog RedisClient AuthService WorkerPool

namespace Web

open Markup

theorem isPlain_verdict (v : Verdict) : isPlain (verdictToString v) = true := by
  cases v <;> decide

/-- The page shows what is meant. -/
structure Shows (data : Data) : Prop where
  summary : read content (summaryHtml (renderSummary data)) =
    some (shownAll content false (summaryTree (renderSummary data)))
  details : read content (detailsHtml (renderDetails data)) =
    some (shownAll content false (detailsTree (renderDetails data)))

theorem shows_of_plain {data : Data} {v : Verdict}
    (hverdict : data.verdict = some (verdictToString v))
    (hlanguage : ∀ language ∈ data.language, isPlain language = true)
    (htests : ∀ tests ∈ data.testResults, ∀ tc ∈ tests, isPlain tc.verdict = true) : Shows data := by
  constructor
  · refine read_summaryHtml ⟨?_, ?_⟩
    · rw [renderSummary_verdict hverdict]
      exact isPlain_verdict v
    · intro language hmem
      apply hlanguage
      unfold renderSummary truthy at hmem
      dsimp only at hmem
      split at hmem
      · next heq =>
        rw [heq]
        exact hmem
      · cases hmem
  · refine read_detailsHtml ?_
    intro details hdetails line hline
    obtain ⟨tests, shown, htestResults, hsub, hlines, -⟩ := renderDetails_lines hdetails
    rw [hlines] at hline
    obtain ⟨tc, htc, rfl⟩ := List.mem_map.mp hline
    exact htests tests htestResults tc (hsub.subset htc)

/-- What the page reads of a result. -/
def Data.ofResult (result : SubmissionResult) : Data where
  verdict := some (verdictToString result.verdict)
  language := some result.language
  passed := some result.passed.toInt
  total := some result.total.toInt
  maxTimeMs := some result.maxTimeMs.toInt
  maxMemoryKb := some result.maxMemoryKb.toInt
  compileOutput := some result.compileOutput
  testResults := some (result.testResults.map .ofResult)

/-- What the page reads of a status. -/
def Data.ofStatus (v : Verdict) : Data := { verdict := some (verdictToString v) }

theorem shows_status (v : Verdict) : Shows (.ofStatus v) := by
  refine shows_of_plain rfl ?_ ?_
  · intro language hlanguage
    cases hlanguage
  · intro tests htests
    cases htests

end Web

/-- **The page can read** what it is answered with 200. -/
theorem Answered.data {cfg : Config} {t : List (Wire × Answer)} {id : Bytes} {response : Response}
    (h : Answered cfg t id response) (h200 : response.status = 200) :
    ∃ j data, cfg.format.parseText response.content = .ok j ∧ Web.Data.ofJson j = some data := by
  cases h with
  | refused herror =>
    simp only [submissionErrors, List.mem_cons, List.not_mem_nil, or_false] at herror
    rcases herror with rfl | rfl | rfl <;> cases h200
  | @result reply result content hmem hnil hread hdump =>
    exact ⟨_, _, cfg.format.parseText_dumpText (plain_submissionResultJson result) hdump,
      Web.ofJson_result result⟩
  | @status reply content hmem hnil hdump =>
    exact ⟨_, _, cfg.format.parseText_dumpText (plain_statusJson id _) hdump,
      Web.ofJson_status id _⟩

namespace System

variable {cfg : Config} {s s' : Sys cfg} {as : List Action}

theorem Evaluated.plain {id : Bytes} {m : Machine} {job : SubmissionJob}
    {result : SubmissionResult} (h : Evaluated as s id m job result) :
    Markup.isPlain result.language = true := by
  obtain ⟨r, k, authorization, body, username, -, -, haccept⟩ := h.submitted
  obtain ⟨-, -, hsupported, -⟩ := ApiServer.acceptSubmission_ok haccept
  rw [(evaluateSubmission_ok h.evaluated).1.language]
  rcases isSupportedLanguage_iff.mp hsupported with heq | heq | heq <;>
  · rw [heq]
    decide

theorem Evaluated.shows {id : Bytes} {m : Machine} {job : SubmissionJob}
    {result : SubmissionResult} (h : Evaluated as s id m job result) :
    Web.Shows (Web.Data.ofResult result) := by
  refine Web.shows_of_plain rfl ?_ ?_
  · intro language hlanguage
    cases hlanguage
    exact h.plain
  · intro tests htests tc htc
    cases htests
    obtain ⟨tc', -, rfl⟩ := List.mem_map.mp htc
    exact Web.isPlain_verdict tc'.verdict

/-- **The page shows what is meant.**  Whatever fails, and whatever the compiler and the programs
print: when `GET /submissions/:id` answers with 200, and Redis has not refused a command of this
request, the page reads it, and what `renderResult` writes into it are the elements that are
meant, with every output in them as text. -/
theorem page_shows (hrun : Reaches cfg as s) {r : Nat} {h : Handling cfg}
    (hr : s.requests r = some h) {authorization : Option Bytes} {id : Bytes}
    (hrequest : h.request = .submission authorization id) {response : Response}
    (hrest : h.task.rest = .pure response) (h200 : response.status = 200)
    (hunrefused : Unrefused as (.handler r)) :
    ∃ j data, cfg.format.parseText response.content = .ok j ∧ Web.Data.ofJson j = some data ∧
      Web.Shows data := by
  have hpath := h.path
  rw [hrequest, hrest] at hpath
  cases getSubmission_answered hpath with
  | refused herror =>
    simp only [submissionErrors, List.mem_cons, List.not_mem_nil, or_false] at herror
    rcases herror with rfl | rfl | rfl <;> cases h200
  | @result reply result content hmem hnil hread hdump =>
    obtain ⟨m, job, result', hevaluated, hjson⟩ := result_of_told hrun hr hunrefused hmem hnil
    rw [resultFromJson_toJson hjson] at hread
    cases hread
    exact ⟨_, _, cfg.format.parseText_dumpText (plain_submissionResultJson result) hdump,
      Web.ofJson_result result, hevaluated.shows⟩
  | @status reply content hmem hnil hdump =>
    exact ⟨_, _, cfg.format.parseText_dumpText (plain_statusJson id _) hdump,
      Web.ofJson_status id _, Web.shows_status _⟩

/-- Ann asks for her submission. -/
theorem page_shows_ann : ∃ as s h response, Reaches textConfig as s ∧
    s.requests 2 = some h ∧ h.task.rest = .pure response ∧
    ∃ j data, textConfig.format.parseText response.content = .ok j ∧
      Web.Data.ofJson j = some data ∧ Web.Shows data := by
  obtain ⟨h₀, h₁, response, henv₀, henv₁, hrequest, hrest, h202, hrun⟩ := ann_in_order
  have hresult : (workerServed textConfig (announced h₀ h₁) 0 zeroJob oneResult oneStored).store
      (resultKey (zeros 32).text) = some ⟨.str oneStored, some (0 + 86400 * 1000)⟩ := rfl
  obtain ⟨s, k, ⟨as, hserved, hasked⟩, -, -, -, -, hk, -, hanswers⟩ :=
    @answered_alone _ (workerServed textConfig (announced h₀ h₁) 0 zeroJob oneResult oneStored) 2
      zeroSurroundings annHeader "ann" _ _ rfl rfl (annHeader_auth rfl (Nat.zero_le _))
      (zeros 32).validUtf8 (known_oneResult hresult (Nat.zero_le _))
  obtain ⟨h, authorization, response', hr, hrequest', hrest', hsaid⟩ := hanswers
  have hreaches : Reaches textConfig (inOrder ++ as) s := run_append_iff.mpr ⟨_, hrun, hasked⟩
  refine ⟨_, s, h, response', hreaches, hr, hrest',
    page_shows hreaches hr hrequest' hrest' hsaid.1 ?_⟩
  intro msg hmem
  rcases List.mem_append.mp hmem with hmem | hmem
  · cases (faultFree_inOrder _ hmem).served
  · cases hserved _ hmem

end System

end Ocpe
