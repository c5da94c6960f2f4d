import Ocpe.Lib.Markup
import Ocpe.Web.RenderResult

/-!
# The HTML of a result

`renderResult` of `web/app.js` writes HTML into two areas of the page.  What the compiler and the
judged program have written goes through `escapeHtml`; the verdicts, the language and the numbers
do not.

* `summaryHtml`, `detailsHtml`: the templates, around the holes.
* `summaryTree`, `detailsTree`: what the page is meant to show.
* `read_summaryHtml`, `read_detailsHtml`: the page shows that, whatever was printed, if the
  verdicts and the language stand for themselves.
-/

namespace Ocpe.Web

open Lib Markup

/-- `d.textContent = s; return d.innerHTML` -/
def escapeHtml (s : Bytes) : Bytes := escape s

/-! ### The templates -/

def statsHtml (stats : Stats) : Bytes :=
  bytes "<div class=\"stats\">\n      <div class=\"stat-box\"><div class=\"value\">" ++
  decimal stats.passed ++ bytes "/" ++ (stats.total.map decimal).getD "undefined" ++
  bytes "</div><div class=\"label\">Passed</div></div>\n" ++
  bytes "      <div class=\"stat-box\"><div class=\"value\">" ++ decimal stats.maxTimeMs ++
  bytes "ms</div><div class=\"label\">Max Time</div></div>\n" ++
  bytes "      <div class=\"stat-box\"><div class=\"value\">" ++ decimal stats.maxMemoryKb ++
  bytes "KB</div><div class=\"label\">Peak Memory</div></div>\n    </div>"

/-- The style of the compiler's output. -/
def outputStyle : Bytes :=
  "background:var(--bg);padding:1rem;border-radius:6px;font-size:0.8rem;overflow:auto"

/-- `summary.innerHTML` -/
def summaryHtml (summary : Summary) : Bytes :=
  bytes "<p class=\"verdict " ++ summary.verdict ++ bytes "\">" ++ summary.verdict ++
  bytes "</p>" ++
  (match summary.language with
    | none => []
    | some language =>
      bytes "<p style=\"color:var(--muted);font-size:0.875rem\">Language: " ++ language ++
        bytes "</p>") ++
  (match summary.stats with
    | none => []
    | some stats => statsHtml stats) ++
  (match summary.compileOutput with
    | none => []
    | some output =>
      bytes "<pre style=\"" ++ outputStyle ++ bytes "\">" ++ escapeHtml output ++ bytes "</pre>")

def testCaseHtml (line : Line) : Bytes :=
  bytes "\n      <div class=\"test-case\">\n        <div class=\"tc-header\">\n" ++
  bytes "          <span>Test #" ++ decimal line.number ++
  bytes "</span>\n          <span class=\"verdict " ++ line.verdict ++
  bytes "\" style=\"font-size:0.85rem\">" ++ line.verdict ++
  bytes "</span>\n        </div>\n        <div>Time: " ++ decimal line.timeMs ++
  bytes "ms " ++ [0xC2, 0xB7] ++ bytes " Memory: " ++ decimal line.memoryKb ++
  bytes "KB</div>\n        " ++
  (match line.message with
    | none => []
    | some message =>
      bytes "<div style=\"margin-top:0.5rem;color:var(--muted)\">" ++ escapeHtml message ++
        bytes "</div>") ++
  bytes "\n      </div>\n    "

/-- `details.innerHTML` -/
def detailsHtml : Option Details → Bytes
  | none => []
  | some details =>
    bytes "<h3>Test Cases" ++
    (match details.showing15Of with
      | none => []
      | some n => bytes " (showing 15 of " ++ decimal n ++ bytes ")") ++
    bytes "</h3>" ++ (details.lines.map testCaseHtml).flatten

/-! ### What is meant -/

/-- The elements of the templates.  A paragraph would be closed by the next block, and a line
feed right behind `<pre>` is not shown. -/
def content : Content where
  fits opened name :=
    name == bytes "span" ||
      ([bytes "div", bytes "p", bytes "pre", bytes "h3"].contains name &&
        !opened.contains (bytes "p") && !opened.contains (bytes "h3"))
  skips name := name == bytes "pre"

def box (value : Bytes) (label : String) : Dom :=
  .element "div" [("class", "stat-box")]
    [.element "div" [("class", "value")] [.text value],
      .element "div" [("class", "label")] [.text label]]

def statsTree (stats : Stats) : Dom :=
  .element "div" [("class", "stats")]
    [.text "\n      ",
      box (decimal stats.passed ++ bytes "/" ++ (stats.total.map decimal).getD "undefined")
        "Passed",
      .text "\n      ", box (decimal stats.maxTimeMs ++ bytes "ms") "Max Time",
      .text "\n      ", box (decimal stats.maxMemoryKb ++ bytes "KB") "Peak Memory",
      .text "\n    "]

def summaryTree (summary : Summary) : List Dom :=
  .element "p" [("class", bytes "verdict " ++ summary.verdict)] (textNode summary.verdict) ::
    ((summary.language.toList.map fun language =>
        .element "p" [("style", "color:var(--muted);font-size:0.875rem")]
          [.text (bytes "Language: " ++ language)]) ++
      summary.stats.toList.map statsTree ++
      summary.compileOutput.toList.map fun output =>
        .element "pre" [("style", outputStyle)] (textNode output))

def testCaseTree (line : Line) : Dom :=
  .element "div" [("class", "test-case")]
    ([.text "\n        ",
      .element "div" [("class", "tc-header")]
        [.text "\n          ",
          .element "span" [] [.text (bytes "Test #" ++ decimal line.number)],
          .text "\n          ",
          .element "span" [("class", bytes "verdict " ++ line.verdict),
              ("style", "font-size:0.85rem")] (textNode line.verdict),
          .text "\n        "],
      .text "\n        ",
      .element "div" [] [.text (bytes "Time: " ++ decimal line.timeMs ++ bytes "ms " ++
        [0xC2, 0xB7] ++ bytes " Memory: " ++ decimal line.memoryKb ++ bytes "KB")]] ++
      match line.message with
        | none => [.text "\n        \n      "]
        | some message =>
          [.text "\n        ",
            .element "div" [("style", "margin-top:0.5rem;color:var(--muted)")] (textNode message),
            .text "\n      "])

/-- Behind a test case. -/
def linesTail : List Line → List Dom
  | [] => [.text "\n    "]
  | line :: lines => .text "\n    \n      " :: testCaseTree line :: linesTail lines

def linesTree : List Line → List Dom
  | [] => []
  | line :: lines => .text "\n      " :: testCaseTree line :: linesTail lines

def detailsTree : Option Details → List Dom
  | none => []
  | some details =>
    .element "h3" [] [.text (bytes "Test Cases" ++
        match details.showing15Of with
          | none => []
          | some n => bytes " (showing 15 of " ++ decimal n ++ bytes ")")] ::
      linesTree details.lines

/-! ### The templates write what is meant -/

theorem isPlain_total (total : Option Int) :
    isPlain ((total.map decimal).getD "undefined") = true := by
  cases total with
  | none => decide
  | some n => exact isPlain_decimal n

set_option maxRecDepth 4000 in
theorem render_statsTree (stats : Stats) : (statsTree stats).render = statsHtml stats := by
  have hone : escape (decimal stats.passed ++ bytes "/" ++
      (stats.total.map decimal).getD "undefined") = decimal stats.passed ++ bytes "/" ++
        (stats.total.map decimal).getD "undefined" := by
    apply escape_plain
    simp only [isPlain_append, isPlain_decimal, isPlain_total, Bool.and_eq_true, and_true, true_and]
    decide
  have htwo : ∀ n : Int, ∀ t : Bytes, isPlain t = true →
      escape (decimal n ++ t) = decimal n ++ t := by
    intro n t ht
    apply escape_plain
    rw [isPlain_append, isPlain_decimal, ht]
    rfl
  simp only [statsTree, box, Dom.render, renderAll, hone, htwo _ "ms" (by decide),
    htwo _ "KB" (by decide)]
  simp only [startTag, endTag, writeAttribute, List.flatMap_cons, List.flatMap_nil,
    List.append_assoc, List.append_nil, statsHtml]
  rfl

/-- The verdict and the language stand for themselves. -/
structure PlainSummary (summary : Summary) : Prop where
  verdict : isPlain summary.verdict = true
  language : ∀ language ∈ summary.language, isPlain language = true

set_option maxRecDepth 4000 in
theorem renderAll_summaryTree {summary : Summary} (h : PlainSummary summary) :
    renderAll (summaryTree summary) = summaryHtml summary := by
  have hlanguage : renderAll (summary.language.toList.map fun language =>
      .element "p" [("style", "color:var(--muted);font-size:0.875rem")]
        [.text (bytes "Language: " ++ language)]) =
      match summary.language with
        | none => []
        | some language => bytes "<p style=\"color:var(--muted);font-size:0.875rem\">Language: " ++
            language ++ bytes "</p>" := by
    cases hl : summary.language with
    | none => rfl
    | some language =>
      have hplain : escape (bytes "Language: " ++ language) = bytes "Language: " ++ language := by
        apply escape_plain
        rw [isPlain_append, h.language language hl]
        decide
      show renderAll [_] = _
      simp only [renderAll, Dom.render, hplain]
      simp only [startTag, endTag, writeAttribute, List.flatMap_cons, List.flatMap_nil,
        List.append_assoc, List.append_nil]
      rfl
  have hstats : renderAll (summary.stats.toList.map statsTree) =
      match summary.stats with
        | none => []
        | some stats => statsHtml stats := by
    cases summary.stats with
    | none => rfl
    | some stats =>
      show renderAll [_] = _
      rw [renderAll, renderAll, List.append_nil, render_statsTree]
  have houtput : renderAll (summary.compileOutput.toList.map fun output =>
      .element "pre" [("style", outputStyle)] (textNode output)) =
      match summary.compileOutput with
        | none => []
        | some output =>
          bytes "<pre style=\"" ++ outputStyle ++ bytes "\">" ++ escapeHtml output ++
            bytes "</pre>" := by
    cases summary.compileOutput with
    | none => rfl
    | some output =>
      show renderAll [_] = _
      simp only [renderAll, Dom.render, renderAll_textNode]
      simp only [startTag, endTag, writeAttribute, List.flatMap_cons, List.flatMap_nil,
        List.append_assoc, List.append_nil, escapeHtml]
      rfl
  rw [summaryTree, renderAll, renderAll_append, renderAll_append, hlanguage, hstats, houtput,
    Dom.render, renderAll_textNode, escape_plain h.verdict, summaryHtml]
  simp only [startTag, endTag, writeAttribute, List.flatMap_cons, List.flatMap_nil,
    List.append_assoc, List.append_nil]
  rfl

theorem render_times (line : Line) :
    escape (bytes "Time: " ++ decimal line.timeMs ++ bytes "ms " ++ [0xC2, 0xB7] ++
      bytes " Memory: " ++ decimal line.memoryKb ++ bytes "KB") =
    bytes "Time: " ++ decimal line.timeMs ++ bytes "ms " ++ [0xC2, 0xB7] ++
      bytes " Memory: " ++ decimal line.memoryKb ++ bytes "KB" := by
  have hfront : isPlain (bytes "Time: " ++ decimal line.timeMs ++ bytes "ms ") = true := by
    rw [isPlain_append, isPlain_append, isPlain_decimal]
    decide
  have hback : isPlain ([183] ++ (bytes " Memory: " ++ decimal line.memoryKb ++ bytes "KB")) =
      true := by
    rw [isPlain_append, isPlain_append, isPlain_append, isPlain_decimal]
    decide
  have hdot : ∀ s, escape (194 :: ([183] ++ s)) = 194 :: escape ([183] ++ s) := fun s => rfl
  have hall := escape_plain_append hfront
    (194 :: ([183] ++ (bytes " Memory: " ++ decimal line.memoryKb ++ bytes "KB")))
  rw [hdot, escape_plain hback] at hall
  simpa only [List.append_assoc, List.cons_append, List.nil_append] using hall

set_option maxRecDepth 4000 in
theorem render_testCaseTree {line : Line} (hverdict : isPlain line.verdict = true) :
    bytes "\n      " ++ (testCaseTree line).render ++ bytes "\n    " = testCaseHtml line := by
  have hnumber : escape (bytes "Test #" ++ decimal line.number) =
      bytes "Test #" ++ decimal line.number := by
    apply escape_plain
    rw [isPlain_append, isPlain_decimal]
    decide
  cases hmessage : line.message with
  | none =>
    simp only [testCaseTree, testCaseHtml, hmessage, renderAll_append, renderAll, Dom.render,
      renderAll_textNode, hnumber, render_times, escape_plain hverdict]
    simp only [startTag, endTag, writeAttribute, List.flatMap_cons, List.flatMap_nil,
      List.append_assoc, List.append_nil]
    rfl
  | some message =>
    simp only [testCaseTree, testCaseHtml, hmessage, renderAll_append, renderAll, Dom.render,
      renderAll_textNode, hnumber, render_times, escape_plain hverdict]
    simp only [startTag, endTag, writeAttribute, List.flatMap_cons, List.flatMap_nil,
      List.append_assoc, List.append_nil, escapeHtml]
    rfl

theorem renderAll_linesTree {lines : List Line}
    (h : ∀ line ∈ lines, isPlain line.verdict = true) :
    renderAll (linesTree lines) = (lines.map testCaseHtml).flatten := by
  have hfeed : escape (bytes "\n      ") = bytes "\n      " := rfl
  have hlast : escape (bytes "\n    ") = bytes "\n    " := rfl
  have hboth : escape (bytes "\n    \n      ") = bytes "\n    " ++ bytes "\n      " := rfl
  have htail : ∀ lines : List Line, (∀ line ∈ lines, isPlain line.verdict = true) →
      renderAll (linesTail lines) = bytes "\n    " ++ (lines.map testCaseHtml).flatten := by
    intro lines h
    induction lines with
    | nil =>
      rw [linesTail, renderAll, renderAll, Dom.render, hlast]
      rfl
    | cons line lines ih =>
      have hlines := ih fun line hmem => h line (List.mem_cons_of_mem _ hmem)
      rw [linesTail, renderAll, renderAll, hlines, Dom.render, hboth, List.map_cons,
        List.flatten_cons, ← render_testCaseTree (h line List.mem_cons_self)]
      simp only [List.append_assoc]
  cases lines with
  | nil => rfl
  | cons line lines =>
    have hlines := htail lines fun line hmem => h line (List.mem_cons_of_mem _ hmem)
    rw [linesTree, renderAll, renderAll, hlines, Dom.render, hfeed, List.map_cons,
      List.flatten_cons, ← render_testCaseTree (h line List.mem_cons_self)]
    simp only [List.append_assoc]

theorem renderAll_detailsTree {details : Option Details}
    (h : ∀ d ∈ details, ∀ line ∈ d.lines, isPlain line.verdict = true) :
    renderAll (detailsTree details) = detailsHtml details := by
  cases details with
  | none => rfl
  | some details =>
    have htitle : escape (bytes "Test Cases" ++
        match details.showing15Of with
          | none => []
          | some n => bytes " (showing 15 of " ++ decimal n ++ bytes ")") = bytes "Test Cases" ++
        match details.showing15Of with
          | none => []
          | some n => bytes " (showing 15 of " ++ decimal n ++ bytes ")" := by
      apply escape_plain
      cases details.showing15Of with
      | none => decide
      | some n =>
        rw [isPlain_append, isPlain_append, isPlain_append, isPlain_decimal]
        decide
    rw [detailsTree, renderAll, renderAll_linesTree (h details rfl), Dom.render, renderAll,
      renderAll, Dom.render, htitle, detailsHtml]
    simp only [startTag, endTag, List.flatMap_nil, List.append_assoc, List.append_nil]
    rfl

/-! ### The page shows what is meant -/

theorem fits_statsTree (stats : Stats) : (statsTree stats).Fits content [] := by
  simp +decide [statsTree, box, Dom.Fits, FitAll, Dom.IsText, content, IsAttributes]

theorem fits_summaryTree {summary : Summary} (h : PlainSummary summary) :
    FitAll content [] (summaryTree summary) := by
  have hvalue : isValue (bytes "verdict " ++ summary.verdict) = true := by
    apply isValue_of_isPlain
    rw [isPlain_append, h.verdict]
    decide
  apply fitAll_elements
  intro t ht
  simp only [summaryTree, List.mem_cons, List.mem_append, List.mem_map, Option.mem_toList] at ht
  rcases ht with rfl | ((⟨language, -, rfl⟩ | ⟨stats, -, rfl⟩) | ⟨output, -, rfl⟩)
  · exact ⟨⟨by decide, isAttributes_single (by decide) hvalue, by decide, fitAll_textNode _⟩, id⟩
  · refine ⟨⟨by decide, isAttributes_single (by decide) (by decide), by decide, ?_⟩, id⟩
    simp +decide [FitAll, Dom.Fits, Dom.IsText]
  · exact ⟨fits_statsTree stats, id⟩
  · exact ⟨⟨by decide, isAttributes_single (by decide) (by decide), by decide,
      fitAll_textNode _⟩, id⟩

theorem fits_testCaseTree {line : Line} (hverdict : isPlain line.verdict = true) :
    (testCaseTree line).Fits content [] := by
  have hvalue : isValue (bytes "verdict " ++ line.verdict) = true := by
    apply isValue_of_isPlain
    rw [isPlain_append, hverdict]
    decide
  cases hmessage : line.message with
  | none =>
    simp +decide [testCaseTree, hmessage, Dom.Fits, FitAll, Dom.IsText, content, IsAttributes,
      hvalue, fitAll_textNode]
  | some message =>
    simp +decide [testCaseTree, hmessage, Dom.Fits, FitAll, Dom.IsText, content, IsAttributes,
      hvalue, fitAll_textNode]

theorem fits_linesTree {lines : List Line} (h : ∀ line ∈ lines, isPlain line.verdict = true) :
    FitAll content [] (linesTree lines) := by
  have hend : bytes "\n    " ≠ [] := by decide
  have hbetween : bytes "\n    \n      " ≠ [] := by decide
  have hfront : bytes "\n      " ≠ [] := by decide
  have htail : ∀ lines : List Line, (∀ line ∈ lines, isPlain line.verdict = true) →
      FitAll content [] (linesTail lines) := by
    intro lines h
    induction lines with
    | nil => exact fitAll_text hend nofun trivial
    | cons line lines ih =>
      have hline := fits_testCaseTree (h line List.mem_cons_self)
      have hlines := ih fun line hmem => h line (List.mem_cons_of_mem _ hmem)
      refine fitAll_text hbetween ?_ (fitAll_element hline id hlines)
      rintro t ⟨⟩
      exact id
  cases lines with
  | nil => trivial
  | cons line lines =>
    have hline := fits_testCaseTree (h line List.mem_cons_self)
    have hlines := htail lines fun line hmem => h line (List.mem_cons_of_mem _ hmem)
    refine fitAll_text hfront ?_ (fitAll_element hline id hlines)
    rintro t ⟨⟩
    exact id

theorem fits_detailsTree {details : Option Details}
    (h : ∀ d ∈ details, ∀ line ∈ d.lines, isPlain line.verdict = true) :
    FitAll content [] (detailsTree details) := by
  cases details with
  | none => trivial
  | some details =>
    refine fitAll_element ⟨by decide, by simp [IsAttributes], by decide, ?_⟩ id
      (fits_linesTree (h details rfl))
    exact fitAll_text (by simp +decide) nofun trivial

/-- **The summary.**  Whatever the compiler has printed, the page shows it as text. -/
theorem read_summaryHtml {summary : Summary} (h : PlainSummary summary) :
    read content (summaryHtml summary) =
      some (shownAll content false (summaryTree summary)) := by
  rw [← renderAll_summaryTree h]
  exact read_renderAll (fits_summaryTree h)

/-- **The test cases.**  Whatever the message of a test is, the page shows it as text. -/
theorem read_detailsHtml {details : Option Details}
    (h : ∀ d ∈ details, ∀ line ∈ d.lines, isPlain line.verdict = true) :
    read content (detailsHtml details) =
      some (shownAll content false (detailsTree details)) := by
  rw [← renderAll_detailsTree h]
  exact read_renderAll (fits_detailsTree h)

end Ocpe.Web
