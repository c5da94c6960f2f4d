import Ocpe.Shared.Confinement
import Ocpe.Worker.Languages
import Ocpe.Worker.Advertised
import Ocpe.Worker.OverallVerdict
import Ocpe.Worker.Stored
import Ocpe.Worker.Tally
import Ocpe.Sandbox.Comparing
import Ocpe.Sandbox.Monitor
import Ocpe.Sandbox.Returning
import Ocpe.Sandbox.Limits
import Ocpe.Sandbox.Survivors
import Ocpe.Sandbox.Output
import Ocpe.Sandbox.CompileProcess
import Ocpe.Sandbox.Interpreter
import Ocpe.Sandbox.Input
import Ocpe.Sandbox.Descriptors
import Ocpe.Sandbox.Leaks
import Ocpe.System.Delivery
import Ocpe.System.FaultFree
import Ocpe.System.Status
import Ocpe.System.Polling
import Ocpe.System.Reconnect
import Ocpe.System.Accounts
import Ocpe.System.Listing
import Ocpe.System.Identities
import Ocpe.System.Registration
import Ocpe.System.Submitting
import Ocpe.System.Threads
import Ocpe.System.Turns
import Ocpe.System.Reported
import Ocpe.System.Bodies
import Ocpe.System.UserSubmissions
import Ocpe.Web.App
import Ocpe.Shared.TypedStore
import Ocpe.System.Progress
import Ocpe.System.QueuePosition
import Ocpe.System.Schema
import Ocpe.System.Shutdown
import Ocpe.Worker.SideBySide
import Ocpe.System.Passwords
import Ocpe.System.Verdicts
import Ocpe.Lib.Markup
import Ocpe.System.Displayed
import Ocpe.System.Browser
import Ocpe.System.ProcessEnd
import Ocpe.Api.Problems
