import Ocpe.Lib.Run
import Ocpe.System.Sends

/-!
# The services together

One Redis, any number of API processes, each with one client that all its handlers
share, any number of requests, and a pool of workers, each with a client of its own.
A step is one operation of one party, atomic at the server, or a local move of a
worker.  The scheduler, the network, the passage of time and crashes are the
actions of a run.

`log` is a history variable: what went over the wire, in order, and which
iterations ended and how.  No step looks at it.
-/

namespace Ocpe.System

open Lib Redis

inductive Party
  | handler (r : Nat)
  | worker (w : Nat)
  deriving DecidableEq, Repr

/-- The owner of a connection. -/
inductive Client
  | api (n : Nat)
  | worker (w : Nat)
  deriving DecidableEq, Repr

inductive Event
  /-- an operation, the reply the server gave if it executed a command, and the answer
  that arrived -/
  | wire (who : Party) (now : Nat) (op : Wire) (executed : Option Reply) (answer : Answer)
  /-- an iteration of the worker ended -/
  | finished (w : Nat)
  | crashed (w : Nat)
  /-- an exception ended the worker process -/
  | terminated
  deriving DecidableEq, Repr

/-- A request that an API process handles. -/
structure Handling (cfg : Config) where
  api : Nat
  request : Request
  env : Surroundings
  task : Task Wire Answer Exn Response
  begun : task.start = ApiServer.handle cfg env request

def Handling.begin (cfg : Config) (api : Nat) (request : Request) (env : Surroundings) :
    Handling cfg := ⟨api, request, env, .begin _, rfl⟩

theorem Handling.path {cfg : Config} (h : Handling cfg) :
    (ApiServer.handle cfg h.env h.request).Path h.task.trace h.task.rest := by
  rw [← h.begun]
  exact h.task.path

def Handling.feed {cfg : Config} (h : Handling cfg) (a : Answer) : Handling cfg :=
  { h with task := h.task.feed a, begun := (Task.feed_start a).trans h.begun }

/-- Where a worker thread stands in `worker_loop`. -/
inductive Worker (cfg : Config)
  /-- at `redis.connect()` -/
  | connecting
  /-- at the test of `running_` after a failed connect -/
  | retrying
  /-- at the test of `running_` of the loop -/
  | ready
  /-- in the loop body -/
  | busy (m : Machine) (task : Task Wire Answer Exn Unit)
      (begun : task.start = WorkerPool.iteration cfg m)
  /-- returned -/
  | left
  /-- ended with its process -/
  | crashed

namespace Worker

variable {cfg : Config}

def op? : Worker cfg → Option Wire
  | .connecting => some .connect
  | .busy _ task _ => task.op?
  | _ => none

def feed : Worker cfg → Answer → Worker cfg
  | .connecting, .connected true => .ready
  | .connecting, _ => .retrying
  | .busy m task begun, a => .busy m (task.feed a) ((Task.feed_start a).trans begun)
  | w, _ => w

def trace : Worker cfg → List (Wire × Answer)
  | .busy _ task _ => task.trace
  | _ => []

/-- A test of `running_`; a new iteration meets the machine `m`. -/
def test (running : Bool) (m : Machine) : Worker cfg → Option (Worker cfg)
  | .retrying => some (if running then .connecting else .left)
  | .ready =>
    some (if running then .busy m (.begin (WorkerPool.iteration cfg m)) rfl else .left)
  | _ => none

end Worker

structure Sys (cfg : Config) where
  now : Nat := 0
  store : Store := fun _ => none
  running : Bool := true
  ctx : Client → Ctx := fun c => match c with | .api _ => .good | .worker _ => .null
  requests : Nat → Option (Handling cfg) := fun _ => none
  workers : Nat → Worker cfg := fun _ => .connecting
  log : List Event := []

inductive Action
  | tick (ms : Nat)
  | stop
  | request (r api : Nat) (request : Request) (env : Surroundings)
  | perform (who : Party) (net : Net)
  | test (w : Nat) (m : Machine)
  | next (w : Nat)
  | terminate (w : Nat)
  | crash (w : Nat)

namespace Sys

variable {cfg : Config} (s : Sys cfg)

/-- The operation a party is at. -/
def op? : Party → Option Wire
  | .handler r => (s.requests r).bind fun h => h.task.op?
  | .worker w => (s.workers w).op?

def client : Party → Client
  | .handler r => .api (((s.requests r).map (·.api)).getD 0)
  | .worker w => .worker w

/-- A party gets the answer to its operation. -/
def feed (who : Party) (a : Answer) : Sys cfg :=
  match who with
  | .handler r =>
    { s with requests := Function.update s.requests r ((s.requests r).map fun h => h.feed a) }
  | .worker w => { s with workers := Function.update s.workers w ((s.workers w).feed a) }

def executed (now : Nat) (store : Store) : Ctx → Wire → Net → Option Reply
  | .good, .command c, .served => some (exec now store c).2
  | .good, .command c, .unanswered _ => some (exec now store c).2
  | _, _, _ => none

/-- A party's operation `op` meets the fate `net`, and the party takes the answer.  For a handler
these are three steps on the connection that it shares: `System/Turns.lean`. -/
def perform (who : Party) (op : Wire) (net : Net) : Sys cfg :=
  let ctx := s.ctx (s.client who)
  let (store, ctx', answer) := exchange s.now s.store ctx op net
  { s.feed who answer with
    store := store
    ctx := Function.update s.ctx (s.client who) ctx'
    log := s.log ++ [.wire who s.now op (executed s.now s.store ctx op net) answer] }

end Sys

/-- The iteration of a worker has returned, or thrown. -/
def Worker.ended {cfg : Config} : Worker cfg → Option (Except Exn Unit)
  | .busy _ task _ =>
    match task.rest with
    | .pure _ => some (.ok ())
    | .throw e => some (.error e)
    | .op _ _ => none
  | _ => none

def step (cfg : Config) (s : Sys cfg) : Action → Option (Sys cfg)
  | .tick ms => some { s with now := s.now + ms }
  | .stop => some { s with running := false }
  | .request r api request env =>
    if (s.requests r).isNone then
      some { s with
        requests := Function.update s.requests r (some (.begin cfg api request env)) }
    else none
  | .perform who net => (s.op? who).map fun op => s.perform who op net
  | .test w m =>
    ((s.workers w).test s.running m).map fun worker =>
      { s with workers := Function.update s.workers w worker }
  | .next w =>
    if (s.workers w).ended = some (.ok ()) then
      some { s with
        workers := Function.update s.workers w .ready
        log := s.log ++ [.finished w] }
    else none
  | .terminate w =>
    match (s.workers w).ended with
    | some (.error _) => some { s with workers := fun _ => .crashed, log := s.log ++ [.terminated] }
    | _ => none
  | .crash w =>
    some { s with
      workers := Function.update s.workers w .crashed
      log := s.log ++ [.crashed w] }

end Ocpe.System
