/-!
# Lifecycle of a request

A request is created, brought into wire form and sent. It ends acknowledged, timed
out or failed, unless the primary asks for a remap, which starts it afresh.
-/

namespace Enlistment

/-- Where a request stands. -/
inductive RequestState where
  | created
  | marshalled
  | sent
  | acked
  | retryTopology
  | timedOut
  | failed
  deriving DecidableEq, Repr

namespace RequestState

/-- All states. -/
def all : List RequestState :=
  [created, marshalled, sent, acked, retryTopology, timedOut, failed]

/-- Whether nothing more can happen to the request. -/
def isTerminal : RequestState → Bool
  | acked | timedOut | failed => true
  | _ => false

/-- The steps a request can take. -/
def canTransition : RequestState → RequestState → Bool
  | created, marshalled | marshalled, sent => true
  | sent, acked | sent, retryTopology | sent, timedOut | sent, failed => true
  | retryTopology, created => true
  | created, failed | marshalled, failed => true
  | _, _ => false

/-- The name of a state. -/
def name : RequestState → String
  | created => "Created"
  | marshalled => "Marshalled"
  | sent => "Sent"
  | acked => "Acked"
  | retryTopology => "RetryTopology"
  | timedOut => "TimedOut"
  | failed => "Failed"

end RequestState

end Enlistment
