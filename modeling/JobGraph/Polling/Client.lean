import JobGraph.Error
import JobGraph.Event.Basic
import JobGraph.Job.Basic

/-!
# Clients

Where job lists and events come from.  A client is a machine of its own: each answer may change its
state.  One gives prepared replies in order and remembers what it was asked.
-/

namespace JobGraph

/-- A source of job lists and events, with a state of type `Source`. -/
structure Client (Source : Type) where
  /-- The job list of a workflow. -/
  fetchJobs : Source → Option String → Except ClientError (List JobEntry) × Source
  /-- The events of a workflow after an id. -/
  fetchEvents : Source → Option String → Int → Except ClientError (List Event) × Source

/-- The address of a server without the slashes at its end. -/
def baseUrl (url : String) : String :=
  String.ofList (url.toList.reverse.dropWhile (· == '/')).reverse

/-- A question that a client was asked. -/
inductive Request where
  | jobs (workflow : Option String)
  | events (workflow : Option String) (after : Int)
  deriving DecidableEq, Repr

/-- Prepared replies, each list from the next one on, and the questions so far.  The last reply is
given again and again; where there is none, the reply is an empty list. -/
structure Script where
  jobReplies : List (Except ClientError (List JobEntry))
  eventReplies : List (Except ClientError (List Event))
  asked : List Request

namespace Script

/-- The reply that is due. -/
def due {α : Type} (replies : List (Except ClientError (List α))) : Except ClientError (List α) :=
  replies.head?.getD (.ok [])

/-- The replies left after one was given. -/
def left {α : Type} : List (Except ClientError (List α)) → List (Except ClientError (List α))
  | _ :: next :: rest => next :: rest
  | replies => replies

/-- The client that follows a script. -/
def client : Client Script where
  fetchJobs script workflow :=
    (due script.jobReplies,
      { script with
        jobReplies := left script.jobReplies, asked := script.asked ++ [.jobs workflow] })
  fetchEvents script workflow after :=
    (due script.eventReplies,
      { script with
        eventReplies := left script.eventReplies
        asked := script.asked ++ [.events workflow after] })

end Script

/-- The client of a server that cannot be reached. -/
def Client.unreachable (url reason : String) : Client Unit where
  fetchJobs _ _ := (.error (.request (baseUrl url ++ "/dag") reason), ())
  fetchEvents _ _ _ := (.error (.request (baseUrl url ++ "/events") reason), ())

end JobGraph
