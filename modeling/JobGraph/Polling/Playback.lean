import JobGraph.Polling.Poller
import JobGraph.Polling.Recording

/-!
# Playing recordings

A recording may end before its workflow is complete, and then polling would go on for ever.  So it
is polled only until a poll applies nothing and puts nothing off: the next one would do the same.
Every poll before that raises the id of the last event applied to one that was recorded.
-/

namespace JobGraph.Poller

variable {Source : Type}

/-- Whether a poll led nowhere: no event was applied since the state before it, and none was put
off. -/
def isStalled (before after : Poller Source) : PollOutcome → Bool
  | .polled report =>
      after.workflow.lastEvent == before.workflow.lastEvent && report.deferred == 0
  | .failed | .complete => false

/-- Polls once, and stops when that leads nowhere. -/
def pollOrStop (p : Poller Source) : Reaction (Poller Source) PollOutcome :=
  let polled := p.poll
  if p.isStalled polled.state polled.answer then
    let stopped := polled.state.stop
    ⟨stopped.state, polled.notices ++ stopped.notices, polled.answer⟩
  else polled

/-- Polls while running, and answers what became of each poll.  The fuel bounds their number. -/
def pollOut : Nat → Poller Source → Reaction (Poller Source) (List PollOutcome)
  | 0, p => ⟨p, [], []⟩
  | fuel + 1, p =>
      if !p.isRunning then ⟨p, [], []⟩
      else
        let polled := p.pollOrStop
        let others := pollOut fuel polled.state
        ⟨others.state, polled.notices ++ others.notices, polled.answer :: others.answer⟩

/-- Polls a recording to its end.  Every poll but the last one applies an event, so there are at
most as many of them as recorded events, and one more. -/
def playOut (p : Poller Recording) : Reaction (Poller Recording) (List PollOutcome) :=
  pollOut (p.source.events.length + 1) p

end JobGraph.Poller
