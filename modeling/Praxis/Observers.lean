import Praxis.Orchestrator

/-!
# Observers with a state of their own

An orchestrator acts on an environment; with an observer it acts on the environment and on the
observer's state, side by side.
-/

namespace Praxis

variable {W U E F : Type}

/-- A sink that acts on the second part of an environment. -/
def EventSink.above (sink : EventSink F) : EventSink (E × F) where
  on_event := fun e env =>
    let seen := sink.on_event e env.2
    (seen.1, env.1, seen.2)

/-- A sink that acts on the first part. -/
def EventSink.beside (sink : EventSink E) : EventSink (E × F) where
  on_event := fun e env =>
    let done := sink.on_event e env.1
    (done.1, done.2, env.2)

def Provider.beside (provider : Provider E) : Provider (E × F) where
  complete := fun context env =>
    let done := provider.complete context env.1
    (done.1, done.2, env.2)

def RetryingProvider.beside (self : RetryingProvider E) : RetryingProvider (E × F) where
  inner := self.inner.map Provider.beside
  policy := self.policy
  attempts := self.attempts
  retries := self.retries
  slept := self.slept

def Replay.beside (replay : Replay E) : Replay (E × F) where
  events := replay.events
  edges := replay.edges
  sinks := replay.sinks.map EventSink.beside
  last_seq := replay.last_seq

def Orchestrator.beside (self : Orchestrator W U E) : Orchestrator W U (E × F) where
  options := self.options
  retrying := self.retrying.map RetryingProvider.beside
  router := self.router
  registry := self.registry
  executor := self.executor
  context := self.context
  cache := self.cache
  cascade := self.cascade
  replay := self.replay.beside
  telemetry := self.telemetry
  side_effects := self.side_effects
  tool_ctx := self.tool_ctx

/-- The system with an observer attached to its orchestrator. -/
def Sys.observed (sink : EventSink F) (s : Sys W U E) (f : F) : Sys W U (E × F) where
  self := s.self.beside.attach_observer sink.above
  world := s.world
  env := (s.env, f)
  ledger := s.ledger

end Praxis
