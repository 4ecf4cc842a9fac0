/-!
# Stopping

The limits of a run and the reasons for which one ends.  Each limit can be absent.  A limit is
passed when it is exceeded, not when it is reached, so a limit of `n` iterations lets `n + 1` of
them complete.
-/

namespace Metaheuristics

/-- A span of time. -/
structure Duration where
  nanoseconds : Nat
deriving Repr, DecidableEq

namespace Duration

def ofSeconds (seconds : Nat) : Duration := ⟨seconds * 1000000000⟩

/-- The whole seconds of a span. -/
def seconds (d : Duration) : Nat := d.nanoseconds / 1000000000

/-- The span in seconds, whole seconds and the rest converted separately. -/
def toFloat (d : Duration) : Float :=
  Float.ofNat d.seconds + Float.ofNat (d.nanoseconds % 1000000000) / 1000000000.0

end Duration

/-- **The limits of a run.** -/
structure StopCriteria where
  /-- The most outer iterations. -/
  iterationLimit : Option Nat
  /-- The most iterations in a row without a new best. -/
  stagnationLimit : Option Nat
  timeLimit : Option Duration
deriving Repr, DecidableEq

namespace StopCriteria

/-- No limits. -/
def unlimited : StopCriteria := ⟨none, none, none⟩

/-- Half an hour, and no other limit. -/
def standard : StopCriteria := ⟨none, none, some (Duration.ofSeconds 1800)⟩

instance : Inhabited StopCriteria := ⟨standard⟩

def withIterationLimit (c : StopCriteria) (limit : Nat) : StopCriteria :=
  { c with iterationLimit := some limit }

def withStagnationLimit (c : StopCriteria) (limit : Nat) : StopCriteria :=
  { c with stagnationLimit := some limit }

def withTimeLimit (c : StopCriteria) (limit : Duration) : StopCriteria :=
  { c with timeLimit := some limit }

def withoutTimeLimit (c : StopCriteria) : StopCriteria :=
  { c with timeLimit := none }

end StopCriteria

/-- **Why a run ended.** -/
inductive StopReason where
  | iterationLimit
  | stagnationLimit
  | timeLimit
  /-- The temperature has come down to its floor. -/
  | temperatureFloor
  /-- The caller asked for it. -/
  | cancelled
  /-- The observer of the model asked for it. -/
  | observer
deriving Repr, DecidableEq

namespace StopReason

/-- All reasons. -/
def all : List StopReason :=
  [iterationLimit, stagnationLimit, timeLimit, temperatureFloor, cancelled, observer]

/-- The name of a reason. -/
def name : StopReason → String
  | iterationLimit => "IterationLimit"
  | stagnationLimit => "StagnationLimit"
  | timeLimit => "TimeLimit"
  | temperatureFloor => "TemperatureFloor"
  | cancelled => "Cancelled"
  | observer => "Observer"

/-- The words for a reason. -/
def text : StopReason → String
  | iterationLimit => "iteration limit reached"
  | stagnationLimit => "not-better iteration limit reached"
  | timeLimit => "time limit reached"
  | temperatureFloor => "temperature reached its floor"
  | cancelled => "cancelled"
  | observer => "stopped by observer"

end StopReason

end Metaheuristics
