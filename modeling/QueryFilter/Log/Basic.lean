/-!
A leveled log. It is off until it is started; then it keeps the lines at or
above its level, oldest first.
-/

namespace QueryFilter

namespace Log

inductive Level where
  | trace | debug | info | warn | error | critical
  deriving DecidableEq, Repr

namespace Level

def rank : Level → Nat
  | .trace => 0
  | .debug => 1
  | .info => 2
  | .warn => 3
  | .error => 4
  | .critical => 5

def text : Level → String
  | .trace => "trace"
  | .debug => "debug"
  | .info => "info"
  | .warn => "warn"
  | .error => "error"
  | .critical => "critical"

/-- Upper and lower case are the same, and an unknown name is `info`. -/
def ofText (text : String) : Level :=
  match text.toLower with
  | "trace" => .trace
  | "debug" => .debug
  | "warn" => .warn
  | "warning" => .warn
  | "error" => .error
  | "err" => .error
  | "critical" => .critical
  | "crit" => .critical
  | _ => .info

end Level

structure Line where
  level : Level
  text : String
  deriving DecidableEq, Repr

end Log

structure Log where
  threshold : Option Log.Level
  lines : List Log.Line
  deriving Repr

namespace Log

def off : Log := ⟨none, []⟩

def enabled (log : Log) (level : Level) : Bool := log.threshold.any (·.rank ≤ level.rank)

def write (log : Log) (level : Level) (text : String) : Log :=
  if log.enabled level then { log with lines := log.lines ++ [⟨level, text⟩] } else log

def start (log : Log) (level : Level) : Log :=
  { log with threshold := some level }.write .debug
    ("Logger initialized (level=" ++ level.text ++ ")")

def stop (log : Log) : Log := { log with threshold := none }

/-- Starts a log that is off. -/
def ensure (log : Log) : Log := if log.threshold.isSome then log else log.start .info

def setLevel (log : Log) (level : Level) : Log :=
  if log.threshold.isSome then { log with threshold := some level } else log.start level

@[simp] theorem write_off (level : Level) (text : String) : off.write level text = off := rfl

theorem threshold_write (log : Log) (level : Level) (text : String) :
    (log.write level text).threshold = log.threshold := by
  unfold write
  split <;> rfl

end Log

end QueryFilter
