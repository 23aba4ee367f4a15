/-! Messages about the work itself, for whoever follows it. -/
namespace StackBackend.Log

inductive Level where
  | trace
  | debug
  | info
  | warn
  deriving DecidableEq, Repr

def Level.label : Level → String
  | .trace => "TRACE"
  | .debug => "DEBUG"
  | .info => "INFO"
  | .warn => "WARN"

structure Entry where
  level : Level
  message : String
  deriving DecidableEq, Repr

def Entry.text (e : Entry) : String := e.level.label ++ " " ++ e.message

end StackBackend.Log
