/-! How much attention an event asks for. -/
namespace Criteria

inductive Level where
  | trace | debug | warn
deriving DecidableEq, Repr

def Level.name : Level → String
  | trace => "TRACE"
  | debug => "DEBUG"
  | warn => "WARN"

end Criteria
