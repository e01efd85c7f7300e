/-!
# Log lines

What the program tells about its own work, in order.
-/
namespace Offside

inductive Level
  | debug
  | info
  | warning
  | error
deriving DecidableEq, Repr

def Level.name : Level → String
  | debug => "DEBUG"
  | info => "INFO"
  | warning => "WARNING"
  | error => "ERROR"

structure Note where
  level : Level
  text : String
deriving DecidableEq, Repr

end Offside
