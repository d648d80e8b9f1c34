/-!
# StrongLL.Event

What the library reports while it works: a level and a line of text. Events are computed from the
values they report on, so nothing else depends on whether anyone reads them.
-/

namespace StrongLL

inductive Level where
  | info
  | debug
  | trace
deriving DecidableEq, Repr

namespace Level

def label : Level → String
  | info => "INFO"
  | debug => "DEBUG"
  | trace => "TRACE"

/-- How often verbosity must be asked for to see the level. -/
def rank : Level → Nat
  | info => 2
  | debug => 3
  | trace => 4

end Level

structure Event where
  level : Level
  text : String
deriving DecidableEq, Repr

end StrongLL
