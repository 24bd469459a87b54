import AtomicUpdate.Fact

/-! Everything that an operation lets others see while it runs, in the order it happens. A line for
people goes to the sink of the handle (`audit`) or, where that keeps none, on to the general log
(`auditLog`), which has the diagnostics as well (`log`). -/
namespace AtomicUpdate

inductive Level
  | error
  | warn
  deriving DecidableEq, Repr

def Level.text : Level → String
  | .error => "error"
  | .warn => "warn"

inductive Event
  | fact (fact : Fact)
  | audit (level : Level) (message : String)
  | auditLog (level : Level) (message : String)
  | log (level : Level) (message : String)
  | lockAcquire (timeout : Nat)
  | lockRelease
  deriving Repr

end AtomicUpdate
