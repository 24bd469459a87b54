import AtomicUpdate.Errno
import AtomicUpdate.Json.Value
import AtomicUpdate.Limits

/-! Facts: one structured record of every operation. A draft collects fields, where the last write
to a key wins; emitting it adds the envelope, where a field that is there already stays. A failure
is told by its number, its code and its message. -/
namespace AtomicUpdate
open Json (Value Fields)

inductive Stage
  | read
  | startWrite
  | finishWrite
  | failWrite
  | delete
  deriving DecidableEq, Repr

def Stage.event : Stage → String
  | .read => "read"
  | .startWrite => "start_write"
  | .finishWrite => "finish_write"
  | .failWrite => "fail_write"
  | .delete => "delete"

inductive Decision
  | success
  | failure
  deriving DecidableEq, Repr

def Decision.text : Decision → String
  | .success => "success"
  | .failure => "failure"

structure Fact where
  stage : Stage
  decision : Decision
  fields : Fields
  deriving Repr

namespace Fact

def subsystem (_ : Fact) : String := Limits.subsystem

def event (f : Fact) : String := f.stage.event

def schemaVersion : Int := 1

structure Failure where
  number : Int
  code : Int
  message : String
  deriving DecidableEq, Repr

def Failure.of (e : Errno) : Failure := ⟨e.number, e.code, e.message⟩

structure Draft where
  stage : Stage
  fields : Fields

namespace Draft

def start (stage : Stage) : Draft :=
  ⟨stage, Table.empty.set "stage" (.string stage.event)⟩

def field (d : Draft) (key : String) (v : Value) : Draft := { d with fields := d.fields.set key v }

def path (d : Draft) (p : String) : Draft := d.field "path" (.string p)

def failure (d : Draft) (f : Failure) : Draft :=
  ((d.field "errno" (.int f.number)).field "error_code" (.int f.code)).field
    "error_message" (.string f.message)

def error (d : Draft) (e : Errno) : Draft := d.failure (.of e)

def emit (d : Draft) (decision : Decision) (time : String) : Fact where
  stage := d.stage
  decision := decision
  fields := (((d.fields.setDefault "schema_version" (.int schemaVersion)).setDefault
    "ts" (.string time)).setDefault "path" (.string "")).setDefault
    "decision" (.string decision.text)

end Draft
end Fact
end AtomicUpdate
