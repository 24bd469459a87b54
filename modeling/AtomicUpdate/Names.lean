import AtomicUpdate.Path
import AtomicUpdate.Template
import AtomicUpdate.Text.Escaped

/-! The names that a handle goes by: its base, the temp file or the template of one, and
whether a write cycle is open. -/
namespace AtomicUpdate

inductive Phase
  | committed
  | pending (temp : String)
  deriving DecidableEq, Repr

namespace Phase

def temp? : Phase → Option String
  | .committed => none
  | .pending temp => some temp

def inspect : Phase → String
  | .committed => "Committed"
  | .pending temp => "WritePending \x7b temp_path: " ++ Text.quoted temp ++ " \x7d"

end Phase

structure Names where
  base : String
  /-- The template outside a cycle, the temp file inside one. -/
  staging : String
  phase : Phase
  deriving DecidableEq, Repr

namespace Names

def ofBase (base : String) : Names := ⟨base, Template.ofBase base, .committed⟩

def temp? (n : Names) : Option String := n.phase.temp?

def openWith (n : Names) (temp : String) : Names :=
  { n with staging := temp, phase := .pending temp }

def closed (n : Names) : Names := { n with staging := Template.ofBase n.base, phase := .committed }

def retired : Names := ⟨"", "", .committed⟩

def basePath (n : Names) : Path := Path.ofString n.base

def stagingPath (n : Names) : Path := Path.ofString n.staging

def folder (n : Names) : Path := n.stagingPath.folder

def inspect (n : Names) : String :=
  "AtomicFileEntity \x7b base_file_name: " ++ Text.quoted n.base ++ ", new_file_name: " ++
    Text.quoted n.staging ++ ", state: " ++ n.phase.inspect ++ " \x7d"

end Names
end AtomicUpdate
