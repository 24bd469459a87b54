import AtomicUpdate.Policy.Document
import AtomicUpdate.World

/-! Reading a policy where somebody watches the log: a text that describes none is told there. -/
namespace AtomicUpdate.Policy

def readLogged (text : String) (w : World) : Except Errno Policy × World :=
  match read text with
  | .ok p => (.ok p, w)
  | .error e => (.error e, w.logError "invalid policy document")

theorem readLoggedResult (text : String) (w : World) : (readLogged text w).1 = read text := by
  unfold readLogged
  split <;> simp_all

end AtomicUpdate.Policy
