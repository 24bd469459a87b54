import AtomicUpdate.Files
import AtomicUpdate.Handle.Basic

/-! Deleting the file of a handle, with the temp file of a cycle that is open. Both are tried
even if one cannot be removed; only when both are gone are the names given up. -/
namespace AtomicUpdate.Handle
open Json (Value)

def removeTarget (target : String) (w : World) : Except Errno Unit × World :=
  let path := Path.ofString target
  let removed := do
    if ← Files.isPresent w.fs path then Files.remove w.fs path else .ok w.fs
  match removed with
  | .ok fs => (.ok (), w.withFs fs)
  | .error e => (.error e, w.logError s!"Failed to remove file {target}, err:{e.number}")

def lastFailure (first second : Except Errno Unit) : Except Errno Unit :=
  match second with
  | .error e => .error e
  | .ok () => first

def retire (h : Handle) (w : World) : Ran Unit :=
  let (staging, w) := removeTarget h.names.staging w
  let (base, w) := removeTarget h.names.base w
  match lastFailure staging base with
  | .error e => ⟨.error e, h, w⟩
  | .ok () => ⟨.ok (), { h with names := .retired, guard := none }, h.releaseGuard w⟩

def delete (h : Handle) (w : World) : Ran Unit :=
  let details : Value :=
    .object [("base_path", .string h.names.base), ("temp_path", .string h.names.staging)]
  (h.retire w).reported .delete h.names.base details

end AtomicUpdate.Handle
