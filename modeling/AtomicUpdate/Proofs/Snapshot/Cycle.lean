import AtomicUpdate.Proofs.Handle.Begin
import AtomicUpdate.Proofs.Snapshot.Shelter
import AtomicUpdate.Proofs.Store.Start

/-! What the start of a cycle does to files that readers have open: nothing, wherever the temp file and the
lock file are made. -/
namespace AtomicUpdate

variable {base : String} {kept : Ino → Prop} {k : Stakes} {w : World} {h : Handle}

theorem Sheltered.gains {fs fs' : Fs} (sheltered : Sheltered base kept k fs) (gains : Fs.Gains fs fs') :
    Shelters base kept k fs fs' := by
  cases gains with
  | none => exact .refl sheltered
  | born dir free => exact sheltered.born dir free _ id Or.inl

namespace Handle

inductive Begins (base : String) (kept : Ino → Prop) (k : Stakes) (h : Handle) (w : World) :
    Ran String → Prop where
  | refused {r e} (error : r.result = .error e) (names : r.handle.names = h.names)
      (sink : r.handle.sink = h.sink) (shelters : Shelters base kept k w.fs r.world.fs) :
      Begins base kept k h w r
  | opened {r} (s : Suffix) (ok : r.result = .ok (Template.fill (Template.stemOf base) s))
      (names : r.handle.names =
        (Names.ofBase base).openWith (Template.fill (Template.stemOf base) s))
      (sink : r.handle.sink = h.sink)
      (shelters : Shelters base kept
        { k with staged := fun n => k.staged n ∨ n = s.after (leafOf base) } w.fs r.world.fs) :
      Begins base kept k h w r

theorem openCycleBegins (built : Over base h.names)
    (sheltered : Sheltered base kept k w.fs) : Begins base kept k h w (h.openCycle w) := by
  have begun : Begun base h w (h.openCycle w) := openCycleBegun built
  generalize h.openCycle w = r at begun
  cases begun with
  | refused error names sink gains => exact .refused error names sink (sheltered.gains gains)
  | opened s idle ok names sink gains home proper free write made =>
    have first := sheltered.gains gains
    refine .opened s ok names sink (first.trans ?_)
    rw [made]
    refine first.state.born home.dir free 0o600 id ?_
    rintro n (was | same)
    · exact Or.inl was
    · exact Or.inr ⟨same, home, proper, afterNotLeaf base s⟩

theorem Begins.reported {r : Ran String} (begins : Begins base kept k h w r) (quiet : h.Quiet)
    (stage : Stage) (path : String) (details : Json.Value) :
    Begins base kept k h w (r.reported stage path details) := by
  have sink : r.handle.sink = h.sink := by cases begins <;> assumption
  have same := reportedFs (quiet.same sink) stage path details
  cases begins with
  | refused error names sink shelters => exact .refused error names sink (same ▸ shelters)
  | opened s ok names sink shelters => exact .opened s ok names sink (same ▸ shelters)

theorem startWriteBegins (quiet : h.Quiet) (built : Over base h.names)
    (sheltered : Sheltered base kept k w.fs) : Begins base kept k h w (h.startWrite w) :=
  (openCycleBegins built sheltered).reported quiet _ _ _

end Handle
end AtomicUpdate
