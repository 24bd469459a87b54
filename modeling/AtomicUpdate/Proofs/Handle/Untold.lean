import AtomicUpdate.Proofs.Lock.Ledger

/-! What an operation does before it tells of itself. Diagnostics are logged, the lock is asked for and let
go; neither a fact nor an audit line is among the events. -/
namespace AtomicUpdate
namespace World

def Untold (w w' : World) : Prop :=
  ∃ lines, (∀ e ∈ lines, e.tells = false) ∧ w'.events = w.events ++ lines

variable {w w' w'' : World}

theorem Untold.plain (events : w'.events = w.events) : w.Untold w' :=
  ⟨[], fun _ mem => absurd mem List.not_mem_nil, by rw [events, List.append_nil]⟩

theorem Untold.one (w : World) {e : Event} (untold : e.tells = false) : w.Untold (w.emit e) :=
  ⟨[e], fun _ mem => by rw [List.mem_singleton.mp mem]; exact untold, rfl⟩

theorem Untold.trans (first : w.Untold w') (second : w'.Untold w'') : w.Untold w'' := by
  obtain ⟨lines, untold, events⟩ := first
  obtain ⟨lines', untold', events'⟩ := second
  refine ⟨lines ++ lines', fun e mem => ?_, by rw [events', events, List.append_assoc]⟩
  rcases List.mem_append.mp mem with early | late
  · exact untold e early
  · exact untold' e late

theorem Aside.untold (aside : w.Aside w') : w.Untold w' := by
  obtain ⟨lines, logs, events⟩ := aside.logged
  refine ⟨lines, fun e mem => ?_, events⟩
  have log := logs e mem
  cases e with
  | log level message => rfl
  | _ => cases log

theorem releaseUntold (w : World) (g : Guard) : w.Untold (w.release g) := by
  cases g with
  | sidecar o => exact .plain rfl
  | scripted => exact .one w rfl

theorem waitUntold (w : World) (ms : Nat) : w.Untold (w.wait ms) := by
  have all : ∀ (guards : List Guard) (w : World), w.Untold (w.releaseAll guards) := by
    intro guards
    induction guards with
    | nil => exact fun w => .plain rfl
    | cons g rest ih => exact fun w => (w.releaseUntold g).trans (ih (w.release g))
  have clocked : ∀ clock due, w.Untold { w with clock, due } := fun _ _ => .plain rfl
  exact (clocked _ _).trans (all _ _)

end World

theorem Wait.Polled.untold {x : Wait} {timeout : Nat} {w : World} {r : Except Errno Guard × World}
    (polled : x.Polled timeout w r) : w.Untold r.2 := by
  induction polled with
  | @last w w' g ends =>
    have ended := x.attempted timeout w
    rw [ends] at ended
    cases ended with
    | kept granted => exact .plain rfl
    | late refused late => exact .one _ rfl
  | @again w w' r waits more ih =>
    have ended := x.attempted timeout w
    rw [waits] at ended
    have paused : w'.events = w.events := by
      cases ended
      rfl
    exact (World.Untold.plain paused).trans ((w'.waitUntold _).trans ih)

namespace Handle

theorem takeGuardUntold (h : Handle) (w : World) : w.Untold (h.takeGuard w).world := by
  unfold takeGuard
  cases h.lock with
  | none => exact .plain rfl
  | some m =>
    cases m with
    | scripted answers =>
      dsimp only [LockManager.acquire]
      split <;> exact .one w rfl
    | sidecar p =>
      change w.Untold (LockManager.acquireSidecar p h.timeout w).2
      rcases LockManager.acquirePolls p h.timeout w with ⟨e, w', begun, ends⟩ | ⟨x, w', begun, polled⟩
      · rw [ends, (LockManager.notEntered begun).1]
        exact .plain rfl
      · obtain ⟨fs, _, _, _, rfl⟩ := LockManager.entered begun
        exact .trans (.plain rfl) polled.untold

theorem giveBackUntold (g : Option Guard) (w : World) : w.Untold (giveBack g w) := by
  cases g with
  | none => exact .plain rfl
  | some g => exact w.releaseUntold g

theorem releaseGuardUntold (h : Handle) (w : World) : w.Untold (h.releaseGuard w) := by
  unfold releaseGuard
  cases h.guard with
  | none => exact .plain rfl
  | some g => exact w.releaseUntold g

theorem openCycleUntold (h : Handle) (w : World) : w.Untold (h.openCycle w).world := by
  have taken := h.takeGuardUntold w
  have aside := createTempAside (h.takeGuard w).handle (h.takeGuard w).world
  have ended := h.opening w
  generalize h.openCycle w = r at ended
  cases ended with
  | busy pending => exact .one w rfl
  | locked idle refused => exact taken
  | @failed g e w' idle granted refused =>
    rw [refused] at aside
    exact taken.trans (aside.untold.trans (giveBackUntold g w'))
  | opened idle granted created =>
    rw [created] at aside
    exact taken.trans aside.untold

theorem Ends.untold {h h' : Handle} {w w' : World} (ends : Ends h w h' w') : w.Untold w' := by
  cases ends with
  | still aside => exact aside.untold
  | closed aside idle guard lock => exact aside.untold.trans (releaseGuardUntold h _)

end Handle
end AtomicUpdate
