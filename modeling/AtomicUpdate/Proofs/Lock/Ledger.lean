import AtomicUpdate.Proofs.Handle.Phases
import AtomicUpdate.Proofs.Lock.Polling
import Mathlib.Data.List.Forall2

/-! An account of all that a handle has to do with its lock: what it asks the manager for, what it
lets go, and what it tells of itself, in this order. Balanced over a run, the account shows that what
is granted is released once and before the next is asked for, and that a guard is held while a cycle
is open and at no other time. -/
namespace AtomicUpdate

def Event.tells : Event → Bool
  | .fact _ | .audit _ _ | .auditLog _ _ => true
  | .log _ _ | .lockAcquire _ | .lockRelease => false

inductive Deal
  | asked (timeout : Nat) (answer : Except Errno Guard)
  | released (g : Guard)
  | told (e : Event)

/-- The guard that is held after some deals. There is none to be told where a guard is asked for
while one is held, or another one let go than the one that is held. -/
def balance : Option Guard → List Deal → Option (Option Guard)
  | held, [] => some held
  | none, .asked _ (.ok g) :: rest => balance (some g) rest
  | none, .asked _ (.error _) :: rest => balance none rest
  | some _, .asked _ _ :: _ => none
  | some held, .released g :: rest => if g = held then balance none rest else none
  | none, .released _ :: _ => none
  | held, .told _ :: rest => balance held rest

theorem balanceAppend (held : Option Guard) (first second : List Deal) :
    balance held (first ++ second) = (balance held first).bind fun held => balance held second := by
  induction held, first using balance.induct with
  | case1 held => rw [List.nil_append, balance, Option.bind_some]
  | case2 t g rest ih => rw [List.cons_append, balance, balance, ih]
  | case3 t e rest ih => rw [List.cons_append, balance, balance, ih]
  | case4 held t answer rest => rw [List.cons_append, balance, balance]; rfl
  | case5 held rest ih => rw [List.cons_append, balance, balance, if_pos rfl, if_pos rfl, ih]
  | case6 held g rest other => rw [List.cons_append, balance, balance, if_neg other, if_neg other]; rfl
  | case7 g rest => rfl
  | case8 held e rest ih => rw [List.cons_append, balance, balance, ih]

theorem balanceTold (held : Option Guard) (lines : List Event) :
    balance held (lines.map .told) = some held := by
  induction lines with
  | nil => rw [List.map_nil, balance]
  | cons e rest ih => rw [List.map_cons, balance, ih]

namespace World

structure Aside (w w' : World) : Prop where
  locks : w'.locks = w.locks
  clock : w'.clock = w.clock
  due : w'.due = w.due
  logged : ∃ lines, (∀ e ∈ lines, e.logs = true) ∧ w'.events = w.events ++ lines

theorem Aside.plain {w w' : World} (locks : w'.locks = w.locks) (clock : w'.clock = w.clock)
    (due : w'.due = w.due) (events : w'.events = w.events) : w.Aside w' :=
  ⟨locks, clock, due, [], fun _ mem => absurd mem List.not_mem_nil, by rw [events, List.append_nil]⟩

theorem Aside.refl (w : World) : w.Aside w := .plain rfl rfl rfl rfl

theorem Aside.files (w : World) (fs : Fs) : w.Aside (w.withFs fs) := .plain rfl rfl rfl rfl

theorem Aside.line (w : World) (level : Level) (message : String) :
    w.Aside (w.emit (.log level message)) :=
  ⟨rfl, rfl, rfl, [.log level message], fun e mem => by rw [List.mem_singleton.mp mem]; rfl, rfl⟩

theorem Looked.aside {w w' : World} (looked : w.Looked w') : w.Aside w' := by
  obtain ⟨owners, lines, _, logs, rfl⟩ := looked
  exact ⟨rfl, rfl, rfl, lines, logs, rfl⟩

theorem Aside.trans {w w' w'' : World} (first : w.Aside w') (second : w'.Aside w'') : w.Aside w'' := by
  obtain ⟨lines, logs, events⟩ := first.logged
  obtain ⟨lines', logs', events'⟩ := second.logged
  refine ⟨second.locks.trans first.locks, second.clock.trans first.clock, second.due.trans first.due,
    lines ++ lines', fun e mem => ?_, by rw [events', events, List.append_assoc]⟩
  rcases List.mem_append.mp mem with early | late
  · exact logs e early
  · exact logs' e late

end World

inductive Dealing : List Deal → Option LockManager → World → Option LockManager → World → Prop where
  | none {k w} : Dealing [] k w k w
  | aside {deals k w w' k' last} (aside : w.Aside w') (rest : Dealing deals k w' k' last) :
      Dealing deals k w k' last
  | asked {deals m w k' last timeout}
      (rest : Dealing deals (some (m.acquire timeout w).2.1) (m.acquire timeout w).2.2 k' last) :
      Dealing (.asked timeout (m.acquire timeout w).1 :: deals) (some m) w k' last
  | released {deals k w k' last g} (rest : Dealing deals k (w.release g) k' last) :
      Dealing (.released g :: deals) k w k' last
  | told {deals k w k' last e} (fs : Fs) (tells : e.tells = true)
      (rest : Dealing deals k ((w.emit e).withFs fs) k' last) : Dealing (.told e :: deals) k w k' last

namespace Dealing

theorem append {first second : List Deal} {k k' k'' : Option LockManager} {w w' w'' : World}
    (one : Dealing first k w k' w') (two : Dealing second k' w' k'' w'') :
    Dealing (first ++ second) k w k'' w'' := by
  induction one with
  | none => exact two
  | aside aside rest ih => exact .aside aside (ih two)
  | asked rest ih => exact .asked (ih two)
  | released rest ih => exact .released (ih two)
  | told fs tells rest ih => exact .told fs tells (ih two)

theorem ofAside {k : Option LockManager} {w w' : World} (aside : w.Aside w') : Dealing [] k w k w' :=
  .aside aside .none

end Dealing

def Telling (k : Option LockManager) (w w' : World) : Prop :=
  ∃ lines : List Event, (∀ e ∈ lines, e.tells = true) ∧ Dealing (lines.map .told) k w k w'

namespace Telling

variable {k : Option LockManager} {w w' w'' : World}

theorem ofAside (aside : w.Aside w') : Telling k w w' :=
  ⟨[], fun _ mem => absurd mem List.not_mem_nil, .ofAside aside⟩

theorem line {e : Event} (fs : Fs) (tells : e.tells = true) : Telling k w ((w.emit e).withFs fs) :=
  ⟨[e], fun e' mem => by rw [List.mem_singleton.mp mem]; exact tells, .told fs tells .none⟩

theorem trans (first : Telling k w w') (second : Telling k w' w'') : Telling k w w'' := by
  obtain ⟨lines, tells, dealt⟩ := first
  obtain ⟨lines', tells', dealt'⟩ := second
  refine ⟨lines ++ lines', fun e mem => ?_, by rw [List.map_append]; exact dealt.append dealt'⟩
  rcases List.mem_append.mp mem with early | late
  · exact tells e early
  · exact tells' e late

end Telling

namespace Sink

theorem factTelling (s : Sink) (f : Fact) (k : Option LockManager) (w : World) :
    Telling k w (s.fact f w) := by
  unfold fact
  split
  · exact .line _ rfl
  · exact .ofAside (.refl w)

theorem auditTelling (s : Sink) (level : Level) (message : String) (k : Option LockManager)
    (w : World) : Telling k w (s.audit level message w) := by
  unfold audit
  split
  · exact .line w.fs rfl
  · exact .line w.fs rfl

theorem reportTelling (s : Sink) {α : Type} (stage : Stage) (path : String) (details : Json.Value)
    (result : Except Errno α) (k : Option LockManager) (w : World) :
    Telling k w (s.report stage path details result w) := by
  unfold report
  dsimp only
  split
  · exact s.factTelling _ k w
  · exact (s.auditTelling _ _ k w).trans (s.factTelling _ k _)

end Sink

def Ran.relock {α : Type} (k : Option LockManager) (r : Ran α) : Ran α :=
  { r with handle := { r.handle with lock := k } }

namespace Handle

theorem createTempAside (h : Handle) (w : World) : w.Aside (h.createTemp w).2 := by
  unfold createTemp
  split
  · exact .line _ _ _
  · have made : w.Aside (Files.createFrom h.names.staging w).2 := by
      unfold Files.createFrom
      split
      · exact .refl w
      · rename_i stem found
        have drawing := Files.drawing stem Limits.attempts w
        generalize Files.createUnique stem Limits.attempts w = ended at drawing
        cases drawing with
        | made bound taken free => exact .plain rfl rfl rfl rfl
        | failed bound taken refused other => exact .plain rfl rfl rfl rfl
        | crowded taken => exact .plain rfl rfl rfl rfl
    cases ends : Files.createFrom h.names.staging w with
    | mk result w' =>
      rw [ends] at made
      cases result with
      | ok temp => exact made
      | error e => exact made.trans (.line _ _ _)

theorem openTempAside (temp : String) (w : World) : w.Aside (openTemp temp w).2 := by
  unfold openTemp
  dsimp only
  split
  · exact .line _ _ _
  · exact .plain rfl rfl rfl rfl

theorem commitToAside (h : Handle) (temp : String) (w : World) : w.Aside (h.commitTo temp w).2 := by
  have ended := h.commitRunning temp w
  generalize h.commitTo temp w = r at ended
  cases ended with
  | unready | refused | barred => exact .refl w
  | renamed => exact .files w _
  | broken _ _ _ copied | copied _ _ _ copied =>
    obtain ⟨fs, rfl⟩ := Commit.copyOverFiles copied
    exact (World.Aside.line _ _ _).trans (.files _ fs)

theorem removeTargetAside (target : String) (w : World) : w.Aside (removeTarget target w).2 := by
  have ended := removing target w
  generalize removeTarget target w = r at ended
  cases ended with
  | absent absent => exact .refl w
  | removed present removed => exact .files w _
  | refused e => exact .line _ _ _

theorem openCycleUnasked {h : Handle} (pending : h.isPending = true) (k : Option LockManager)
    (w : World) : ({ h with lock := k } : Handle).openCycle w = (h.openCycle w).relock k := by
  obtain ⟨temp, found⟩ := Option.isSome_iff_exists.mp pending
  rw [openCyclePending found, openCyclePending (h := { h with lock := k }) found]
  rfl

theorem openCycleBusy {h : Handle} (pending : h.isPending = true) (w : World) :
    (h.openCycle w).result = .error .ebusy := by
  obtain ⟨temp, found⟩ := Option.isSome_iff_exists.mp pending
  rw [openCyclePending found]

theorem startWriteUnasked {h : Handle} (pending : h.isPending = true) (k : Option LockManager)
    (w : World) : ({ h with lock := k } : Handle).startWrite w = (h.startWrite w).relock k := by
  unfold startWrite
  rw [openCycleUnasked pending]
  rfl

theorem startWriteStreamUnasked {h : Handle} (pending : h.isPending = true)
    (k : Option LockManager) (w : World) :
    ({ h with lock := k } : Handle).startWriteStream w = (h.startWriteStream w).relock k := by
  have busy : (h.startWrite w).result = .error .ebusy := openCycleBusy pending w
  have unasked := startWriteUnasked pending k w
  have busy' : (({ h with lock := k } : Handle).startWrite w).result = .error .ebusy := by
    rw [unasked]
    exact busy
  rw [startWriteStreamRefused busy, startWriteStreamRefused busy', unasked]
  rfl

theorem commitCycleUnasked (h : Handle) (k : Option LockManager) (w : World) :
    ({ h with lock := k } : Handle).commitCycle w = (h.commitCycle w).relock k := by
  unfold commitCycle pendingTemp flushStaged
  dsimp only
  cases h.names.temp? with
  | none => rfl
  | some temp =>
    dsimp only
    cases (if h.policy.durability.syncOnCommit = true then Files.flush w.fs (Path.ofString temp)
      else .ok ()) with
    | error e => rfl
    | ok u =>
      dsimp only
      cases Commit.run (Path.ofString temp) h.names.basePath
        (h.policy.commit.exdev = .copyFallback) h.forceExdev w with
      | mk result w' => cases result <;> rfl

theorem finishWriteUnasked (h : Handle) (k : Option LockManager) (w : World) :
    ({ h with lock := k } : Handle).finishWrite w = (h.finishWrite w).relock k := by
  unfold finishWrite
  rw [commitCycleUnasked]
  rfl

theorem rollBackUnasked (h : Handle) (k : Option LockManager) (w : World) :
    ({ h with lock := k } : Handle).rollBack w = (h.rollBack w).relock k := by
  unfold rollBack pendingTemp
  dsimp only
  cases h.names.temp? with
  | none => rfl
  | some temp =>
    dsimp only
    cases Files.remove w.fs (Path.ofString temp) with
    | ok fs => rfl
    | error e =>
      dsimp only
      split <;> rfl

theorem failWriteUnasked (h : Handle) (k : Option LockManager) (w : World) :
    ({ h with lock := k } : Handle).failWrite w = (h.failWrite w).relock k := by
  unfold failWrite
  rw [rollBackUnasked]
  rfl

theorem deleteUnasked (h : Handle) (k : Option LockManager) (w : World) :
    ({ h with lock := k } : Handle).delete w = (h.delete w).relock k := by
  unfold delete retire
  dsimp only
  cases lastFailure (removeTarget h.names.staging w).1
    (removeTarget h.names.base (removeTarget h.names.staging w).2).1 <;> rfl

end Handle

structure Occasion where
  call : Call
  handle : Handle
  world : World

def Call.starts : Call → Bool
  | .startWrite | .startWriteStream => true
  | _ => false

namespace Occasion

def ran (o : Occasion) : Ran Unit := o.call.perform o.handle o.world

def Unasked (o : Occasion) : Prop :=
  ∀ k, o.call.perform { o.handle with lock := k } o.world = o.ran.relock k

inductive Deals (o : Occasion) : List Deal → Prop where
  | busy (starts : o.call.starts = true) (pending : o.handle.isPending = true)
      (refused : o.ran.result = .error .ebusy) (unasked : o.Unasked) (same : o.ran.handle = o.handle) :
      Deals o []
  | refused {m e} (starts : o.call.starts = true) (idle : o.handle.isPending = false)
      (manager : o.handle.lock = some m)
      (answer : (m.acquire o.handle.timeout o.world).1 = .error e) (failed : o.ran.result = .error e)
      (closed : o.ran.handle.isPending = false) (guard : o.ran.handle.guard = o.handle.guard) :
      Deals o [.asked o.handle.timeout (.error e)]
  | wasted {m g e} (starts : o.call.starts = true) (idle : o.handle.isPending = false)
      (manager : o.handle.lock = some m)
      (answer : (m.acquire o.handle.timeout o.world).1 = .ok g) (failed : o.ran.result = .error e)
      (closed : o.ran.handle.isPending = false) (guard : o.ran.handle.guard = o.handle.guard) :
      Deals o [.asked o.handle.timeout (.ok g), .released g]
  | granted {m g} (starts : o.call.starts = true) (idle : o.handle.isPending = false)
      (manager : o.handle.lock = some m)
      (answer : (m.acquire o.handle.timeout o.world).1 = .ok g)
      (ok : o.call = .startWrite → o.ran.result = .ok ()) (opened : o.ran.handle.isPending = true)
      (guard : o.ran.handle.guard = some g) : Deals o [.asked o.handle.timeout (.ok g)]
  | kept (other : o.call.starts = false) (unasked : o.Unasked)
      (pending : o.ran.handle.isPending = o.handle.isPending)
      (guard : o.ran.handle.guard = o.handle.guard) : Deals o []
  | ended {g} (other : o.call.starts = false) (unasked : o.Unasked) (held : o.handle.guard = some g)
      (closed : o.ran.handle.isPending = false) (guard : o.ran.handle.guard = none) :
      Deals o [.released g]

def Account (o : Occasion) (account : List Deal) : Prop :=
  ∃ (deals : List Deal) (lines : List Event), account = deals ++ lines.map .told ∧ o.Deals deals ∧
    (∀ e ∈ lines, e.tells = true) ∧
    Dealing account o.handle.lock o.world o.ran.handle.lock o.ran.world

end Occasion
namespace Handle

structure Watchful (h : Handle) : Prop where
  manager : ∃ m, h.lock = some m
  held : h.guard.isSome = h.isPending

variable {h : Handle} {w : World}

theorem Watchful.unheld (watchful : h.Watchful) (idle : h.isPending = false) : h.guard = none :=
  Option.isSome_eq_false_iff.mp (watchful.held.trans idle) |> Option.isNone_iff_eq_none.mp

theorem takeGuardAsks {m : LockManager} (manager : h.lock = some m) (w : World) :
    h.takeGuard w = ⟨(m.acquire h.timeout w).1.map some,
      { h with lock := some (m.acquire h.timeout w).2.1 }, (m.acquire h.timeout w).2.2⟩ := by
  unfold takeGuard timeout
  rw [manager]

theorem takeGuardRefused {m : LockManager} (manager : h.lock = some m) {e : Errno}
    (refused : (h.takeGuard w).result = .error e) : (m.acquire h.timeout w).1 = .error e := by
  rw [takeGuardAsks manager] at refused
  exact mapError refused

theorem takeGuardGranted {m : LockManager} (manager : h.lock = some m) {taken : Option Guard}
    (granted : (h.takeGuard w).result = .ok taken) :
    ∃ g, taken = some g ∧ (m.acquire h.timeout w).1 = .ok g := by
  rw [takeGuardAsks manager] at granted
  obtain ⟨g, answer, same⟩ := mapOk granted
  exact ⟨g, same.symm, answer⟩

theorem takeGuardDealing {m : LockManager} (manager : h.lock = some m) {deals : List Deal} {w' : World}
    (rest : Dealing deals (h.takeGuard w).handle.lock (h.takeGuard w).world (h.takeGuard w).handle.lock w') :
    Dealing (.asked h.timeout (m.acquire h.timeout w).1 :: deals) h.lock w (h.takeGuard w).handle.lock w' := by
  rw [takeGuardAsks manager] at rest ⊢
  rw [manager]
  exact .asked rest

theorem openCycleDeals {o : Occasion} (watchful : o.handle.Watchful) (starts : o.call.starts = true)
    (unasked : o.handle.isPending = true → o.Unasked)
    (handle : o.ran.handle = (o.handle.openCycle o.world).handle)
    (failed : ∀ e, (o.handle.openCycle o.world).result = .error e → o.ran.result = .error e)
    (ok : ∀ temp, (o.handle.openCycle o.world).result = .ok temp → o.call = .startWrite →
      o.ran.result = .ok ()) :
    o.ran.handle.Watchful ∧ ∃ deals, o.Deals deals ∧
      Dealing deals o.handle.lock o.world o.ran.handle.lock (o.handle.openCycle o.world).world := by
  obtain ⟨m, manager⟩ := watchful.manager
  have asks := takeGuardAsks manager o.world
  have aside := createTempAside (o.handle.takeGuard o.world).handle (o.handle.takeGuard o.world).world
  have ended := o.handle.opening o.world
  generalize o.handle.openCycle o.world = r at ended handle failed ok
  have still : ∀ {phase}, o.handle.names.temp? = phase → o.handle.isPending = phase.isSome := by
    intro phase same
    rw [isPending, same]
  -- The two ways to fail leave the handle as the manager has left it.
  have back : o.handle.names.temp? = none → o.ran.handle = (o.handle.takeGuard o.world).handle →
      o.ran.handle.isPending = false ∧ o.ran.handle.guard = o.handle.guard ∧ o.ran.handle.Watchful := by
    intro idle same
    have closed : o.ran.handle.isPending = false := by
      rw [same, asks]
      exact still idle
    have guard : o.ran.handle.guard = o.handle.guard := by rw [same, asks]
    exact ⟨closed, guard, ⟨_, by rw [same, asks]⟩, by rw [guard, watchful.held, closed, still idle]; rfl⟩
  cases ended with
  | @busy temp pending =>
    rw [handle]
    exact ⟨watchful, [], .busy starts (still pending) (failed _ rfl) (unasked (still pending)) handle,
      .ofAside (.line _ _ _)⟩
  | @locked e idle refused =>
    obtain ⟨closed, guard, after⟩ := back idle handle
    have answer := takeGuardRefused manager refused
    refine ⟨after, _, .refused starts (still idle) manager answer (failed _ rfl) closed guard, ?_⟩
    rw [handle, ← answer]
    exact takeGuardDealing manager .none
  | @failed _ e w' idle granted refused =>
    obtain ⟨closed, guard, after⟩ := back idle handle
    obtain ⟨g, rfl, answer⟩ := takeGuardGranted manager granted
    refine ⟨after, _, .wasted starts (still idle) manager answer (failed _ rfl) closed guard, ?_⟩
    rw [refused] at aside
    rw [handle, ← answer]
    exact takeGuardDealing manager (.aside aside (.released .none))
  | @opened _ temp w' idle granted created =>
    obtain ⟨g, rfl, answer⟩ := takeGuardGranted manager granted
    have guard : o.ran.handle.guard = some g := by rw [handle]
    have opened : o.ran.handle.isPending = true := by rw [handle]; rfl
    refine ⟨⟨⟨_, by rw [handle, asks]⟩, by rw [guard, opened]; rfl⟩,
      _, .granted starts (still idle) manager answer (ok _ rfl) opened guard, ?_⟩
    rw [created] at aside
    rw [handle, ← answer]
    exact takeGuardDealing manager (.ofAside aside)

theorem startWriteStreamTelling (h : Handle) (k : Option LockManager) (w : World) :
    Telling k (h.openCycle w).world (h.startWriteStream w).world := by
  have started : Telling k (h.openCycle w).world (h.startWrite w).world :=
    Sink.reportTelling _ _ _ _ _ _ _
  cases ended : (h.startWrite w).result with
  | error e =>
    rw [startWriteStreamRefused ended]
    exact started
  | ok temp =>
    rw [startWriteStreamOpens ended]
    exact started.trans (.ofAside (openTempAside _ _))

theorem startWriteStreamFails {e : Errno} (failed : (h.openCycle w).result = .error e) :
    (h.startWriteStream w).result = .error e :=
  congrArg Ran.result (startWriteStreamRefused failed)

theorem finishWriteTelling (h : Handle) (k : Option LockManager) (w : World) :
    Telling k (h.commitCycle w).world (h.finishWrite w).world := by
  obtain ⟨details, same | ⟨line, same⟩⟩ := h.finishWriteWorld w
  · rw [same]
    exact Sink.reportTelling _ _ _ _ _ _ _
  · rw [same]
    exact (Sink.reportTelling _ _ _ _ _ _ _).trans (Sink.auditTelling _ _ _ _ _)

inductive Ends (h : Handle) (w : World) : Handle → World → Prop where
  | still {w'} (aside : w.Aside w') : Ends h w h w'
  | closed {w' h'} (aside : w.Aside w') (idle : h'.isPending = false) (guard : h'.guard = none)
      (lock : h'.lock = h.lock) : Ends h w h' (h.releaseGuard w')

theorem commitCycleEnding (h : Handle) (w : World) :
    Ends h w (h.commitCycle w).handle (h.commitCycle w).world := by
  have ended := h.committing w
  generalize h.commitCycle w = r at ended
  cases ended with
  | idle idle => exact .still (.line _ _ _)
  | unflushed pending refused => exact .still (.refl w)
  | @failed temp e w' pending flushed refused =>
    have aside := h.commitToAside temp w
    rw [refused] at aside
    exact .still (aside.trans (.line _ _ _))
  | @done temp done w' pending flushed committed =>
    have aside := h.commitToAside temp w
    rw [committed] at aside
    exact .closed aside rfl rfl rfl

theorem rollBackEnding (h : Handle) (w : World) :
    Ends h w (h.rollBack w).handle (h.rollBack w).world := by
  have ended := h.rollingBack w
  generalize h.rollBack w = r at ended
  cases ended with
  | idle idle => exact .still (.line _ _ _)
  | removed pending removed => exact .closed (.files w _) rfl rfl rfl
  | vanished pending refused => exact .closed (.line w _ _) rfl rfl rfl
  | kept pending refused other => exact .still (.line _ _ _)

theorem retireEnding (h : Handle) (w : World) : Ends h w (h.retire w).handle (h.retire w).world := by
  have ended := h.retiring w
  have both : ∀ {staging base w₁ w₂}, removeTarget h.names.staging w = (staging, w₁) →
      removeTarget h.names.base w₁ = (base, w₂) → w.Aside w₂ := by
    intro staging base w₁ w₂ first second
    have one := removeTargetAside h.names.staging w
    have two := removeTargetAside h.names.base w₁
    rw [first] at one
    rw [second] at two
    exact one.trans two
  generalize h.retire w = r at ended
  cases ended with
  | kept first second failure => exact .still (both first second)
  | retired first second => exact .closed (both first second) rfl rfl rfl

theorem Ends.deals {o : Occasion} {w' : World} (ends : Ends o.handle o.world o.ran.handle w')
    (watchful : o.handle.Watchful) (other : o.call.starts = false) (unasked : o.Unasked) :
    o.ran.handle.Watchful ∧ ∃ deals, o.Deals deals ∧
      Dealing deals o.handle.lock o.world o.ran.handle.lock w' := by
  generalize ended : o.ran.handle = h' at ends
  cases ends with
  | still aside =>
    exact ⟨watchful, [], .kept other unasked (by rw [ended]) (by rw [ended]), .ofAside aside⟩
  | @closed w₁ _ aside idle guard lock =>
    obtain ⟨m, manager⟩ := watchful.manager
    refine ⟨⟨⟨m, lock.trans manager⟩, by rw [guard, idle]; rfl⟩, ?_⟩
    rw [lock, releaseGuard]
    cases held : o.handle.guard with
    | none =>
      have before : o.handle.isPending = false := by rw [← watchful.held, held]; rfl
      exact ⟨[], .kept other unasked (by rw [ended, idle, before]) (by rw [ended, guard, held]),
        .ofAside aside⟩
    | some g =>
      exact ⟨[.released g], .ended other unasked held (by rw [ended, idle]) (by rw [ended, guard]),
        .aside aside (.released .none)⟩

end Handle

namespace Occasion

theorem Deals.account {o : Occasion} {deals : List Deal} {w' : World} (deals' : o.Deals deals)
    (dealt : Dealing deals o.handle.lock o.world o.ran.handle.lock w')
    (telling : Telling o.ran.handle.lock w' o.ran.world) : ∃ account, o.Account account := by
  obtain ⟨lines, tells, told⟩ := telling
  exact ⟨_, deals, lines, rfl, deals', tells, dealt.append told⟩

theorem accounted (o : Occasion) (watchful : o.handle.Watchful) :
    o.ran.handle.Watchful ∧ ∃ account, o.Account account := by
  obtain ⟨c, h, w⟩ := o
  cases c with
  | startWrite =>
    obtain ⟨after, deals, is, dealt⟩ := Handle.openCycleDeals (o := ⟨.startWrite, h, w⟩) watchful rfl
      (fun pending k => congrArg Ran.ended (Handle.startWriteUnasked pending k w)) rfl
      (fun e failed => congrArg (Except.map fun _ => ()) failed)
      (fun temp made _ => congrArg (Except.map fun _ => ()) made)
    exact ⟨after, is.account dealt (Sink.reportTelling _ _ _ _ _ _ _)⟩
  | startWriteStream =>
    obtain ⟨after, deals, is, dealt⟩ := Handle.openCycleDeals (o := ⟨.startWriteStream, h, w⟩) watchful
      rfl (fun pending k => congrArg Ran.ended (Handle.startWriteStreamUnasked pending k w))
      (h.startWriteStreamHandle w)
      (fun e failed => congrArg (Except.map fun _ => ()) (Handle.startWriteStreamFails failed)) nofun
    exact ⟨after, is.account dealt (h.startWriteStreamTelling _ w)⟩
  | finishWrite =>
    obtain ⟨after, deals, is, dealt⟩ := Handle.Ends.deals (o := ⟨.finishWrite, h, w⟩)
      (h.commitCycleEnding w) watchful rfl (fun k => h.finishWriteUnasked k w)
    exact ⟨after, is.account dealt (h.finishWriteTelling _ w)⟩
  | failWrite =>
    obtain ⟨after, deals, is, dealt⟩ := Handle.Ends.deals (o := ⟨.failWrite, h, w⟩)
      (h.rollBackEnding w) watchful rfl (fun k => h.failWriteUnasked k w)
    exact ⟨after, is.account dealt (Sink.reportTelling _ _ _ _ _ _ _)⟩
  | delete =>
    obtain ⟨after, deals, is, dealt⟩ := Handle.Ends.deals (o := ⟨.delete, h, w⟩)
      (h.retireEnding w) watchful rfl (fun k => h.deleteUnasked k w)
    exact ⟨after, is.account dealt (Sink.reportTelling _ _ _ _ _ _ _)⟩
  | getBaseFile =>
    obtain ⟨after, deals, is, dealt⟩ := Handle.Ends.deals (o := ⟨.getBaseFile, h, w⟩)
      (.still (h.openBaseLooks w).aside) watchful rfl (fun _ => rfl)
    exact ⟨after, is.account dealt (Sink.reportTelling _ _ _ _ _ _ _)⟩
  | readFully =>
    obtain ⟨after, deals, is, dealt⟩ := Handle.Ends.deals (o := ⟨.readFully, h, w⟩)
      (.still (h.readContentsLooks w).aside) watchful rfl (fun _ => rfl)
    exact ⟨after, is.account dealt (Sink.reportTelling _ _ _ _ _ _ _)⟩
  | openRead =>
    obtain ⟨after, deals, is, dealt⟩ := Handle.Ends.deals (o := ⟨.openRead, h, w⟩)
      (.still (h.openReaderLooks w).aside) watchful rfl (fun _ => rfl)
    exact ⟨after, is.account dealt (Sink.reportTelling _ _ _ _ _ _ _)⟩

theorem Deals.balanced {o : Occasion} {deals : List Deal} (deals' : o.Deals deals)
    (watchful : o.handle.Watchful) : balance o.handle.guard deals = some o.ran.handle.guard := by
  cases deals' with
  | busy starts pending refused unasked same => rw [balance, same]
  | refused starts idle manager answer failed closed guard =>
    rw [guard, watchful.unheld idle, balance, balance]
  | wasted starts idle manager answer failed closed guard =>
    rw [guard, watchful.unheld idle, balance, balance, if_pos rfl, balance]
  | granted starts idle manager answer ok opened guard =>
    rw [guard, watchful.unheld idle, balance, balance]
  | kept other unasked pending guard => rw [balance, guard]
  | ended other unasked held closed guard => rw [guard, held, balance, if_pos rfl, balance]

theorem Account.balanced {o : Occasion} {account : List Deal} (account' : o.Account account)
    (watchful : o.handle.Watchful) : balance o.handle.guard account = some o.ran.handle.guard := by
  obtain ⟨deals, lines, rfl, is, _, _⟩ := account'
  rw [balanceAppend, is.balanced watchful, Option.bind_some, balanceTold]

inductive Series (first : Handle) : List Occasion → Handle → Prop where
  | start : Series first [] first
  | next {past h} (before : Series first past h) (c : Call) (w : World) :
      Series first (past ++ [⟨c, h, w⟩]) (c.perform h w).handle

theorem Series.accounted {first h : Handle} {past : List Occasion} (series : Series first past h)
    (watchful : first.Watchful) :
    h.Watchful ∧ ∃ accounts, List.Forall₂ Account past accounts ∧
      balance first.guard accounts.flatten = some h.guard := by
  -- By induction on the series: each operation starts with the guard that the account so far leaves.
  induction series with
  | start => exact ⟨watchful, [], .nil, by rw [List.flatten_nil, balance]⟩
  | @next past h before c w ih =>
    obtain ⟨now, accounts, all, balanced⟩ := ih
    obtain ⟨after, account, last⟩ := Occasion.accounted ⟨c, h, w⟩ now
    refine ⟨after, accounts ++ [account], List.rel_append all (.cons last .nil), ?_⟩
    rw [List.flatten_append, balanceAppend, balanced, Option.bind_some, List.flatten_singleton]
    exact last.balanced now

theorem guardFollowsCycle {base : String} {first h : Handle} {m : LockManager}
    {past : List Occasion} (built : first.names = .ofBase base) (manager : first.lock = some m)
    (free : first.guard = none) (series : Series first past h) :
    h.guard.isSome = h.isPending ∧ ∃ accounts, List.Forall₂ Account past accounts ∧
      balance none accounts.flatten = some h.guard := by
  have watchful : first.Watchful := by
    refine ⟨⟨m, manager⟩, ?_⟩
    rw [free, Handle.isPending, built]
    rfl
  obtain ⟨now, accounts, all, balanced⟩ := series.accounted watchful
  rw [free] at balanced
  exact ⟨now.held, accounts, all, balanced⟩

theorem guardLetGo :
    let first : Handle := { Handle.ofBase "f" with lock := some (.scripted [none, some .eagain]) }
    let opened := Call.startWrite.perform first { fs := .bare }
    let busy := Call.startWrite.perform opened.handle opened.world
    let done := Call.finishWrite.perform busy.handle busy.world
    let refused := Call.startWrite.perform done.handle done.world
    opened.handle.guard = some .scripted ∧ busy.result = .error .ebusy ∧ done.result = .ok () ∧
      refused.result = .error .eagain ∧ refused.handle.guard.isSome = refused.handle.isPending ∧
      ∃ accounts, List.Forall₂ Account
        [⟨.startWrite, first, { fs := .bare }⟩, ⟨.startWrite, opened.handle, opened.world⟩,
          ⟨.finishWrite, busy.handle, busy.world⟩, ⟨.startWrite, done.handle, done.world⟩] accounts ∧
        balance none accounts.flatten = some refused.handle.guard := by
  intro first opened busy done refused
  have series : Series first
      [⟨.startWrite, first, { fs := .bare }⟩, ⟨.startWrite, opened.handle, opened.world⟩,
        ⟨.finishWrite, busy.handle, busy.world⟩, ⟨.startWrite, done.handle, done.world⟩] refused.handle :=
    .next (.next (.next (.next .start .startWrite _) .startWrite _) .finishWrite _) .startWrite _
  have built : first.names = .ofBase "f" := rfl
  exact ⟨by decide +kernel, by decide +kernel, by decide +kernel, by decide +kernel,
    guardFollowsCycle built rfl rfl series⟩

end Occasion
end AtomicUpdate
