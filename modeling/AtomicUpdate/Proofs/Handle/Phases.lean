import AtomicUpdate.Proofs.Handle.Outcome
import AtomicUpdate.Proofs.Naming

/-! The names of a handle over all its life. However its operations end and whatever the world is
that each of them meets, a handle is pending, live or gone, and one that is gone stays so. -/
namespace AtomicUpdate
namespace Names

structure Pending (base : String) (n : Names) : Prop where
  based : n.base = base
  recorded : n.phase = .pending n.staging
  spelled : ∃ tail : List Char, tail.length = 6 ∧ (∀ c ∈ tail, c.isAlphanum = true) ∧
    n.staging = base ++ "_" ++ String.ofList tail
  longer : base.toList <+: n.staging.toList ∧ base ≠ n.staging
  size : n.staging.utf8ByteSize = base.utf8ByteSize + 7

structure Live (base : String) (n : Names) : Prop where
  based : n.base = base
  template : n.staging = base ++ "_XXXXXX"
  committed : n.phase = .committed

structure Gone (n : Names) : Prop where
  base : n.base = ""
  template : n.staging = ""
  committed : n.phase = .committed

theorem liveOfBase (base : String) : (ofBase base).Live base := ⟨rfl, rfl, rfl⟩

theorem goneRetired : retired.Gone := ⟨rfl, rfl, rfl⟩

theorem Live.idle {base : String} {n : Names} (live : n.Live base) : n.temp? = none := by
  rw [temp?, live.committed]
  rfl

theorem Gone.idle {n : Names} (gone : n.Gone) : n.temp? = none := by
  rw [temp?, gone.committed]
  rfl

theorem Pending.temp {base : String} {n : Names} (pending : n.Pending base) :
    n.temp? = some n.staging := by
  rw [temp?, pending.recorded]
  rfl

theorem Live.notGone {base : String} {n : Names} (live : n.Live base) : ¬ n.Gone := by
  intro gone
  have empty := congrArg String.toList (live.template.symm.trans gone.template)
  simp at empty

theorem Pending.filled {base : String} (s : Suffix) {n : Names} (same : n.base = base) :
    (n.openWith (Template.fill (Template.stemOf base) s)).Pending base := by
  have size : (Template.fill (Template.stemOf base) s).utf8ByteSize = base.utf8ByteSize + 7 := by
    rw [← Path.ofStringLength, Template.fillBytes, Suffix.after, List.length_append, List.length_cons,
      Suffix.bytesLength, Path.ofStringLength]
  refine ⟨same, rfl, ⟨s.chars, s.length_eq, fun c mem => s.alphanumeric mem, Template.fillStem base s⟩,
    ⟨?_, ?_⟩, size⟩
  · change base.toList <+: (Template.fill (Template.stemOf base) s).toList
    rw [Template.fill, String.toList_ofList, Template.stemOf, List.append_assoc]
    exact List.prefix_append _ _
  · intro equal
    have sizes := congrArg String.utf8ByteSize equal
    change base.utf8ByteSize = (Template.fill (Template.stemOf base) s).utf8ByteSize at sizes
    omega

theorem Live.opened {base temp : String} {n : Names} {w w' : World} (live : n.Live base)
    (created : Files.createFrom n.staging w = (.ok temp, w')) : (n.openWith temp).Pending base := by
  obtain ⟨stem, k, found, rfl⟩ := Files.createdName created
  have template : n.staging = Template.ofBase base := live.template
  rw [template, Template.stemOfBase] at found
  cases Option.some.inj found
  exact Pending.filled _ live.based

theorem Gone.nothingCreated {temp : String} {n : Names} {w w' : World} (gone : n.Gone)
    (created : Files.createFrom n.staging w = (.ok temp, w')) : False := by
  obtain ⟨stem, _, found, _⟩ := Files.createdName created
  rw [gone.template, Template.noStemOfEmpty] at found
  cases found

theorem Pending.closed {base : String} {n : Names} (pending : n.Pending base) : n.closed.Live base :=
  ⟨pending.based, by rw [Names.closed, pending.based]; rfl, rfl⟩

theorem liveNames (base : String) : ofBase base ≠ .retired :=
  fun same => (liveOfBase base).notGone (same ▸ goneRetired)

def InUse (base : String) (n : Names) : Prop := n.Pending base ∨ n.Live base

theorem InUse.notGone {base : String} {n : Names} (use : n.InUse base) : ¬ n.Gone := by
  intro gone
  rcases use with pending | live
  · have temp := pending.temp
    rw [gone.idle] at temp
    cases temp
  · exact live.notGone gone

theorem InUse.closed {base temp : String} {n : Names} (use : n.InUse base)
    (pending : n.temp? = some temp) : n.closed.InUse base := by
  rcases use with is | is
  · exact Or.inr is.closed
  · rw [is.idle] at pending
    cases pending

end Names

namespace Handle
open Names (InUse Gone)

theorem takeGuardHandle (h : Handle) (w : World) : ∃ lock, (h.takeGuard w).handle = { h with lock } := by
  unfold takeGuard
  cases manager : h.lock with
  | none => exact ⟨h.lock, rfl⟩
  | some m => exact ⟨_, rfl⟩

theorem takeGuardNames (h : Handle) (w : World) : (h.takeGuard w).handle.names = h.names := by
  obtain ⟨lock, same⟩ := h.takeGuardHandle w
  rw [same]

theorem takeGuardSink (h : Handle) (w : World) : (h.takeGuard w).handle.sink = h.sink := by
  obtain ⟨lock, same⟩ := h.takeGuardHandle w
  rw [same]

theorem openCycleSink (h : Handle) (w : World) : (h.openCycle w).handle.sink = h.sink := by
  have taken := h.takeGuardSink w
  have ended := h.opening w
  generalize h.openCycle w = r at ended
  cases ended with
  | busy pending => rfl
  | locked idle refused => exact taken
  | failed idle granted refused => exact taken
  | opened idle granted created => exact taken

theorem commitCycleSink (h : Handle) (w : World) : (h.commitCycle w).handle.sink = h.sink := by
  have ended := h.committing w
  generalize h.commitCycle w = r at ended
  cases ended <;> rfl

theorem rollBackSink (h : Handle) (w : World) : (h.rollBack w).handle.sink = h.sink := by
  have ended := h.rollingBack w
  generalize h.rollBack w = r at ended
  cases ended <;> rfl

theorem retireSink (h : Handle) (w : World) : (h.retire w).handle.sink = h.sink := by
  have ended := h.retiring w
  generalize h.retire w = r at ended
  cases ended <;> rfl

theorem createdTemp {h : Handle} {temp : String} {w w' : World}
    (created : h.createTemp w = (.ok temp, w')) : Files.createFrom h.names.staging w = (.ok temp, w') := by
  unfold createTemp at created
  split at created
  · cases created
  · split at created
    · rename_i made
      cases created
      exact made
    · cases created

theorem openCycleInUse {base : String} {h : Handle} (w : World) (use : h.names.InUse base) :
    (h.openCycle w).handle.names.InUse base := by
  have same := h.takeGuardNames w
  have ended := h.opening w
  generalize h.openCycle w = r at ended
  cases ended with
  | busy pending => exact use
  | locked idle refused => exact same ▸ use
  | failed idle granted refused => exact same ▸ use
  | @opened g temp w' idle granted created =>
    have made := createdTemp created
    rw [same] at made
    change ((h.takeGuard w).handle.names.openWith temp).InUse base
    rw [same]
    rcases use with is | is
    · rw [is.temp] at idle
      cases idle
    · exact Or.inl (is.opened made)

theorem openCycleGone {h : Handle} (w : World) (gone : h.names.Gone) :
    (h.openCycle w).handle.names.Gone := by
  have same := h.takeGuardNames w
  have ended := h.opening w
  generalize h.openCycle w = r at ended
  cases ended with
  | busy pending => exact gone
  | locked idle refused => exact same ▸ gone
  | failed idle granted refused => exact same ▸ gone
  | opened idle granted created =>
    have made := createdTemp created
    rw [same] at made
    exact (gone.nothingCreated made).elim

theorem commitCycleInUse {base : String} {h : Handle} (w : World) (use : h.names.InUse base) :
    (h.commitCycle w).handle.names.InUse base := by
  have ended := h.committing w
  generalize h.commitCycle w = r at ended
  cases ended with
  | idle none => exact use
  | unflushed pending refused => exact use
  | failed pending flushed refused => exact use
  | done pending flushed committed => exact use.closed pending

theorem commitCycleIdle {h : Handle} (w : World) (idle : h.names.temp? = none) :
    (h.commitCycle w).handle = h := by
  have ended := h.committing w
  generalize h.commitCycle w = r at ended
  cases ended with
  | idle none => rfl
  | unflushed pending refused => rfl
  | failed pending flushed refused => rfl
  | done pending flushed committed => rw [idle] at pending; cases pending

theorem rollBackInUse {base : String} {h : Handle} (w : World) (use : h.names.InUse base) :
    (h.rollBack w).handle.names.InUse base := by
  have ended := h.rollingBack w
  generalize h.rollBack w = r at ended
  cases ended with
  | idle none => exact use
  | removed pending removed => exact use.closed pending
  | vanished pending refused => exact use.closed pending
  | kept pending refused other => exact use

theorem rollBackIdle {h : Handle} (w : World) (idle : h.names.temp? = none) :
    (h.rollBack w).handle = h := by
  have ended := h.rollingBack w
  generalize h.rollBack w = r at ended
  cases ended with
  | idle none => rfl
  | removed pending removed => rw [idle] at pending; cases pending
  | vanished pending refused => rw [idle] at pending; cases pending
  | kept pending refused other => rfl

theorem retireNames (h : Handle) (w : World) :
    ((h.retire w).result = .ok () ∧ (h.retire w).handle.names = .retired) ∨
      ((h.retire w).result ≠ .ok () ∧ (h.retire w).handle = h) := by
  have ended := h.retiring w
  generalize h.retire w = r at ended
  cases ended with
  | kept first second failure => exact Or.inr ⟨(by intro ok; cases ok), rfl⟩
  | retired first second => exact Or.inl ⟨rfl, rfl⟩

theorem startWriteStreamHandle (h : Handle) (w : World) :
    (h.startWriteStream w).handle = (h.openCycle w).handle := by
  change (h.startWriteStream w).handle = (h.startWrite w).handle
  cases ended : (h.startWrite w).result with
  | error e => rw [startWriteStreamRefused ended]
  | ok temp => rw [startWriteStreamOpens ended]

end Handle

namespace Call

theorem performSink (c : Call) (h : Handle) (w : World) : (c.perform h w).handle.sink = h.sink := by
  cases c with
  | startWrite => exact h.openCycleSink w
  | startWriteStream =>
    change (h.startWriteStream w).handle.sink = h.sink
    rw [h.startWriteStreamHandle w]
    exact h.openCycleSink w
  | finishWrite => exact h.commitCycleSink w
  | failWrite => exact h.rollBackSink w
  | delete => exact h.retireSink w
  | getBaseFile => rfl
  | readFully => rfl
  | openRead => rfl

theorem inUse {base : String} {c : Call} {h : Handle} {w : World} (use : h.names.InUse base)
    (notDeleted : ¬ (c = .delete ∧ (c.perform h w).result = .ok ())) :
    (c.perform h w).handle.names.InUse base := by
  cases c with
  | startWrite => exact Handle.openCycleInUse w use
  | startWriteStream =>
    change (h.startWriteStream w).handle.names.InUse base
    rw [h.startWriteStreamHandle w]
    exact Handle.openCycleInUse w use
  | finishWrite => exact Handle.commitCycleInUse w use
  | failWrite => exact Handle.rollBackInUse w use
  | delete =>
    rcases h.retireNames w with ⟨ok, _⟩ | ⟨_, same⟩
    · exact absurd ⟨rfl, ok⟩ notDeleted
    · change (h.retire w).handle.names.InUse base
      rwa [same]
  | getBaseFile => exact use
  | readFully => exact use
  | openRead => exact use

theorem gone {h : Handle} (c : Call) (w : World) (gone : h.names.Gone) :
    (c.perform h w).handle.names.Gone := by
  cases c with
  | startWrite => exact Handle.openCycleGone w gone
  | startWriteStream =>
    change (h.startWriteStream w).handle.names.Gone
    rw [h.startWriteStreamHandle w]
    exact Handle.openCycleGone w gone
  | finishWrite =>
    change (h.commitCycle w).handle.names.Gone
    rwa [Handle.commitCycleIdle w gone.idle]
  | failWrite =>
    change (h.rollBack w).handle.names.Gone
    rwa [Handle.rollBackIdle w gone.idle]
  | delete =>
    change (h.retire w).handle.names.Gone
    rcases h.retireNames w with ⟨_, retired⟩ | ⟨_, same⟩
    · rw [retired]
      exact Names.goneRetired
    · rwa [same]
  | getBaseFile => exact gone
  | readFully => exact gone
  | openRead => exact gone

theorem deleted {h : Handle} {w : World} (ok : (Call.delete.perform h w).result = .ok ()) :
    (Call.delete.perform h w).handle.names.Gone := by
  rcases h.retireNames w with ⟨_, retired⟩ | ⟨failed, _⟩
  · change (h.retire w).handle.names.Gone
    rw [retired]
    exact Names.goneRetired
  · exact absurd ok failed

end Call

abbrev Past := List (Call × Except Errno Unit)

/-- Operations of one handle one after another, each in a world of its own: between two of them
anybody may have done anything. -/
inductive Run (first : Handle) : Past → Handle → Prop where
  | start : Run first [] first
  | call {past h} (before : Run first past h) (c : Call) (w : World) :
      Run first (past ++ [(c, (c.perform h w).result)]) (c.perform h w).handle

def Past.Deleted (past : Past) : Prop := (Call.delete, .ok ()) ∈ past

theorem Run.names {base : String} {first h : Handle} {past : Past} (run : Run first past h)
    (use : first.names.InUse base) :
    (¬ past.Deleted → h.names.InUse base) ∧ (past.Deleted → h.names.Gone) := by
  induction run with
  | start => exact ⟨fun _ => use, fun deleted => absurd deleted List.not_mem_nil⟩
  | @call past h before c w ih =>
    by_cases deleted : past.Deleted
    · have after := c.gone w (ih.2 deleted)
      exact ⟨fun none => absurd (List.mem_append_left _ deleted) none, fun _ => after⟩
    · by_cases now : c = .delete ∧ (c.perform h w).result = .ok ()
      · obtain ⟨rfl, ok⟩ := now
        refine ⟨fun none => absurd ?_ none, fun _ => Call.deleted ok⟩
        exact List.mem_append_right _ (by rw [ok]; exact List.mem_singleton_self _)
      · refine ⟨fun _ => Call.inUse (ih.1 deleted) now, fun later => ?_⟩
        rcases List.mem_append.mp later with early | last
        · exact absurd early deleted
        · have same := List.mem_singleton.mp last
          exact absurd ⟨(congrArg Prod.fst same).symm, (congrArg Prod.snd same).symm⟩ now

theorem Run.staysGone {first h : Handle} {past : Past} (run : Run first past h)
    (gone : first.names.Gone) : h.names.Gone := by
  induction run with
  | start => exact gone
  | call before c w ih => exact c.gone w ih

def ExactlyOne (a b c : Prop) : Prop := (a ∧ ¬ b ∧ ¬ c) ∨ (¬ a ∧ b ∧ ¬ c) ∨ (¬ a ∧ ¬ b ∧ c)

theorem exactlyOnePhase {base : String} {first h : Handle} {past : Past}
    (built : first.names = .ofBase base) (run : Run first past h) :
    ExactlyOne (h.names.Pending base) (h.names.Live base) (past.Deleted ∧ h.names.Gone) ∧
      (past.Deleted ∧ h.names.Gone → ∀ {later last}, Run h later last → last.names.Gone) := by
  have use : first.names.InUse base := Or.inr (built ▸ Names.liveOfBase base)
  have names := run.names use
  refine ⟨?_, fun gone _ _ more => more.staysGone gone.2⟩
  by_cases deleted : past.Deleted
  · have gone := names.2 deleted
    exact Or.inr (Or.inr ⟨fun pending => Names.InUse.notGone (Or.inl pending) gone,
      fun live => live.notGone gone, deleted, gone⟩)
  · rcases names.1 deleted with pending | live
    · refine Or.inl ⟨pending, fun live => ?_, fun gone => deleted gone.1⟩
      have temp := pending.temp
      rw [live.idle] at temp
      cases temp
    · refine Or.inr (Or.inl ⟨fun pending => ?_, live, fun gone => deleted gone.1⟩)
      have temp := pending.temp
      rw [live.idle] at temp
      cases temp

theorem phaseAfterDelete :
    let opened := Call.startWrite.perform (.ofBase "f") { fs := .bare }
    let deleted := Call.delete.perform opened.handle opened.world
    opened.result = .ok () ∧ deleted.result = .ok () ∧
      ExactlyOne (deleted.handle.names.Pending "f") (deleted.handle.names.Live "f")
        (Past.Deleted [(.startWrite, opened.result), (.delete, deleted.result)] ∧
          deleted.handle.names.Gone) := by
  intro opened deleted
  have run : Run (.ofBase "f") [(.startWrite, opened.result), (.delete, deleted.result)]
      deleted.handle := .call (.call .start .startWrite { fs := .bare }) .delete opened.world
  exact ⟨by decide +kernel, by decide +kernel, (exactlyOnePhase rfl run).1⟩

end AtomicUpdate
