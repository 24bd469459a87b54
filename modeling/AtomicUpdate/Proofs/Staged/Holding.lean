import AtomicUpdate.Proofs.Staged.Bench

/-! What every operation of a handle leaves of the bytes that it has staged. An operation that fails and
leaves the cycle open has left the temp file as it was, with one exception: a delete removes it first and can
fail after that. -/
namespace AtomicUpdate
open Handle (Over)

namespace Handle
variable {base : String} {h : Handle} {w : World}

theorem startWriteFs (quiet : h.Quiet) (w : World) :
    (h.startWrite w).world.fs = (h.openCycle w).world.fs :=
  reportedFs (quiet.same (h.openCycleSink w)) _ _ _

theorem finishWriteFs (quiet : h.Quiet) (w : World) :
    (h.finishWrite w).world.fs = (h.commitCycle w).world.fs := by
  obtain ⟨details, said⟩ := h.finishWriteWorld w
  have told :=
    reportedFs (quiet.same (h.commitCycleSink w)) .finishWrite (h.commitCycle w).handle.names.base details
  rcases said with same | ⟨line, same⟩
  all_goals
    rw [same]
    exact told

theorem failWriteFs (quiet : h.Quiet) (w : World) : (h.failWrite w).world.fs = (h.rollBack w).world.fs :=
  reportedFs (quiet.same (h.rollBackSink w)) _ _ _

theorem deleteFs (quiet : h.Quiet) (w : World) : (h.delete w).world.fs = (h.retire w).world.fs :=
  reportedFs (quiet.same (h.retireSink w)) _ _ _

theorem readFs (quiet : h.Quiet) (w : World) :
    (h.getBaseFile w).world.fs = w.fs ∧ (h.readFully w).world.fs = w.fs ∧ (h.openRead w).world.fs = w.fs := by
  have same : ∀ {w' : World}, w.Looked w' → w'.fs = w.fs := by
    rintro _ ⟨_, _, _, _, rfl⟩
    rfl
  have told : ∀ {α : Type} (result : Except Errno α) (w' : World) (details : Json.Value),
      ((Ran.mk result h w').reported .read h.names.base details).world.fs = w'.fs :=
    fun _ _ _ => reportedFs (by exact quiet) _ _ _
  refine ⟨?_, ?_, ?_⟩
  · exact (told _ _ _).trans (same (h.openBaseLooks w))
  · exact (told _ _ _).trans (same (h.readContentsLooks w))
  · exact (told _ _ _).trans (same (h.openReaderLooks w))

theorem endCycleFs (h : Handle) (w : World) : (h.endCycle w).2.fs = w.fs := by
  obtain ⟨locks, events, released⟩ := h.releaseGuardWorld w
  change (h.releaseGuard w).fs = w.fs
  rw [released]

theorem removeTargetErases (target : String) (w : World) :
    (removeTarget target w).2.fs = w.fs ∨ ∃ d n, w.fs.isDir d = true ∧
      (removeTarget target w).2.fs = w.fs.updateDir d (·.erase n) := by
  have ended := removing target w
  generalize removeTarget target w = r at ended
  cases ended with
  | absent absent => exact Or.inl rfl
  | removed present removed =>
    obtain ⟨d, n, i, located, _, rfl⟩ := Files.removeExact removed
    exact Or.inr ⟨d, n, (Fs.entryTaken located).1, rfl⟩
  | refused e => exact Or.inl rfl

theorem removeTargetSize (target : String) (w : World) :
    (removeTarget target w).2.fs.nodes.size = w.fs.nodes.size := by
  rcases removeTargetErases target w with same | ⟨d, n, _, erased⟩
  · rw [same]
  · rw [erased, Fs.sizeUpdateDir]

theorem removeTargetIntact {s : Suffix} {d i : Ino} {c : Bytes} {m : Nat}
    (intact : Fs.Intact base s d i c m w.fs) :
    removeTarget (Template.fill (Template.stemOf base) s) w =
      (.ok (), w.withFs (w.fs.updateDir d (·.erase (s.after (leafOf base))))) := by
  rw [removeTargetPresent intact.present, intact.remove]

theorem removeTargetLacks {s : Suffix} (lacks : Fs.Lacks base s w.fs) (target : String) :
    Fs.Lacks base s (removeTarget target w).2.fs := by
  rcases removeTargetErases target w with same | ⟨d, n, dir, erased⟩
  · exact same ▸ lacks
  · exact erased ▸ lacks.erase dir n

theorem openTempIntact {s : Suffix} {d i : Ino} {c : Bytes} {m : Nat}
    (intact : Fs.Intact base s d i c m w.fs) :
    (∃ e, (openTemp (Template.fill (Template.stemOf base) s) w).1 = .error e ∧
        (openTemp (Template.fill (Template.stemOf base) s) w).2.fs = w.fs) ∨
      ∃ wr, (openTemp (Template.fill (Template.stemOf base) s) w).1 = .ok wr ∧ wr.file.ino = i ∧
        Fs.Reworks i (fun _ => []) w.fs
          (openTemp (Template.fill (Template.stemOf base) s) w).2.fs := by
  rcases openTempExact (Template.fill (Template.stemOf base) s) w with refused | ⟨wr, opened, led, after⟩
  · exact Or.inl refused
  · cases intact.lookup.symm.trans led
    obtain ⟨only, emptied⟩ := Fs.truncateFile intact.holds.file
    rw [after]
    exact Or.inr ⟨wr, opened, rfl, .ofFile only intact.holds.file emptied
      fun _ b' a => Node.permitsWithdrawn _ b' m a⟩

theorem openTempPours {s : Suffix} {d i : Ino} {c : Bytes} {m : Nat}
    (intact : Fs.Intact base s d i c m w.fs) :
    Fs.Poured i w.fs (openTemp (Template.fill (Template.stemOf base) s) w).2.fs ∧
      ∀ wr ∈ (openTemp (Template.fill (Template.stemOf base) s) w).1.toOption.toList, wr.file.ino = i := by
  rcases openTempIntact intact with ⟨e, failed, same⟩ | ⟨wr, opened, here, reworks⟩
  · rw [failed, same]
    exact ⟨.refl i w.fs, fun _ mem => absurd mem List.not_mem_nil⟩
  · rw [opened]
    refine ⟨reworks.poured, fun wr' mem => ?_⟩
    cases List.mem_singleton.mp mem
    exact here

theorem openedTemp {temp : String} (opened : (h.openCycle w).result = .ok temp) :
    h.isPending = false ∧ (h.openCycle w).handle.names.temp? = some temp := by
  have ended := h.opening w
  generalize h.openCycle w = r at ended opened
  cases ended with
  | busy pending => cases opened
  | locked idle refused => cases opened
  | failed idle granted refused => cases opened
  | opened idle granted created =>
    cases opened
    exact ⟨by rw [isPending, idle]; rfl, rfl⟩

end Handle

theorem Handle.Ends.pends {h h' : Handle} {w w' : World} (ends : Ends h w h' w')
    (after : h'.isPending = true) : h.isPending = true := by
  cases ends with
  | still aside => exact after
  | closed aside idle guard lock =>
    rw [idle] at after
    cases after

theorem Call.pends {c : Call} {h : Handle} {w : World} (other : c.starts = false)
    (after : (c.perform h w).handle.isPending = true) : h.isPending = true := by
  cases c with
  | startWrite => cases other
  | startWriteStream => cases other
  | finishWrite => exact (h.commitCycleEnding w).pends after
  | failWrite => exact (h.rollBackEnding w).pends after
  | delete => exact (h.retireEnding w).pends after
  | getBaseFile => exact after
  | readFully => exact after
  | openRead => exact after

namespace Tally
variable {t : Tally} {h : Handle} {w : World}

theorem afterStart {c : Call} {r : Ran Unit} {h' : Handle} (starts : c.starts = true) (same : r.handle = h') :
    t.after c h r = if h.isPending = false ∧ h'.isPending = true then t.begun else t := by
  subst same
  have kept : ¬ (c = .delete ∧ r.result ≠ .ok ()) := by
    rintro ⟨rfl, _⟩
    cases starts
  rw [after, if_neg kept]

theorem afterOther {c : Call} (other : c.starts = false) (spares : c ≠ .delete) :
    t.after c h (c.perform h w) = t := by
  rw [after, if_neg, if_neg fun both => spares both.1]
  rintro ⟨idle, pending⟩
  rw [Call.pends other pending] at idle
  cases idle

theorem afterDelete : t.after .delete h (h.delete w) =
    if (h.delete w).result ≠ .ok () then { t with spoilt := true } else t := by
  rw [after, if_neg]
  · simp only [true_and]
  · rintro ⟨idle, pending⟩
    rw [(h.retireEnding w).pends pending] at idle
    cases idle

end Tally

namespace Held
variable {base : String} {streams : List Stream} {t : Tally} {h : Handle} {w : World}

theorem broken {names : Names} (held : Held base streams t w.fs names) {temp : String}
    (pending : names.temp? = some temp) {p : Path} {e : Errno} {w₁ w' : World}
    (broke : Commit.copyOver (Path.ofString temp) p w₁ = (.error e, w')) (same : w₁.fs = w.fs) :
    Held base streams t w'.fs names := by
  rw [← same] at held
  have bounded := held.bounded.later (.refl streams) (Nat.le_refl _) (Commit.copyOverMore broke)
  cases held with
  | idle built idle => cases pending.symm.trans idle
  | writing s sound intact mine =>
    cases pending
    exact .writing s sound (Commit.copyOverIntact intact broke) mine bounded
  | lost s spoilt lacks =>
    cases pending
    obtain ⟨_, unchanged⟩ := Commit.copyOverLacks broke lacks
    cases unchanged
    exact .lost s spoilt lacks bounded

theorem commit (held : Held base streams t w.fs h.names) :
    Held base streams t (h.commitCycle w).world.fs (h.commitCycle w).handle.names := by
  have built := held.built
  have ended := h.committing w
  generalize h.commitCycle w = r at ended
  cases ended with
  | idle idle => exact held
  | unflushed pending refused => exact held
  | @failed temp e w' pending flushed refused =>
    change Held base streams t w'.fs h.names
    have failed := h.commitRunning temp w
    rw [refused] at failed
    cases failed with
    | unready | refused | barred => exact held
    | broken _ _ _ broke => exact held.broken pending broke rfl
  | @done temp done w' pending flushed committed =>
    have grown := Commit.runMore (Path.ofString temp) h.names.basePath h.allowsCopy h.forceExdev w
    rw [Handle.commitTo] at committed
    rw [committed] at grown
    exact held.closed (built.closed pending) rfl rfl (by rw [Handle.endCycleFs]; exact grown)

theorem rollBack (held : Held base streams t w.fs h.names) :
    Held base streams t (h.rollBack w).world.fs (h.rollBack w).handle.names := by
  have built := held.built
  have ended := h.rollingBack w
  generalize h.rollBack w = r at ended
  cases ended with
  | idle idle => exact held
  | removed pending removed =>
    exact held.closed (built.closed pending) rfl rfl
      (by rw [Handle.endCycleFs]; exact Nat.le_of_eq (Files.removeSize removed).symm)
  | vanished pending refused =>
    exact held.closed (built.closed pending) rfl rfl (by rw [Handle.endCycleFs]; exact Nat.le_refl _)
  | kept pending refused other => exact held

theorem spoiled {names : Names} (held : Held base streams t w.fs names) {staging based : Except Errno Unit}
    {w₁ w₂ : World} (first : Handle.removeTarget names.staging w = (staging, w₁))
    (second : Handle.removeTarget names.base w₁ = (based, w₂)) :
    Held base streams { t with spoilt := true } w₂.fs names := by
  have size := Handle.removeTargetSize names.staging w
  have size' := Handle.removeTargetSize names.base w₁
  have lacking : ∀ {s}, Fs.Lacks base s w₁.fs → Fs.Lacks base s w₂.fs := by
    intro s lacks
    have still := Handle.removeTargetLacks lacks names.base
    rwa [second] at still
  rw [first] at size
  rw [second] at size'
  have bounded : Bounded streams { t with spoilt := true } w₂.fs :=
    held.bounded.later (.refl streams) (Nat.le_refl _) (Nat.le_of_eq (size'.trans size).symm)
  cases held with
  | idle built idle => exact .idle built idle bounded
  | writing s sound intact mine =>
    -- Nothing can keep the temp file from being removed, so what has failed is the base.
    have removed := (Handle.removeTargetIntact intact).symm.trans first
    cases removed
    exact .lost s rfl (lacking intact.erased) bounded
  | lost s spoilt lacks =>
    have still := Handle.removeTargetLacks lacks (Names.writing base s).staging
    rw [first] at still
    exact .lost s rfl (lacking still) bounded

theorem retire (held : Held base streams t w.fs h.names) :
    Held base streams (if (h.retire w).result ≠ .ok () then { t with spoilt := true } else t)
      (h.retire w).world.fs (h.retire w).handle.names := by
  have ended := h.retiring w
  generalize h.retire w = r at ended
  cases ended with
  | @kept staging based e w₁ w₂ first second failure =>
    have failed : (Except.error e : Except Errno Unit) ≠ .ok () := fun ok => by cases ok
    rw [if_pos failed]
    exact held.spoiled first second
  | @retired w₁ w₂ first second =>
    have size := Handle.removeTargetSize h.names.staging w
    have size' := Handle.removeTargetSize h.names.base w₁
    rw [first] at size
    rw [second] at size'
    obtain ⟨locks, events, released⟩ := h.releaseGuardWorld w₂
    rw [if_neg (fun failed => failed rfl), released]
    exact held.closed .retired rfl rfl (Nat.le_of_eq (size'.trans size).symm)

theorem begun {fs fs' : Fs} {names : Names} (held : Held base streams t fs names) (gains : Fs.Gains fs fs')
    {s : Suffix} {d : Ino} (home : fs'.Home (folderOf base) d)
    (proper : Path.Proper (folderOf base) (s.after (leafOf base)))
    (free : fs'.named? d (s.after (leafOf base)) = none) (write : fs'.permits d .write = true) :
    Held base streams t.begun (fs'.born d (s.after (leafOf base)) 0o600) (.writing base s) := by
  have old : ∀ x ∈ streams, x.cycle ≤ t.cycles ∧ x.writer.file.ino < fs'.nodes.size := fun x mem =>
    ⟨(held.bounded x mem).1, Nat.lt_of_lt_of_le (held.bounded x mem).2 gains.more⟩
  refine .writing s rfl (.born home proper free write) ?_ ?_
  · intro x mem
    obtain ⟨early, there⟩ := old x mem
    exact ⟨fun late => absurd (late ▸ early) (Nat.not_succ_le_self _), fun here => absurd here (Nat.ne_of_lt there)⟩
  · exact held.bounded.later (.refl streams) (Nat.le_succ _)
      (gains.more.trans (Fs.Gains.born home.dir free).more)

theorem start (held : Held base streams t w.fs h.names) :
    Held base streams
      (if h.isPending = false ∧ (h.openCycle w).handle.isPending = true then t.begun else t)
      (h.openCycle w).world.fs (h.openCycle w).handle.names := by
  cases pending : h.isPending with
  | true =>
    obtain ⟨temp, found⟩ := Option.isSome_iff_exists.mp pending
    have busy : h.openCycle w =
        ⟨.error .ebusy, h, w.logError s!"Write already in progress, tmp file:{temp}"⟩ := by
      rw [Handle.openCycle, found]
    rw [busy, if_neg (fun both => by cases both.1)]
    exact held
  | false =>
    have begun : Handle.Begun base h w (h.openCycle w) := Handle.openCycleBegun held.built
    generalize h.openCycle w = r at begun
    cases begun with
    | refused error names sink gains =>
      have idle : r.handle.isPending = false := by rw [Handle.isPending, names]; exact pending
      rw [if_neg (fun both => by rw [idle] at both; cases both.2)]
      have none : r.handle.names.temp? = none :=
        Option.isNone_iff_eq_none.mp (Option.isSome_eq_false_iff.mp idle)
      exact held.closed (names ▸ held.built) none rfl gains.more
    | opened s idle ok names sink gains home proper free write made =>
      have opened : r.handle.isPending = true := by rw [Handle.isPending, names]; rfl
      rw [if_pos ⟨rfl, opened⟩, made, names]
      exact held.begun gains home proper free write

theorem streaming {names : Names} (held : Held base streams t w.fs names) {temp : String}
    (pending : names.temp? = some temp) (sound : t.spoilt = false) (blank : t.staged = []) :
    Held base (streams ++ (Handle.openTemp temp w).1.toOption.toList.map (⟨t.cycles, ·⟩)) t
      (Handle.openTemp temp w).2.fs names := by
  cases held with
  | idle built idle => cases pending.symm.trans idle
  | lost s spoilt lacks => cases sound.symm.trans spoilt
  | @writing d i m s _ intact mine bounded =>
    cases pending
    rcases Handle.openTempIntact intact with ⟨e, failed, same⟩ | ⟨wr, opened, here, reworks⟩
    · rw [failed, same, Except.toOption, Option.toList, List.map_nil, List.append_nil]
      exact .writing s sound intact mine bounded
    · obtain ⟨m', intact'⟩ := intact.reworked reworks
      rw [opened, Except.toOption, Option.toList, List.map_singleton]
      refine .writing s sound (blank ▸ intact') ?_ ?_
      · intro x mem
        rcases List.mem_append.mp mem with old | new
        · exact mine x old
        · cases List.mem_singleton.mp new
          exact ⟨fun _ => here, fun _ => rfl⟩
      · intro x mem
        rw [reworks.poured.only.size]
        rcases List.mem_append.mp mem with old | new
        · exact bounded x old
        · cases List.mem_singleton.mp new
          exact ⟨Nat.le_refl _, here ▸ Fs.nodeBound intact.holds.file⟩

theorem startStream (held : Held base streams t w.fs h.names) (quiet : h.Quiet) {t' : Tally}
    (tally : t' = if h.isPending = false ∧ (h.openCycle w).handle.isPending = true then t.begun else t) :
    Held base (streams ++ (h.startWriteStream w).result.toOption.toList.map (⟨t'.cycles, ·⟩)) t'
      (h.startWriteStream w).world.fs (h.startWriteStream w).handle.names := by
  have started := held.start
  rw [← tally, ← Handle.startWriteFs quiet w] at started
  have result : (h.startWrite w).result = (h.openCycle w).result := rfl
  cases opened : (h.openCycle w).result with
  | error e =>
    rw [Handle.startWriteStreamRefused (result.trans opened), Except.toOption, Option.toList, List.map_nil,
      List.append_nil]
    exact started
  | ok temp =>
    obtain ⟨idle, recorded⟩ := Handle.openedTemp opened
    have pending : (h.openCycle w).handle.isPending = true := by
      rw [Handle.isPending, recorded]
      rfl
    rw [if_pos ⟨idle, pending⟩] at tally
    rw [Handle.startWriteStreamOpens (result.trans opened)]
    exact started.streaming recorded (tally ▸ rfl) (tally ▸ rfl)

end Held
end AtomicUpdate
