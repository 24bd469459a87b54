import AtomicUpdate.Proofs.Handle.Reading
import AtomicUpdate.Proofs.Lock.Respite

/-! A cycle from its start to its end, with everybody else at work in between. Nothing but the temp file
changes if nobody deletes: the base is the same file with the same bytes, and to read it gives the same. -/
namespace AtomicUpdate
open Fs (Likens)

namespace Handle
variable {h : Handle} {w : World}

theorem beginBusy (quiet : h.Quiet) {temp : String} (pending : h.names.temp? = some temp) :
    ((h.beginWrite w).turn h).party = .handle h ∧ ((h.beginWrite w).turn h).world.fs = w.fs := by
  have busy : ((h.startWrite w).handle = h) ∧ (h.startWrite w).world.fs = w.fs := by
    have kept := startWriteFs quiet w
    have handle : (h.startWrite w).handle = (h.openCycle w).handle := rfl
    rw [openCycle, pending] at kept handle
    exact ⟨handle, kept⟩
  unfold beginWrite
  split
  · rename_i idle _
    rw [pending] at idle
    cases idle
  · exact ⟨congrArg Party.handle busy.1, busy.2⟩

end Handle

theorem Party.tempInside {party : Party} {temp : String} (pending : party.temp? = some temp) :
    party.Inside := by
  cases party with
  | handle h =>
    change h.names.temp?.isSome = true
    rw [show h.names.temp? = some temp from pending]
    rfl
  | _ => cases pending

theorem Party.Inside.stays {p : Path} {party : Party} {w : World} (inside : party.Inside)
    (orderly : party.Orderly p w) (quiet : party.Quiet) {a : Act} (kept : a ≠ .delete)
    (open' : a ≠ .finish ∧ a ≠ .fail ∧ a ≠ .drop) :
    (party.act p w a).party = party ∧ (party.act p w a).world.fs = w.fs := by
  obtain ⟨unfinished, unfailed, undropped⟩ := open'
  cases a with
  | finish => exact absurd rfl unfinished
  | fail => exact absurd rfl unfailed
  | drop => exact absurd rfl undropped
  | delete => exact absurd rfl kept
  | make h => cases party <;> first | exact ⟨rfl, rfl⟩ | cases inside
  | ask timeout => cases party <;> first | exact ⟨rfl, rfl⟩ | cases inside
  | start =>
    cases party with
    | handle h =>
      obtain ⟨temp, pending⟩ := Option.isSome_iff_exists.mp inside
      exact Handle.beginBusy quiet pending
    | holding g => exact ⟨rfl, rfl⟩
    | opening h x => exact ⟨rfl, rfl⟩
    | absent => cases inside
    | asking timeout x => cases inside
  | poll =>
    cases party with
    | opening h x =>
      have idle := orderly.2.2.1
      rw [show h.isPending = true from inside] at idle
      cases idle
    | handle h => exact ⟨rfl, rfl⟩
    | holding g => exact ⟨rfl, rfl⟩
    | absent => cases inside
    | asking timeout x => cases inside

namespace Contest
variable {ι : Type} {base : String} {s s' : Contest ι} {i : ι}

structure Resting (i : ι) (s s' : Contest ι) : Prop where
  party : s'.parties i = s.parties i
  worded : Fs.Worded ((s.parties i).staged? s.world.fs) s.world.fs s'.world.fs

theorem Resting.staged (resting : Resting i s s') :
    (s'.parties i).staged? s'.world.fs = (s.parties i).staged? s.world.fs := by
  rw [resting.party, Party.staged?, Party.staged?]
  simp only [resting.worded.likens.alike.lookup]

variable [DecidableEq ι]

theorem Civil.rests {p : Path} (civil : s.Civil p) (inside : (s.parties i).Inside) {t : Stir ι}
    (reads : ∀ j c, t = .read j c → c.reads = true) (calm : t.Calm i) : Resting i s (s.stir p t) := by
  have still : ∀ {s' : Contest ι}, s'.parties i = s.parties i → s'.world.fs = s.world.fs → Resting i s s' :=
    fun party fs => ⟨party, fs ▸ .refl _ _⟩
  cases t with
  | act j a =>
    have kept : a ≠ .delete := by
      rintro rfl
      exact calm
    by_cases own : j = i
    · subst own
      have open' : a ≠ .finish ∧ a ≠ .fail ∧ a ≠ .drop := by
        refine ⟨?_, ?_, ?_⟩ <;>
        · rintro rfl
          exact calm rfl
      obtain ⟨party, fs⟩ := inside.stays (civil.orderly.each j) (civil.quiet j) kept open'
      exact still ((Function.update_self j _ s.parties).trans party) fs
    · exact still (Function.update_of_ne (Ne.symm own) _ s.parties) (civil.spares inside own kept)
  | read j c =>
    obtain ⟨owners, events, _, after⟩ := (civil.quiet j).readWorld (w := s.world) (reads j c rfl)
    refine still rfl ?_
    change ((s.parties j).read c s.world).fs = s.world.fs
    rw [after]
  | edit j e =>
    by_cases own : j = i
    · subst own
      exact ⟨rfl, (s.parties j).editWorded e s.world.fs⟩
    · refine still rfl ?_
      change (s.parties j).edit e s.world.fs = s.world.fs
      -- who has no cycle open has no temp file
      cases pending : (s.parties j).temp? with
      | none => rw [Party.edit, pending]
      | some temp => exact absurd (civil.orderly.alone (Party.tempInside pending) inside) own
  | pass ms => exact still rfl rfl

theorem Civil.resting (civil : s.Civil (lockOf base)) (inside : (s.parties i).Inside)
    (run : Stirred (lockOf base) (fun u t => u.Allowed base t ∧ t.Calm i) s s') : Resting i s s' := by
  induction run with
  | refl => exact ⟨rfl, .refl _ _⟩
  | @stir u before t allowed ih =>
    have there : (u.parties i).Inside := ih.party ▸ inside
    have next := (civil.stirred And.left before).rests there
      (by rintro j c rfl; exact allowed.1) allowed.2
    exact ⟨next.party.trans ih.party, ih.worded.trans (ih.staged ▸ next.worded)⟩

theorem openedInside {p : Path} {party : Party} {w : World} (orderly : party.Orderly p w)
    (tidy : w.fs.Tidy) {a : Act} {temp : String} (told : (party.act p w a).answer = some (.ok temp)) :
    (party.act p w a).party.Inside := by
  rcases answered told with ⟨h, r, rfl, begun, result⟩ | ⟨h, x, r, rfl, polled, result, after⟩
  · obtain ⟨_, _, e, failed, _⟩ := Handle.beginEnds orderly.1 tidy orderly.2.1 begun
    cases result.symm.trans failed
  · obtain ⟨settled, _⟩ := Handle.pollEnds tidy orderly.2.1 polled
    rw [after]
    cases settled with
    | opened ok names =>
      change r.handle.names.temp?.isSome = true
      rw [names]
      rfl
    | failed error => cases result.symm.trans error

/-- Handles of one base that lock the file beside it, in any order of their steps. From the step that answers
a start with a temp file the party is inside; while it is, what any other does changes no file, unless it
deletes, and the base stays what its readers found it to be until the party itself ends the cycle. -/
theorem cycleUntouched {s₀ : Contest ι} (vacant : s₀.Vacant)
    (run : Stirred (lockOf base) (Allowed base) s₀ s) (i : ι) :
    (∀ a temp, ((s.parties i).act (lockOf base) s.world a).answer = some (.ok temp) →
      ((s.stir (lockOf base) (.act i a)).parties i).Inside) ∧
    ((s.parties i).Inside →
      (∀ j a, j ≠ i → a ≠ .delete → (s.stir (lockOf base) (.act j a)).world.fs = s.world.fs) ∧
      (∀ j c, c.reads = true → (s.stir (lockOf base) (.read j c)).world.fs = s.world.fs) ∧
      ∀ s', Stirred (lockOf base) (fun u t => u.Allowed base t ∧ t.Calm i) s s' →
        s'.parties i = s.parties i ∧
        (s.world.fs.Elsewhere base ((s.parties i).staged? s.world.fs) →
          s'.world.fs.contents? (Path.ofString base) = s.world.fs.contents? (Path.ofString base) ∧
          ∀ h : Handle, h.names.base = base → h.Quiet →
            (h.readFully s'.world).result = (h.readFully s.world).result ∧
            Handle.openAnswer (h.openRead s'.world) = Handle.openAnswer (h.openRead s.world))) := by
  have civil := vacant.civil.stirred id run
  refine ⟨fun a temp told => ?_, fun inside => ⟨fun j a other kept => civil.spares inside other kept,
    fun j c reads => ?_, fun s' calm => ?_⟩⟩
  · have after := openedInside (civil.orderly.each i) civil.orderly.tidy told
    change (Function.update s.parties i _ i).Inside
    rw [Function.update_self]
    exact after
  · obtain ⟨owners, events, _, after⟩ := (civil.quiet j).readWorld (w := s.world) reads
    change ((s.parties j).read c s.world).fs = s.world.fs
    rw [after]
  · have resting := civil.resting inside calm
    refine ⟨resting.party, fun elsewhere => ⟨?_, fun h based quiet => ?_⟩⟩
    · exact resting.worded.contents fun i led => elsewhere i (Or.inl led)
    · subst based
      exact ⟨Handle.rereads resting.worded elsewhere, Handle.reopens resting.worded elsewhere quiet⟩

def around (entries : List (String × Node)) : Contest Bool where
  parties _ := .absent
  world := { fs := {
    nodes := #[
      .dir ⟨("dev".toUTF8.data.toList, 1) ::
        entries.mapIdx fun k e => (e.1.toUTF8.data.toList, 4 + k)⟩ 0 0o755,
      .dir ⟨[("null".toUTF8.data.toList, 2), ("full".toUTF8.data.toList, 3)]⟩ 0 0o755,
      .device .null,
      .device .full] ++ (entries.map (·.2)).toArray
    root := 0
    cwd := 0 } }

def stirs (p : Path) (s : Contest ι) (ts : List (Stir ι)) : Contest ι := ts.foldl (stir p) s

def opens : List (Stir Bool) :=
  [.act true (.make writer), .act false (.make writer), .act true .start, .act true .poll]

theorem opensAllowed (s : Contest Bool) :
    Stirred (lockOf "f") (Allowed "f") s (stirs (lockOf "f") s opens) := by
  have made : ∀ h, Act.make writer = .make h → h.names = .ofBase "f" ∧ h.Quiet := by
    rintro _ ⟨⟩
    exact ⟨rfl, fun _ _ => rfl⟩
  have heedful : writer.Heedful (lockOf "f") := fun _ _ tidy => Fs.Minds.refl _ tidy
  refine .stir (.stir (.stir (.stir (.refl s) (.act true (.make writer)) ?_) (.act false (.make writer)) ?_)
    (.act true .start) ⟨trivial, fun _ => nofun⟩) (.act true .poll) ⟨trivial, fun _ => nofun⟩
  · exact ⟨⟨rfl, rfl, rfl, heedful⟩, made⟩
  · exact ⟨⟨rfl, rfl, rfl, heedful⟩, made⟩

theorem untouchedByWaiting :
    let s₀ := around [("f", .file [1] 0o600)]
    let opened := stirs (lockOf "f") s₀ opens
    let after := stirs (lockOf "f") opened
      [.edit true (.put 0 [2, 3]), .read false .readFully, .act false .start, .act false .poll]
    s₀.Vacant ∧ (opened.parties true).Inside ∧ (writer.readFully opened.world).result = .ok [1] ∧
      after.parties true = opened.parties true ∧ (writer.readFully after.world).result = .ok [1] ∧
      (opened.stir (lockOf "f") (.act false .start)).world.fs = opened.world.fs := by
  intro s₀ opened after
  have kept : ∀ node ∈ s₀.world.fs.nodes.toList, node.WellKept s₀.world.fs.nodes.size := by decide +kernel
  have vacant : s₀.Vacant :=
    ⟨fun _ => rfl, (Fs.tidyOf kept).1, fun _ mem => absurd mem List.not_mem_nil⟩
  have inside : (opened.parties true).Inside := by decide +kernel
  have read : (writer.readFully opened.world).result = .ok [1] := by decide +kernel
  have calm : Stirred (lockOf "f") (fun u t => u.Allowed "f" t ∧ t.Calm true) opened after := by
    refine .stir (.stir (.stir (.stir (.refl opened) (.edit true (.put 0 [2, 3])) ⟨trivial, trivial⟩)
      (.read false .readFully) ⟨rfl, trivial⟩) (.act false .start) ?_) (.act false .poll) ?_
    · exact ⟨⟨trivial, fun _ => nofun⟩, trivial⟩
    · exact ⟨⟨trivial, fun _ => nofun⟩, trivial⟩
  have elsewhere : opened.world.fs.Elsewhere "f" ((opened.parties true).staged? opened.world.fs) := by
    have staged : (opened.parties true).staged? opened.world.fs = some 6 := by decide +kernel
    have led : opened.world.fs.lookup (Path.ofString "f") = .ok 4 := by decide +kernel
    have way : Files.canonical opened.world.fs (Path.ofString "f") = .ok (Path.ofString "/f") := by
      decide +kernel
    have led' : opened.world.fs.lookup (Path.ofString "/f") = .ok 4 := by decide +kernel
    rintro i (here | ⟨q, there, here⟩) same
    · cases led.symm.trans here
      cases staged.symm.trans same
    · cases way.symm.trans there
      cases led'.symm.trans here
      cases staged.symm.trans same
  obtain ⟨_, during⟩ := cycleUntouched vacant (opensAllowed s₀) true
  obtain ⟨others, _, rest⟩ := during inside
  obtain ⟨same, reads⟩ := rest after calm
  exact ⟨vacant, inside, read, same, ((reads elsewhere).2 writer rfl fun _ _ => rfl).1.trans read,
    others false .start nofun nofun⟩

/-- A handle without a cycle deletes the base in the other's cycle. Where the lock file is a link to the base,
a commit takes the lock with it, and the next one replaces the base in the other's cycle; and where the base is
a link to the temp file, it changes as that is written. -/
theorem changedBeneath :
    let f := Path.ofString "f"
    let fresh := around [("f", .file [1] 0o600)]
    let held := stirs (lockOf "f") fresh opens
    let twice := stirs (lockOf "f") (around [("f", .file [1] 0o600), ("f.lock", .link f)])
      (opens ++ [.act false .start, .act true .finish, .act false .poll, .act true .start, .act true .poll,
        .edit true (.put 0 [2])])
    let linked := stirs (lockOf "f") (around [("f", .link (Path.ofString "f_nreb0M"))]) opens
    (Stirred (lockOf "f") (Allowed "f") fresh held ∧ (held.parties true).Inside ∧
      held.Allowed "f" (.act false .delete) ∧
      held.world.fs.contents? f = some [1] ∧
      (held.stir (lockOf "f") (.act false .delete)).world.fs.contents? f = none) ∧
    ((twice.parties false).Inside ∧ twice.world.fs.contents? f = some [] ∧
      (twice.stir (lockOf "f") (.act true .finish)).world.fs.contents? f = some [2]) ∧
    (linked.parties true).Inside ∧ linked.world.fs.contents? f = some [] ∧
      (linked.stir (lockOf "f") (.edit true (.put 0 [2]))).world.fs.contents? f = some [2] := by
  intro f fresh held twice linked
  have clear : (held.parties false).Clear (lockOf "f") held.world.fs := by decide +kernel
  refine ⟨⟨opensAllowed fresh, ?_, ⟨clear, fun _ => nofun⟩, ?_⟩, ?_⟩ <;> decide +kernel

end Contest
end AtomicUpdate
