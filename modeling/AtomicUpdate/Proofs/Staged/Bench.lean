import AtomicUpdate.Proofs.Staged.Ending
import AtomicUpdate.Proofs.Staged.Spill

/-! A handle at work with the streams that it has given out, in whatever order. A tally is kept of its cycles:
how many have been opened, and what has been written into the temp file of the latest one since then. -/
namespace AtomicUpdate

structure Stream where
  cycle : Nat
  writer : Writer

structure Tally where
  cycles : Nat := 0
  staged : Bytes := []
  spoilt : Bool := false

structure Bench where
  handle : Handle
  world : World
  streams : List Stream := []
  tally : Tally := {}

inductive Bench.Turn
  | call (c : Call)
  | edit (e : Edit)
  | stream (k : Nat) (call : StreamCall)
  | others (w : World)

namespace Tally

def stage (t : Tally) (es : List Edit) : Tally := { t with staged := Edit.all es t.staged }

def begun (t : Tally) : Tally := { cycles := t.cycles + 1 }

def after (t : Tally) (c : Call) (h : Handle) (r : Ran Unit) : Tally :=
  if h.isPending = false ∧ r.handle.isPending = true then t.begun
  else if c = .delete ∧ r.result ≠ .ok () then { t with spoilt := true }
  else t

end Tally

namespace Bench

def opened (b : Bench) : Call → List Writer
  | .startWriteStream => (b.handle.startWriteStream b.world).result.toOption.toList
  | _ => []

def call (b : Bench) (c : Call) : Bench :=
  let r := c.perform b.handle b.world
  let tally := b.tally.after c b.handle r
  ⟨r.handle, r.world, b.streams ++ (b.opened c).map (⟨tally.cycles, ·⟩), tally⟩

def edit (b : Bench) (e : Edit) : Bench :=
  match b.handle.names.temp? with
  | none => b
  | some temp =>
      { b with
        world := b.world.withFs (e.perform (Path.ofString temp) b.world.fs)
        tally := b.tally.stage [e] }

def stream (b : Bench) (k : Nat) (call : StreamCall) : Bench :=
  match b.streams[k]? with
  | none => b
  | some x =>
      let (left, world) := x.writer.call b.world call
      { b with
        world
        streams := b.streams.take k ++ left.toList.map (⟨x.cycle, ·⟩) ++ b.streams.drop (k + 1)
        tally := if x.cycle = b.tally.cycles then b.tally.stage (x.writer.edits call) else b.tally }

def turn (b : Bench) : Turn → Bench
  | .call c => b.call c
  | .edit e => b.edit e
  | .stream k call => b.stream k call
  | .others world => { b with world }

inductive Run (allowed : Bench → Turn → Prop) : Bench → Bench → Prop where
  | refl (b) : Run allowed b b
  | turn {b b'} (run : Run allowed b b') (t : Turn) (may : allowed b' t) : Run allowed b (b'.turn t)

def Undisturbed (b : Bench) : Turn → Prop
  | .others w => w.fs = b.world.fs
  | _ => True

structure Fresh (base : String) (b : Bench) : Prop where
  built : b.handle.names = .ofBase base
  quiet : b.handle.Quiet
  unopened : b.streams = []

end Bench

def Inherit (streams streams' : List Stream) : Prop :=
  ∀ y ∈ streams', ∃ x ∈ streams, x.cycle = y.cycle ∧ x.writer.file.ino = y.writer.file.ino

def Bounded (streams : List Stream) (t : Tally) (fs : Fs) : Prop :=
  ∀ x ∈ streams, x.cycle ≤ t.cycles ∧ x.writer.file.ino < fs.nodes.size

/-- What a handle for a base has staged. While its cycle is open the temp file is there with just the bytes
of the tally, and only the streams of that cycle write it; or a delete that failed has removed it. -/
inductive Held (base : String) (streams : List Stream) (t : Tally) (fs : Fs) : Names → Prop where
  | idle {names} (built : Handle.Over base names) (idle : names.temp? = none)
      (bounded : Bounded streams t fs) : Held base streams t fs names
  | writing {d i m} (s : Suffix) (sound : t.spoilt = false)
      (intact : Fs.Intact base s d i t.staged m fs)
      (mine : ∀ x ∈ streams, x.cycle = t.cycles ↔ x.writer.file.ino = i)
      (bounded : Bounded streams t fs) : Held base streams t fs (.writing base s)
  | lost (s : Suffix) (spoilt : t.spoilt = true) (lacks : Fs.Lacks base s fs)
      (bounded : Bounded streams t fs) : Held base streams t fs (.writing base s)

variable {base : String} {streams streams' : List Stream} {t t' : Tally} {fs fs' : Fs} {names : Names}

theorem Bounded.later (bounded : Bounded streams t fs) (inherit : Inherit streams streams')
    (cycles : t.cycles ≤ t'.cycles) (more : fs.nodes.size ≤ fs'.nodes.size) :
    Bounded streams' t' fs' := by
  intro y mem
  obtain ⟨x, mem', cycle, ino⟩ := inherit y mem
  obtain ⟨early, there⟩ := bounded x mem'
  exact ⟨cycle ▸ early.trans cycles, ino ▸ Nat.lt_of_lt_of_le there more⟩

theorem Inherit.refl (streams : List Stream) : Inherit streams streams :=
  fun y mem => ⟨y, mem, rfl, rfl⟩

theorem Inherit.called {k : Nat} {x : Stream} (is : streams[k]? = some x) {left : Option Writer}
    (same : ∀ wr ∈ left, wr.file.ino = x.writer.file.ino) :
    Inherit streams (streams.take k ++ left.toList.map (⟨x.cycle, ·⟩) ++ streams.drop (k + 1)) := by
  intro y mem
  rcases List.mem_append.mp mem with mem | after
  · rcases List.mem_append.mp mem with before | here
    · exact ⟨y, List.mem_of_mem_take before, rfl, rfl⟩
    · obtain ⟨wr, kept, rfl⟩ := List.mem_map.mp here
      exact ⟨x, List.mem_of_getElem? is, rfl, (same wr (Option.mem_toList.mp kept)).symm⟩
  · exact ⟨y, List.mem_of_mem_drop after, rfl, rfl⟩

namespace Held

theorem built (held : Held base streams t fs names) : Handle.Over base names := by
  cases held with
  | idle built idle bounded => exact built
  | writing s sound intact mine bounded => exact .writing s
  | lost s spoilt lacks bounded => exact .writing s

theorem bounded (held : Held base streams t fs names) : Bounded streams t fs := by
  cases held <;> assumption

theorem closed (held : Held base streams t fs names) {names' : Names} (built : Handle.Over base names')
    (idle : names'.temp? = none) (cycles : t'.cycles = t.cycles) (more : fs.nodes.size ≤ fs'.nodes.size) :
    Held base streams t' fs' names' :=
  .idle built idle (held.bounded.later (.refl streams) (Nat.le_of_eq cycles.symm) more)

theorem edited (held : Held base streams t fs names) {temp : String} (pending : names.temp? = some temp)
    (e : Edit) : Held base streams (t.stage [e]) (e.perform (Path.ofString temp) fs) names := by
  cases held with
  | idle built idle bounded =>
    rw [pending] at idle
    cases idle
  | @writing d i m s sound intact mine bounded =>
    cases pending
    obtain ⟨m', only, after, rights⟩ := e.performed intact.lookup intact.holds.file
    have reworks := Fs.Reworks.ofFile only intact.holds.file after rights
    obtain ⟨m'', intact'⟩ := intact.reworked reworks
    exact .writing s sound intact' mine
      (bounded.later (.refl streams) (Nat.le_refl _) (Nat.le_of_eq only.size.symm))
  | lost s spoilt lacks bounded =>
    cases pending
    have same : e.perform (Path.ofString (Template.fill (Template.stemOf base) s)) fs = fs := by
      unfold Edit.perform
      split
      · rfl
      · rename_i led
        exact absurd led (lacks.lookup _)
    rw [same]
    exact .lost s spoilt lacks bounded

theorem streamed {w : World} (held : Held base streams t w.fs names) {k : Nat} {x : Stream}
    (is : streams[k]? = some x) (call : StreamCall) :
    Held base
      (streams.take k ++ (x.writer.call w call).1.toList.map (⟨x.cycle, ·⟩) ++ streams.drop (k + 1))
      (if x.cycle = t.cycles then t.stage (x.writer.edits call) else t)
      (x.writer.call w call).2.fs names := by
  -- A stream of an earlier cycle has another file, which is why the tally may pass over it.
  have mem := List.mem_of_getElem? is
  obtain ⟨poured, same⟩ := x.writer.callPours w call
  have inherit := Inherit.called is same
  have cycles : (if x.cycle = t.cycles then t.stage (x.writer.edits call) else t).cycles = t.cycles := by
    split <;> rfl
  have spoilt : (if x.cycle = t.cycles then t.stage (x.writer.edits call) else t).spoilt = t.spoilt := by
    split <;> rfl
  have bounded' := held.bounded.later inherit (Nat.le_of_eq cycles.symm)
    (Nat.le_of_eq poured.only.size.symm)
  cases held with
  | idle built idle bounded => exact .idle built idle bounded'
  | @writing d i m s sound intact mine bounded =>
    have mine' : ∀ y ∈ streams.take k ++ (x.writer.call w call).1.toList.map (⟨x.cycle, ·⟩) ++
        streams.drop (k + 1), y.cycle = (if x.cycle = t.cycles then t.stage (x.writer.edits call)
          else t).cycles ↔ y.writer.file.ino = i := by
      intro y among
      obtain ⟨z, mem', cycle, ino⟩ := inherit y among
      rw [cycles, ← cycle, ← ino]
      exact mine z mem'
    have intact' : ∃ m', Fs.Intact base s d i
        (if x.cycle = t.cycles then t.stage (x.writer.edits call) else t).staged m'
        (x.writer.call w call).2.fs := by
      by_cases current : x.cycle = t.cycles
      · rw [if_pos current]
        have here := (mine x mem).mp current
        have reworks := Writer.callReworks (here ▸ intact.holds.file) call
        exact intact.reworked (here ▸ reworks)
      · rw [if_neg current]
        exact ⟨m, intact.beside poured fun here => current ((mine x mem).mpr here.symm)⟩
    obtain ⟨m', intact'⟩ := intact'
    exact .writing s (spoilt.trans sound) intact' mine' bounded'
  | lost s gone lacks bounded =>
    exact .lost s (spoilt.trans gone) (lacks.alike poured.alike) bounded'

end Held
end AtomicUpdate
