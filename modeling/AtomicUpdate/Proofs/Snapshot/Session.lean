import AtomicUpdate.Handle.Snapshot
import Mathlib.Data.List.Basic

/-! What somebody reads from an open file in the course of time. Whichever calls are made, what has been
delivered and what is buffered make up together what stands before the position in the file. -/
namespace AtomicUpdate

inductive Source
  | buffered (r : Reader)
  | bare (f : OpenFile)
  deriving DecidableEq, Repr

namespace Source

def file : Source → OpenFile
  | .buffered r => r.file
  | .bare f => f

def buffer : Source → Bytes
  | .buffered r => r.buffer
  | .bare _ => []

def read (fs : Fs) (count : Nat) : Source → Except Errno (Bytes × Source)
  | .buffered r => (r.read fs count).map fun (bytes, r) => (bytes, .buffered r)
  | .bare f => (f.read fs count).map fun (bytes, f) => (bytes, .bare f)

def rest (fs : Fs) : Source → Except Errno (Bytes × Source)
  | .buffered r => (r.readAll fs).map fun (bytes, r) => (bytes, .buffered r)
  | .bare f => (f.readAll fs).map fun (bytes, f) => (bytes, .bare f)

def lines (fs : Fs) : Source → Except Errno (List Bytes × Source)
  | .buffered r => (r.lines fs).map fun (lines, r) => (lines, .buffered r)
  | .bare f => (f.readAll fs).map fun (bytes, f) => (Reader.splitLines bytes, .bare f)

def fill (fs : Fs) : Source → Except Errno (Bool × Source)
  | .buffered r => (r.fill fs).map fun r => (r.buffer.isEmpty, .buffered r)
  | .bare f => .ok (false, .bare f)

def consume (count : Nat) : Source → Bytes × Source
  | .buffered r => (r.buffer.take count, .buffered (r.consume count))
  | .bare f => ([], .bare f)

end Source

inductive ReadCall
  | read (count : Nat)
  | fill
  | consume (count : Nat)
  | lines
  | rest
  deriving DecidableEq, Repr

structure Session where
  source : Source
  delivered : Bytes := []
  ended : Bool := false
  deriving DecidableEq, Repr

namespace Session

def gave (x : Session) (source : Source) (bytes : Bytes) (last : Bool) : Session :=
  ⟨source, x.delivered ++ bytes, x.ended || last⟩

def call (x : Session) (fs : Fs) : ReadCall → Except Errno Session
  | .read count => do
      let (bytes, source) ← x.source.read fs count
      .ok (x.gave source bytes (0 < count && bytes.isEmpty))
  | .fill => do
      let (dry, source) ← x.source.fill fs
      .ok (x.gave source [] dry)
  | .consume count =>
      let (bytes, source) := x.source.consume count
      .ok (x.gave source bytes false)
  | .lines => do
      let (lines, source) ← x.source.lines fs
      .ok (x.gave source lines.flatten true)
  | .rest => do
      let (bytes, source) ← x.source.rest fs
      .ok (x.gave source bytes true)

end Session

structure Source.Follows (c : Bytes) (i : Ino) (delivered : Bytes) (s : Source) : Prop where
  ino : s.file.ino = i
  bytes : delivered ++ s.buffer = c.take s.file.pos

structure Session.Faithful (c : Bytes) (i : Ino) (x : Session) : Prop where
  follows : x.source.Follows c i x.delivered
  whole : x.ended = true → x.delivered = c

variable {c : Bytes} {i : Ino} {fs : Fs} {m : Nat}

theorem OpenFile.readOn {f : OpenFile} (file : fs.node? f.ino = some (.file c m)) (count : Nat) :
    ∃ bytes f', f.read fs count = .ok (bytes, f') ∧ f'.ino = f.ino ∧
      c.take f.pos ++ bytes = c.take f'.pos ∧ bytes = (c.drop f.pos).take count := by
  refine ⟨_, _, readFile file count, rfl, ?_, rfl⟩
  dsimp only
  rw [List.take_add, List.append_cancel_left_eq, List.length_take, List.take_eq_take_iff]
  omega

theorem OpenFile.readOut {f : OpenFile} (file : fs.node? f.ino = some (.file c m)) :
    ∃ bytes f', f.readAll fs = .ok (bytes, f') ∧ f'.ino = f.ino ∧ c.take f.pos ++ bytes = c ∧
      c.take f'.pos = c := by
  refine ⟨c.drop f.pos, { f with pos := f.pos + (c.drop f.pos).length }, ?_, rfl,
    List.take_append_drop _ _, ?_⟩
  · simp only [readAll, Fs.readRest, file]
    rfl
  · apply List.take_of_length_le
    rw [List.length_drop]
    dsimp only
    omega

theorem takeNone {c : Bytes} {pos count : Nat} (some' : 0 < count) (none : (c.drop pos).take count = []) :
    c.take pos = c := by
  apply List.take_of_length_le
  rcases List.take_eq_nil_iff.mp none with zero | past
  · omega
  · exact List.drop_eq_nil_iff.mp past

namespace Source
variable {s : Source} {d : Bytes}

theorem followsBare {f : OpenFile} : Follows c i d (.bare f) ↔ f.ino = i ∧ d = c.take f.pos :=
  ⟨fun ⟨ino, bytes⟩ => ⟨ino, (List.append_nil d).symm.trans bytes⟩,
    fun ⟨ino, bytes⟩ => ⟨ino, (List.append_nil d).trans bytes⟩⟩

theorem followsBuffered {r : Reader} :
    Follows c i d (.buffered r) ↔ r.file.ino = i ∧ d ++ r.buffer = c.take r.file.pos :=
  ⟨fun ⟨ino, bytes⟩ => ⟨ino, bytes⟩, fun ⟨ino, bytes⟩ => ⟨ino, bytes⟩⟩

namespace Follows

theorem fillBuffer {r : Reader} (follows : Follows c i d (.buffered r))
    (file : fs.node? i = some (.file c m)) : ∃ r', r.fill fs = .ok r' ∧ Follows c i d (.buffered r') ∧
      (r'.buffer = [] → d = c) := by
  obtain ⟨rfl, before⟩ := followsBuffered.mp follows
  by_cases empty : r.buffer = []
  · rw [empty, List.append_nil] at before
    obtain ⟨more, f', got, ino, on, taken⟩ := OpenFile.readOn file Limits.streamBuffer
    refine ⟨{ r with file := f', buffer := more }, ?_, followsBuffered.mpr ⟨ino, ?_⟩, fun none => ?_⟩
    · rw [Reader.fill, if_pos (by simpa using empty), Reader.pull, got]
      rfl
    · rw [before]
      exact on
    · rw [before]
      exact takeNone (by decide) (taken.symm.trans none)
  · refine ⟨r, ?_, follows, fun none => absurd none empty⟩
    rw [Reader.fill, if_neg (by simpa using empty)]

theorem straight {f : OpenFile} (file : fs.node? f.ino = some (.file c m)) (before : d = c.take f.pos)
    (count : Nat) : ∃ bytes f', f.read fs count = .ok (bytes, f') ∧ f'.ino = f.ino ∧
      d ++ bytes = c.take f'.pos ∧ (0 < count → bytes = [] → d ++ bytes = c) := by
  obtain ⟨bytes, f', got, ino, on, taken⟩ := OpenFile.readOn file count
  refine ⟨bytes, f', got, ino, before ▸ on, fun some' none => ?_⟩
  rw [none, List.append_nil, before]
  exact takeNone some' (taken.symm.trans none)

theorem read (follows : s.Follows c i d) (file : fs.node? i = some (.file c m)) (count : Nat) :
    ∃ bytes s', s.read fs count = .ok (bytes, s') ∧ s'.Follows c i (d ++ bytes) ∧
      (0 < count → bytes = [] → d ++ bytes = c) := by
  cases s with
  | bare f =>
    obtain ⟨rfl, before⟩ := followsBare.mp follows
    obtain ⟨bytes, f', got, ino, on, last⟩ := straight file before count
    refine ⟨bytes, .bare f', ?_, followsBare.mpr ⟨ino, on⟩, last⟩
    rw [Source.read, got]
    rfl
  | buffered r =>
    by_cases large : r.buffer = [] ∧ Limits.streamBuffer ≤ count
    · obtain ⟨rfl, before⟩ := followsBuffered.mp follows
      rw [large.1, List.append_nil] at before
      obtain ⟨bytes, f', got, ino, on, last⟩ := straight file before count
      refine ⟨bytes, .buffered { r with file := f' }, ?_, followsBuffered.mpr ⟨ino, ?_⟩, last⟩
      · rw [Source.read, Reader.read, if_pos (by simpa using large), Reader.pull, got]
        rfl
      · rw [large.1, List.append_nil]
        exact on
    · obtain ⟨r', filled, follows', last⟩ := follows.fillBuffer file
      obtain ⟨ino, before⟩ := followsBuffered.mp follows'
      refine ⟨r'.buffer.take count, .buffered (r'.consume count), ?_, followsBuffered.mpr ⟨ino, ?_⟩,
        fun some' none => ?_⟩
      · rw [Source.read, Reader.read, if_neg (by simpa using large), filled]
        rfl
      · rw [Reader.consume, List.append_assoc, List.take_append_drop]
        exact before
      · rw [none, List.append_nil]
        rcases List.take_eq_nil_iff.mp none with zero | empty
        · omega
        · exact last empty

theorem rest (follows : s.Follows c i d) (file : fs.node? i = some (.file c m)) :
    ∃ bytes s', s.rest fs = .ok (bytes, s') ∧ s'.Follows c i (d ++ bytes) ∧ d ++ bytes = c := by
  cases s with
  | bare f =>
    obtain ⟨rfl, before⟩ := followsBare.mp follows
    obtain ⟨bytes, f', got, ino, on, last⟩ := OpenFile.readOut file
    rw [← before] at on
    refine ⟨bytes, .bare f', ?_, followsBare.mpr ⟨ino, on.trans last.symm⟩, on⟩
    rw [Source.rest, got]
    rfl
  | buffered r =>
    obtain ⟨rfl, before⟩ := followsBuffered.mp follows
    obtain ⟨bytes, f', got, ino, on, last⟩ := OpenFile.readOut file
    rw [← before, List.append_assoc] at on
    refine ⟨r.buffer ++ bytes, .buffered { r with file := f', buffer := [] }, ?_,
      followsBuffered.mpr ⟨ino, ?_⟩, on⟩
    · rw [Source.rest, Reader.readAll, got]
      rfl
    · rw [List.append_nil]
      exact on.trans last.symm

theorem linesOfRest {bytes : Bytes} {s' : Source} (ok : s.rest fs = .ok (bytes, s')) :
    s.lines fs = .ok (Reader.splitLines bytes, s') := by
  cases s with
  | bare f =>
    rw [Source.rest] at ok
    rw [Source.lines]
    cases read : f.readAll fs with
    | error e => rw [read] at ok; cases ok
    | ok got =>
      rw [read] at ok
      cases ok
      rfl
  | buffered r =>
    rw [Source.rest] at ok
    rw [Source.lines, Reader.lines]
    cases read : r.readAll fs with
    | error e => rw [read] at ok; cases ok
    | ok got =>
      rw [read] at ok
      cases ok
      rfl

theorem fill (follows : s.Follows c i d) (file : fs.node? i = some (.file c m)) :
    ∃ dry s', s.fill fs = .ok (dry, s') ∧ s'.Follows c i d ∧ (dry = true → d = c) := by
  cases s with
  | bare f => exact ⟨false, .bare f, rfl, follows, fun wrong => by cases wrong⟩
  | buffered r =>
    obtain ⟨r', filled, follows', last⟩ := follows.fillBuffer file
    refine ⟨r'.buffer.isEmpty, .buffered r', ?_, follows', fun dry => last (by simpa using dry)⟩
    rw [Source.fill, filled]
    rfl

theorem consume (follows : s.Follows c i d) (count : Nat) :
    (s.consume count).2.Follows c i (d ++ (s.consume count).1) := by
  cases s with
  | bare f =>
    obtain ⟨ino, before⟩ := followsBare.mp follows
    exact followsBare.mpr ⟨ino, (List.append_nil d).trans before⟩
  | buffered r =>
    obtain ⟨ino, before⟩ := followsBuffered.mp follows
    refine followsBuffered.mpr ⟨ino, ?_⟩
    change d ++ r.buffer.take count ++ r.buffer.drop count = _
    rw [List.append_assoc, List.take_append_drop]
    exact before

theorem within (follows : s.Follows c i d) : d <+: c :=
  (List.prefix_append d s.buffer).trans (follows.bytes ▸ List.take_prefix _ c)

end Follows
end Source

namespace Session
variable {x : Session}

theorem Faithful.gave (faithful : x.Faithful c i) {s : Source} {bytes : Bytes} {last : Bool}
    (follows : s.Follows c i (x.delivered ++ bytes))
    (whole : last = true → x.delivered ++ bytes = c) : (x.gave s bytes last).Faithful c i where
  follows := follows
  whole := by
    intro ended
    rcases Bool.or_eq_true_iff.mp ended with before | now
    · have within := follows.within
      rw [faithful.whole before] at within
      change x.delivered ++ bytes = c
      rw [faithful.whole before]
      exact within.eq_of_length_le (by simp)
    · exact whole now

theorem Faithful.call (faithful : x.Faithful c i) (file : fs.node? i = some (.file c m))
    (call : ReadCall) : ∃ x', x.call fs call = .ok x' ∧ x'.Faithful c i := by
  have follows := faithful.follows
  cases call with
  | read count =>
    obtain ⟨bytes, s', got, follows', last⟩ := follows.read file count
    refine ⟨x.gave s' bytes (0 < count && bytes.isEmpty), ?_, faithful.gave follows' fun ended => ?_⟩
    · rw [Session.call, got]
      rfl
    · rw [Bool.and_eq_true, decide_eq_true_eq, List.isEmpty_iff] at ended
      exact last ended.1 ended.2
  | fill =>
    obtain ⟨dry, s', got, follows', last⟩ := follows.fill file
    refine ⟨x.gave s' [] dry, ?_, faithful.gave ?_ fun ended => ?_⟩
    · rw [Session.call, got]
      rfl
    · rw [List.append_nil]
      exact follows'
    · rw [List.append_nil]
      exact last ended
  | consume count =>
    exact ⟨_, rfl, faithful.gave (follows.consume count) fun wrong => by cases wrong⟩
  | lines =>
    obtain ⟨bytes, s', got, follows', whole⟩ := follows.rest file
    refine ⟨x.gave s' bytes true, ?_, faithful.gave follows' fun _ => whole⟩
    rw [Session.call, Source.Follows.linesOfRest got]
    change Except.ok (x.gave s' (Reader.splitLines bytes).flatten true) = _
    rw [Reader.joinLines]
  | rest =>
    obtain ⟨bytes, s', got, follows', whole⟩ := follows.rest file
    refine ⟨x.gave s' bytes true, ?_, faithful.gave follows' fun _ => whole⟩
    rw [Session.call, got]
    rfl

end Session
end AtomicUpdate
