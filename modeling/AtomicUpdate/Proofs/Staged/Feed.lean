import AtomicUpdate.Proofs.Staged.Spill
import Mathlib.Data.List.Induction

/-! Feeding a stream. However the data are cut into calls, what the file has got and what is still buffered are,
one after the other, all that has been written. The buffer never holds more than its size, and a flush empties
it. -/
namespace AtomicUpdate
open Fs (Reworks)

inductive Feed
  | write (data : Bytes)
  | flush
  deriving DecidableEq, Repr

namespace Feed

def bytes : Feed → Bytes
  | .write data => data
  | .flush => []

def all (feeds : List Feed) : Bytes := feeds.flatMap bytes

end Feed

theorem Edit.putAtEnd (old data : Bytes) : (Edit.put old.length data).apply old = old ++ data := by
  change (if data = [] then old else Fs.overwrite old old.length data) = old ++ data
  split
  · rename_i none
    rw [none, List.append_nil]
  · simp [Fs.overwrite]

namespace Writer

def Stepped.feed (s : Stepped) : Feed → Stepped
  | .write data => s.writer.write s.fs data
  | .flush => s.writer.flush s.fs

def fed (wr : Writer) (fs : Fs) (feeds : List Feed) : Stepped :=
  feeds.foldl Stepped.feed ⟨.ok (), wr, fs⟩

structure Carries (i : Ino) (first : Fs) (done : Bytes) (wr : Writer) (fs : Fs) : Prop where
  ino : wr.file.ino = i
  file : Reworks i (fun _ => done) first fs
  pos : wr.file.pos = done.length
  small : wr.buffer.length ≤ Limits.streamBuffer

section
variable {i : Ino} {first fs : Fs} {b done : Bytes} {m : Nat} {wr : Writer}
  (start : first.node? i = some (.file b m))
include start

theorem Carries.push (carries : Carries i first done wr fs) (data : Bytes) :
    ∃ fs', wr.push fs data =
        ⟨.ok (), { wr with file := { wr.file with pos := wr.file.pos + data.length } }, fs'⟩ ∧
      Reworks i (fun _ => done ++ data) first fs' := by
  obtain ⟨rfl, file, pos, _⟩ := carries
  obtain ⟨m', there, _⟩ := file.file start
  obtain ⟨fs', pushed, reworks⟩ := pushReworks there data
  refine ⟨fs', pushed, (file.trans reworks).congr fun _ => ?_⟩
  change (Edit.put wr.file.pos data).apply done = done ++ data
  rw [pos, Edit.putAtEnd]

theorem Carries.flush (carries : Carries i first done wr fs) :
    ∃ fs', wr.flush fs = ⟨.ok (), wr.emptied, fs'⟩ ∧ Carries i first (done ++ wr.buffer) wr.emptied fs' := by
  by_cases none : wr.buffer = []
  · refine ⟨fs, ?_, ?_⟩
    · rw [Writer.flush, if_pos (by rw [none]; rfl), emptiedNone none]
    · rw [emptiedNone none, none, List.append_nil]
      exact carries
  · obtain ⟨fs', pushed, reworks⟩ := carries.push start wr.buffer
    refine ⟨fs', ?_, carries.ino, reworks, ?_, Nat.zero_le _⟩
    · rw [Writer.flush, if_neg (by simpa using none), pushed]
      rfl
    · rw [List.length_append, ← carries.pos]
      rfl

theorem Carries.write (carries : Carries i first done wr fs) (data : Bytes) :
    (wr.write fs data).result = .ok () ∧ ∃ done',
      Carries i first done' (wr.write fs data).writer (wr.write fs data).fs ∧
      done' ++ (wr.write fs data).writer.buffer = done ++ wr.buffer ++ data := by
  -- There is room for the data afterwards, or the buffer is empty and they are too many for it.
  have roomy : ∃ wr' fs' done', wr.makeRoom fs data = ⟨.ok (), wr', fs'⟩ ∧ Carries i first done' wr' fs' ∧
      done' ++ wr'.buffer = done ++ wr.buffer ∧
      (data.length < Limits.streamBuffer → wr'.buffer.length + data.length ≤ Limits.streamBuffer) ∧
      (Limits.streamBuffer ≤ data.length → wr'.buffer = []) := by
    unfold makeRoom
    split
    · obtain ⟨fs', flushed, carries'⟩ := carries.flush start
      refine ⟨_, fs', _, flushed, carries', List.append_nil _, fun few => ?_, fun _ => rfl⟩
      exact (Nat.zero_add _).trans_le (Nat.le_of_lt few)
    · rename_i fits
      refine ⟨wr, fs, done, rfl, carries, rfl, fun _ => Nat.not_lt.mp fits, fun many => ?_⟩
      exact List.eq_nil_of_length_eq_zero (by omega)
  obtain ⟨wr', fs', done', made, carries', whole, fits, none⟩ := roomy
  unfold Writer.write
  rw [made]
  dsimp only
  by_cases many : Limits.streamBuffer ≤ data.length
  · obtain ⟨fs'', pushed, reworks⟩ := carries'.push start data
    rw [if_pos many, pushed]
    refine ⟨rfl, done' ++ data, ⟨carries'.ino, reworks, ?_, carries'.small⟩, ?_⟩
    · rw [List.length_append, ← carries'.pos]
    · rw [none many, List.append_nil] at whole
      dsimp only
      rw [none many, List.append_nil, whole]
  · rw [if_neg many]
    refine ⟨rfl, done', ⟨carries'.ino, carries'.file, carries'.pos, ?_⟩, ?_⟩
    · dsimp only
      rw [List.length_append]
      exact fits (Nat.not_le.mp many)
    · rw [← List.append_assoc, whole]

theorem Carries.feeds (carries : Carries i first done wr fs) (feeds : List Feed) :
    (wr.fed fs feeds).result = .ok () ∧ ∃ done',
      Carries i first done' (wr.fed fs feeds).writer (wr.fed fs feeds).fs ∧
      done' ++ (wr.fed fs feeds).writer.buffer = done ++ wr.buffer ++ Feed.all feeds ∧
      (feeds.getLast? = some .flush → (wr.fed fs feeds).writer.buffer = []) := by
  induction feeds using List.reverseRecOn with
  | nil => exact ⟨rfl, done, carries, (List.append_nil _).symm, fun last => by cases last⟩
  | append_singleton feeds f ih =>
    obtain ⟨_, done', carries', whole, _⟩ := ih
    have next : wr.fed fs (feeds ++ [f]) = (wr.fed fs feeds).feed f := by rw [fed, List.foldl_append]; rfl
    have joined : Feed.all (feeds ++ [f]) = Feed.all feeds ++ f.bytes := by simp [Feed.all]
    rw [next, joined, ← List.append_assoc, ← whole, List.getLast?_concat]
    cases f with
    | write data =>
      obtain ⟨ok, done'', carries'', whole'⟩ := carries'.write start data
      exact ⟨ok, done'', carries'', whole', fun last => by cases last⟩
    | flush =>
      obtain ⟨fs', flushed, carries''⟩ := carries'.flush start
      rw [Stepped.feed, flushed]
      exact ⟨rfl, _, carries'', by rw [emptied, Feed.bytes], fun _ => rfl⟩

end

theorem Carries.ends {i : Ino} {b done : Bytes} {m : Nat} {first : Fs} {wr : Writer} {w : World}
    (start : first.node? i = some (.file b m)) (carries : Carries i first done wr w.fs) :
    Reworks i (fun _ => done ++ wr.buffer) first (wr.drop w).fs ∧ (wr.close w).1 = .ok () ∧
      Reworks i (fun _ => done ++ wr.buffer) first (wr.close w).2.fs := by
  obtain ⟨fs', flushed, carries'⟩ := carries.flush start
  obtain ⟨fs'', again, carries''⟩ := carries'.flush start
  refine ⟨?_, ?_, ?_⟩
  · change Reworks _ _ first (wr.flush w.fs).fs
    rw [flushed]
    exact carries'.file
  · rw [close, flushed]
  · rw [close, flushed]
    change Reworks _ _ first (wr.emptied.flush fs').fs
    rw [again]
    refine carries''.file.congr fun _ => ?_
    rw [emptied, List.append_nil]

end Writer
end AtomicUpdate
