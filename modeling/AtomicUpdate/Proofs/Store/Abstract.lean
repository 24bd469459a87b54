import AtomicUpdate.Proofs.Store.Read
import Mathlib.Logic.Function.Basic

/-! Handles that share a world, and the store that they are meant to be: the bytes that are committed,
and for each handle the bytes that it has staged. -/
namespace AtomicUpdate

structure System (ι : Type) where
  handles : ι → Handle
  world : World

inductive Op (ι : Type)
  | startWrite (h : ι)
  | edit (h : ι) (e : Edit)
  | finishWrite (h : ι)
  | failWrite (h : ι)
  | delete (h : ι)
  | readFully (h : ι)
  | openRead (h : ι)
  | wait (ms : Nat)
  deriving DecidableEq

inductive Answer
  | told (result : Except Errno Unit)
  | gave (result : Except Errno Bytes)
  | silent
  deriving DecidableEq

namespace System
variable {ι : Type} [DecidableEq ι]

def put {α : Type} (s : System ι) (h : ι) (r : Ran α) : System ι :=
  ⟨Function.update s.handles h r.handle, r.world⟩

def edit (s : System ι) (h : ι) (e : Edit) : System ι :=
  match (s.handles h).names.temp? with
  | none => s
  | some temp => { s with world := s.world.withFs (e.perform (Path.ofString temp) s.world.fs) }

def perform (s : System ι) : Op ι → Answer × System ι
  | .startWrite h =>
      let r := (s.handles h).startWrite s.world
      (.told (r.result.map fun _ => ()), s.put h r)
  | .edit h e => (.silent, s.edit h e)
  | .finishWrite h =>
      let r := (s.handles h).finishWrite s.world
      (.told r.result, s.put h r)
  | .failWrite h =>
      let r := (s.handles h).failWrite s.world
      (.told r.result, s.put h r)
  | .delete h =>
      let r := (s.handles h).delete s.world
      (.told r.result, s.put h r)
  | .readFully h =>
      let r := (s.handles h).readFully s.world
      (.gave r.result, s.put h r)
  | .openRead h =>
      let r := (s.handles h).openRead s.world
      (.gave (Handle.openAnswer r), s.put h r)
  | .wait ms => (.silent, { s with world := s.world.wait ms })

def performAll (s : System ι) : List (Op ι) → List (Op ι × Answer) × System ι
  | [] => ([], s)
  | op :: ops =>
      let (answer, s) := s.perform op
      let (rest, s) := s.performAll ops
      ((op, answer) :: rest, s)

end System

structure Store (ι : Type) where
  committed : Option Bytes
  staged : ι → Option Bytes
  retired : ι → Bool

structure Terms (ι : Type) where
  /-- The directory may not be listed or written, or the base at first not be written. -/
  barred : Prop
  /-- Renames of a handle are told to cross devices, and it does not copy instead. -/
  crossed : ι → Prop

namespace Store
variable {ι : Type} [DecidableEq ι]

def of (base : String) (s : System ι) : Store ι where
  committed := s.world.fs.contents? (Path.ofString base)
  staged h := (s.handles h).names.temp?.bind fun temp => s.world.fs.contents? (Path.ofString temp)
  retired h := (s.handles h).names = .retired

def stage (σ : Store ι) (h : ι) (bytes : Option Bytes) : Store ι :=
  { σ with staged := Function.update σ.staged h bytes }

def discard (σ : Store ι) (h : ι) : Store ι where
  committed := none
  staged := Function.update σ.staged h none
  retired := Function.update σ.retired h true

inductive Step (t : Terms ι) (σ : Store ι) : Op ι → Answer → Store ι → Prop where
  | started {h} (idle : σ.staged h = none) (live : σ.retired h = false) :
      Step t σ (.startWrite h) (.told (.ok ())) (σ.stage h (some []))
  | busy {h c} (staged : σ.staged h = some c) :
      Step t σ (.startWrite h) (.told (.error .ebusy)) σ
  | notStarted {h e} (idle : σ.staged h = none) : Step t σ (.startWrite h) (.told (.error e)) σ
  | edited {h e c} (staged : σ.staged h = some c) :
      Step t σ (.edit h e) .silent (σ.stage h (some (e.apply c)))
  | notEdited {h e} (idle : σ.staged h = none) : Step t σ (.edit h e) .silent σ
  | committed {h c} (staged : σ.staged h = some c) (free : ¬ t.crossed h) :
      Step t σ (.finishWrite h) (.told (.ok ())) { σ.stage h none with committed := some c }
  | crossed {h c} (staged : σ.staged h = some c) (crossed : t.crossed h) :
      Step t σ (.finishWrite h) (.told (.error .exdev)) σ
  | notCommitted {h c e} (staged : σ.staged h = some c) (barred : t.barred) :
      Step t σ (.finishWrite h) (.told (.error e)) σ
  | nothingToCommit {h} (idle : σ.staged h = none) :
      Step t σ (.finishWrite h) (.told (.error .enoent)) σ
  | rolledBack {h c} (staged : σ.staged h = some c) :
      Step t σ (.failWrite h) (.told (.ok ())) (σ.stage h none)
  | nothingToRollBack {h} (idle : σ.staged h = none) :
      Step t σ (.failWrite h) (.told (.error .enoent)) σ
  | deleted {h} (live : σ.retired h = false) : Step t σ (.delete h) (.told (.ok ())) (σ.discard h)
  | deletedAgain {h} (retired : σ.retired h = true) : Step t σ (.delete h) (.told (.ok ())) σ
  | notDeleted {h e} (live : σ.retired h = false) (barred : t.barred) :
      Step t σ (.delete h) (.told (.error e)) σ
  | read {h} (live : σ.retired h = false) : Step t σ (.readFully h) (.gave (wholeOf σ.committed)) σ
  | readNothing {h} (retired : σ.retired h = true) :
      Step t σ (.readFully h) (.gave (.error .enoent)) σ
  | opened {h} (live : σ.retired h = false) : Step t σ (.openRead h) (.gave (openedOf σ.committed)) σ
  | openedNothing {h} (retired : σ.retired h = true) :
      Step t σ (.openRead h) (.gave (.error .enoent)) σ
  | waited {ms} : Step t σ (.wait ms) .silent σ

inductive Run (t : Terms ι) : Store ι → List (Op ι × Answer) → Store ι → Prop where
  | nil {σ} : Run t σ [] σ
  | cons {σ σ' σ'' op answer rest} (step : Step t σ op answer σ') (more : Run t σ' rest σ'') :
      Run t σ ((op, answer) :: rest) σ''

end Store
end AtomicUpdate
