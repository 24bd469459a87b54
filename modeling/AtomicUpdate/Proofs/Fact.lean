import AtomicUpdate.Handle.Basic
import AtomicUpdate.Proofs.Table
import Mathlib.Data.List.Nodup

/-! What a fact says. Its fields are what its draft was given, under every key what was given last, and the
envelope adds the keys that nobody gave. So no field that an operation tells is lost, and fields under
different keys may be told in any order. -/
namespace AtomicUpdate.Fact
open Json (Value)
open Table (findIn findAppend findNone)

inductive Step
  | path (p : String)
  | field (key : String) (value : Value)
  | error (f : Failure)

namespace Step

def perform (d : Draft) : Step → Draft
  | .path p => d.path p
  | .field key v => d.field key v
  | .error f => d.failure f

def writes : Step → List (String × Value)
  | .path p => [("path", .string p)]
  | .field key v => [(key, v)]
  | .error f =>
      [("errno", .int f.number), ("error_code", .int f.code), ("error_message", .string f.message)]

def keys (s : Step) : List String := s.writes.map (·.1)

theorem performFields (d : Draft) (s : Step) : (s.perform d).fields = d.fields.setAll s.writes := by
  cases s <;> rfl

theorem performStage (d : Draft) (s : Step) : (s.perform d).stage = d.stage := by
  cases s <;> rfl

theorem keysNodup (s : Step) : s.keys.Nodup := by
  cases s <;> simp [keys, writes]

end Step

namespace Draft

def after (stage : Stage) (steps : List Step) : Draft := steps.foldl Step.perform (start stage)

theorem afterStage (stage : Stage) (steps : List Step) : (after stage steps).stage = stage := by
  unfold after
  generalize same : start stage = d
  have given : d.stage = stage := by rw [← same]; rfl
  clear same
  induction steps generalizing d with
  | nil => exact given
  | cons s rest ih => exact ih (s.perform d) ((s.performStage d).trans given)

theorem foldFields (d : Draft) (steps : List Step) :
    (steps.foldl Step.perform d).fields = d.fields.setAll (steps.flatMap Step.writes) := by
  induction steps generalizing d with
  | nil => rfl
  | cons s rest ih =>
    rw [List.foldl_cons, ih, s.performFields, List.flatMap_cons, Table.setAllAppend]

end Draft

def envelope (decision : Decision) (time : String) : List (String × Value) :=
  [("schema_version", .int schemaVersion), ("ts", .string time), ("path", .string ""),
    ("decision", .string decision.text)]

def lastGiven (steps : List Step) (key : String) : Option Value :=
  findIn key (steps.flatMap Step.writes).reverse

def told (stage : Stage) (steps : List Step) (decision : Decision) (time : String) (key : String) :
    Option Value :=
  (lastGiven steps key).or ((findIn key [("stage", .string stage.event)]).or
    (findIn key (envelope decision time)))

theorem emitFields (d : Draft) (decision : Decision) (time : String) (key : String) :
    (d.emit decision time).fields.get? key = (d.fields.get? key).or (findIn key (envelope decision time)) := by
  unfold Draft.emit envelope
  simp only [Table.getSetDefault, findIn, Option.or_assoc]
  grind

variable {stage : Stage} {steps first second : List Step} {key : String} {v : Value}

theorem lastAppend (first second : List Step) (key : String) :
    lastGiven (first ++ second) key = (lastGiven second key).or (lastGiven first key) := by
  rw [lastGiven, List.flatMap_append, List.reverse_append, findAppend]
  rfl

theorem lastNone : lastGiven steps key = none ↔ ∀ s ∈ steps, key ∉ s.keys := by
  rw [lastGiven, findNone, List.map_reverse, List.mem_reverse, List.map_flatMap, List.mem_flatMap]
  exact ⟨fun none s mem has => none ⟨s, mem, has⟩, fun none ⟨s, mem, has⟩ => none s mem has⟩

theorem lastStep {s : Step} (gives : (key, v) ∈ s.writes) : lastGiven [s] key = some v := by
  rw [lastGiven, List.flatMap_singleton]
  refine Table.findOfMem ?_ (List.mem_reverse.mpr gives)
  rw [List.map_reverse, List.nodup_reverse]
  exact s.keysNodup

theorem lastStays {before after : List Step} {s : Step} (gives : (key, v) ∈ s.writes)
    (unchanged : ∀ t ∈ after, key ∉ t.keys) : lastGiven (before ++ s :: after) key = some v := by
  rw [lastAppend, ← List.singleton_append, lastAppend, lastNone.mpr unchanged, lastStep gives]
  rfl

theorem lastSwap (apart : ∀ x ∈ first, ∀ y ∈ second, ∀ key ∈ x.keys, key ∉ y.keys) (key : String) :
    lastGiven (first ++ second) key = lastGiven (second ++ first) key := by
  rw [lastAppend, lastAppend]
  by_cases given : ∃ x ∈ first, key ∈ x.keys
  · obtain ⟨x, mem, has⟩ := given
    rw [lastNone.mpr fun y mem' => apart x mem y mem' key has, Option.or_none, Option.none_or]
  · rw [lastNone.mpr fun x mem has => given ⟨x, mem, has⟩, Option.or_none, Option.none_or]

namespace Draft

theorem afterFields (stage : Stage) (steps : List Step) (key : String) :
    (after stage steps).fields.get? key =
      (lastGiven steps key).or (findIn key [("stage", .string stage.event)]) := by
  rw [after, foldFields, Table.getSetAll]
  rfl

theorem emitTold (stage : Stage) (steps : List Step) (decision : Decision) (time key : String) :
    ((after stage steps).emit decision time).fields.get? key = told stage steps decision time key := by
  rw [emitFields, afterFields, Option.or_assoc]
  rfl

theorem emitKeyed (stage : Stage) (steps : List Step) (decision : Decision) (time : String) :
    ((after stage steps).emit decision time).fields.Keyed := by
  have given : (after stage steps).fields.Keyed := by
    have started : (start stage).fields.Keyed := List.nodup_singleton _
    rw [after, foldFields]
    exact Table.keyedSetAll started _
  exact Table.keyedSetDefault (Table.keyedSetDefault (Table.keyedSetDefault (Table.keyedSetDefault
    given _ _) _ _) _ _) _ _

end Draft

theorem toldEnvelope (stage : Stage) (steps : List Step) (decision : Decision) (time : String) :
    ∀ key ∈ ["schema_version", "ts", "stage", "path", "decision"],
      (told stage steps decision time key).isSome = true := by
  intro key mem
  unfold told envelope
  simp only [List.mem_cons, List.not_mem_nil, or_false] at mem
  rcases mem with rfl | rfl | rfl | rfl | rfl <;> simp [findIn]

structure Emitted (stage : Stage) (steps : List Step) (decision : Decision) (time : String) (f : Fact) :
    Prop where
  once : ∀ (s : Sink) (w : World), (s.fact f w).events = w.events ++ if s.captures then [.fact f] else []
  subsystem : f.subsystem = "stagefile"
  event : f.event = stage.event
  decided : f.decision = decision
  distinct : f.fields.Keyed
  fields : ∀ key, f.fields.get? key = told stage steps decision time key
  envelope : ∀ key ∈ ["schema_version", "ts", "stage", "path", "decision"], (f.fields.get? key).isSome = true
  kept : ∀ before s after, steps = before ++ s :: after → ∀ key v, (key, v) ∈ s.writes →
    (∀ t ∈ after, key ∉ t.keys) → f.fields.get? key = some v
  swaps : ∀ before first second after, steps = before ++ (first ++ second) ++ after →
    (∀ x ∈ first, ∀ y ∈ second, ∀ key ∈ x.keys, key ∉ y.keys) → ∀ key, f.fields.get? key =
      ((Draft.after stage (before ++ (second ++ first) ++ after)).emit decision time).fields.get? key

theorem stepsTold (stage : Stage) (steps : List Step) (decision : Decision) (time : String) :
    Emitted stage steps decision time ((Draft.after stage steps).emit decision time) where
  once s w := by
    unfold Sink.fact
    split
    · rfl
    · exact (List.append_nil _).symm
  subsystem := rfl
  event := congrArg Stage.event (Draft.afterStage stage steps)
  decided := rfl
  distinct := Draft.emitKeyed stage steps decision time
  fields := Draft.emitTold stage steps decision time
  envelope key mem := by
    rw [Draft.emitTold]
    exact toldEnvelope stage steps decision time key mem
  kept before s after same key v gives unchanged := by
    rw [Draft.emitTold, told, same, lastStays gives unchanged, Option.some_or]
  swaps before first second after same apart key := by
    rw [Draft.emitTold, Draft.emitTold, told, told, same]
    rw [lastAppend _ after, lastAppend _ after, lastAppend before, lastAppend before, lastSwap apart]

end AtomicUpdate.Fact
