import AtomicUpdate.Proofs.Fs.Absence
import AtomicUpdate.Proofs.Fs.Recede
import AtomicUpdate.Proofs.Naming

/-! Making a file that nobody has, under a name drawn for a template. Where one is made, there was nothing by
its name, be it a link to nothing, and all that the tree has more is an empty file there. Where none is made
the tree is as it was. -/
namespace AtomicUpdate
namespace Fs

variable {fs fs' : Fs} {p : Path}

structure Entered (fs fs' : Fs) (d : Ino) (n : Name) (new : Ino) (mode : Nat) : Prop where
  fresh : fs.node? new = none
  file : fs'.node? new = some (.file [] mode)
  folder : ∃ es up m, fs.node? d = some (.dir es up m) ∧ es.get? n = none ∧
    fs'.node? d = some (.dir ⟨es.entries ++ [(n, new)]⟩ up m)
  others : ∀ i, i ≠ d → i ≠ new → fs'.node? i = fs.node? i
  root : fs'.root = fs.root
  cwd : fs'.cwd = fs.cwd

theorem bornEntered {d : Ino} {n : Name} (dir : fs.isDir d = true) (free : fs.named? d n = none)
    (mode : Nat) : Entered fs (fs.born d n mode) d n fs.nodes.size mode where
  fresh := Array.getElem?_eq_none (Nat.le_refl _)
  file := bornFile fs dir n mode
  folder := by
    obtain ⟨es, up, m, node⟩ := isDirExact dir
    have absent : es.get? n = none := (entryOf node n).symm.trans free
    refine ⟨es, up, m, node, absent, ?_⟩
    rw [born, nodeUpdateDir, if_pos rfl, nodeAdd, if_neg (Nat.ne_of_lt (nodeBound node)), node,
      ← Table.setAbsent absent]
    rfl
  others := by
    intro i otherDir other
    rw [born, nodeUpdateDir, if_neg otherDir, nodeAdd, if_neg other]
  root := (rootUpdateDir _ d _).1
  cwd := (rootUpdateDir _ d _).2

structure Created (fs fs' : Fs) (p : Path) (new : Ino) (mode : Nat) : Prop where
  absent : fs.lookupEntry p = .error .enoent
  present : fs'.lookupEntry p = .ok new
  entered : ∃ d n, Entered fs fs' d n new mode
  entries : ∀ q i, i ≠ new → (fs'.lookupEntry q = .ok i ↔ fs.lookupEntry q = .ok i)
  lookups : ∀ q i, i ≠ new → (fs'.lookup q = .ok i ↔ fs.lookup q = .ok i)

theorem createNewCreated {mode : Nat} {new : Ino} (open' : p.endsInSlash = false)
    (ok : fs.createNew mode p = .ok (new, fs')) : Created fs fs' p new mode := by
  obtain ⟨rfl, d, n, s, located, _, rfl⟩ := createNewExact ok
  obtain ⟨there, rfl⟩ := locateUnfollowed open' located
  obtain ⟨dir, free⟩ := vacantFree located
  -- Every node but the new one is firm, so lookups that end elsewhere are carried over both ways.
  have forth : Keeps (· ≠ fs.nodes.size) fs (fs.born d n mode) := keepsBorn _ free mode
  have back : Keeps (· ≠ fs.nodes.size) (fs.born d n mode) fs := keepsOfBorn (fun other => other rfl) free mode
  refine ⟨Missing.lookupEntry (there ▸ .last d n false), ?_, ⟨d, n, bornEntered dir free mode⟩,
    fun q i other => ⟨fun ok => lookupEntryKept back ok (Or.inr other),
      fun ok => lookupEntryKept forth ok (Or.inr other)⟩,
    fun q i other => ⟨fun ok => lookupKept back ok (Or.inr other),
      fun ok => lookupKept forth ok (Or.inr other)⟩⟩
  have taken : (fs.born d n mode).named? d n = some fs.nodes.size := by rw [bornEntry dir, if_pos ⟨rfl, rfl⟩]
  have plain := notInner (fileNotInner (bornFile fs dir n mode))
  rw [lookupEntry, locateFilled (keepsBorn _ free mode) there taken plain.2]
  rfl

end Fs

namespace Files

def Filled (template name : String) : Prop :=
  ∃ (stem : String) (drawn : List Char), template = stem ++ "XXXXXX" ∧
    name = stem ++ String.ofList drawn ∧ drawn.length = 6 ∧ ∀ c ∈ drawn, c.isAlphanum = true

structure Unique (template : String) (w : World) (r : Except Errno String × World) : Prop where
  refused : (∀ stem : String, template ≠ stem ++ "XXXXXX") → r = (.error .einval, w)
  drawn : ∀ stem : String, template = stem ++ "XXXXXX" → Drawing stem.toList Limits.attempts w r
  made : ∀ name, r.1 = .ok name → Filled template name ∧ name.utf8ByteSize = template.utf8ByteSize ∧
    ∃ new, w.fs.Created r.2.fs (Path.ofString name) new 0o600
  failed : ∀ e, r.1 = .error e → r.2.fs = w.fs

variable {template : String} {w : World}

theorem drawNameFilled (stem : String) (w : World) (k : Nat) :
    Filled (stem ++ "XXXXXX") (drawName stem.toList w k) := by
  refine ⟨stem, (w.draws (w.drawn + k)).chars, rfl, ?_, Suffix.length_eq _,
    fun c mem => Suffix.alphanumeric _ mem⟩
  rw [drawName, Template.fill, String.ofList_append, String.ofList_toList]

theorem drawNameBytes (stem : String) (w : World) (k : Nat) :
    Path.ofString (drawName stem.toList w k) = Path.ofString stem ++ (w.draws (w.drawn + k)).bytes := by
  rw [drawName, Template.fill, String.ofList_append, String.ofList_toList, Path.ofStringAppend]
  rfl

theorem drawNameSize (stem : String) (w : World) (k : Nat) :
    (drawName stem.toList w k).utf8ByteSize = (stem ++ "XXXXXX").utf8ByteSize := by
  rw [← Path.ofStringLength, drawNameBytes, List.length_append, Suffix.bytesLength, Path.ofStringLength,
    String.utf8ByteSize_append]
  rfl

namespace Drawing
variable {tries : Nat} {r : Except Errno String × World}

theorem created {stem name : String} (drawing : Drawing stem.toList tries w r) (ok : r.1 = .ok name) :
    Filled (stem ++ "XXXXXX") name ∧ name.utf8ByteSize = (stem ++ "XXXXXX").utf8ByteSize ∧
      ∃ new, w.fs.Created r.2.fs (Path.ofString name) new 0o600 := by
  cases drawing with
  | @made k new fs bound taken free =>
    cases ok
    obtain ⟨_, _, free⟩ := bindOk free
    have closed : (Path.ofString (drawName stem.toList w k)).endsInSlash = false := by
      rw [drawNameBytes]
      exact Path.plainNoClosing (Suffix.plain _)
    exact ⟨drawNameFilled stem w k, drawNameSize stem w k, new, Fs.createNewCreated closed free⟩
  | failed => cases ok
  | crowded => cases ok

theorem still {stem : List Char} {e : Errno} (drawing : Drawing stem tries w r) (failed : r.1 = .error e) :
    r.2.fs = w.fs := by
  cases drawing with
  | made => cases failed
  | failed => rfl
  | crowded => rfl

end Drawing

theorem createFromUnique (template : String) (w : World) : Unique template w (createFrom template w) := by
  unfold createFrom
  cases found : Template.stem? template with
  | none =>
    have none : ∀ stem : String, template ≠ stem ++ "XXXXXX" := by
      intro stem same
      rw [← String.ofList_toList (s := stem), ← Template.stemExact, found] at same
      cases same
    exact ⟨fun _ => rfl, fun stem same => absurd same (none stem), fun _ ok => (by cases ok), fun _ _ => rfl⟩
  | some chars =>
    obtain ⟨stem, rfl⟩ : ∃ stem : String, chars = stem.toList := ⟨String.ofList chars, by simp⟩
    have spelled := Template.stemExact.mp found
    rw [String.ofList_toList] at spelled
    have drawing := drawing stem.toList Limits.attempts w
    refine ⟨fun none => absurd spelled (none stem), fun stem' same => ?_,
      fun name ok => spelled ▸ drawing.created ok, fun e failed => drawing.still failed⟩
    have again : Template.stem? template = some stem'.toList :=
      Template.stemExact.mpr (by rwa [String.ofList_toList])
    rw [← Option.some.inj (found.symm.trans again)]
    exact drawing

end Files
end AtomicUpdate
