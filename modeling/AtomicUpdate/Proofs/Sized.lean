import AtomicUpdate.Files
import AtomicUpdate.Proofs.Fs.Entry

/-! Reading as many bytes as asked for, from a source that hands out as few at a time as it likes. What the
buffer holds is told by how much of it is filled: so many bytes of what there is to read, and zeros behind
them. Hence it does not matter in how many reads the bytes come. -/
namespace AtomicUpdate.Files

variable {σ : Type} {src : Source σ} {rest : σ → Bytes} {size : Nat} {f g h : Filling σ} {w : World}

theorem fillFull (full : size ≤ f.filled) : fill src size f = .ok f := by
  rw [fill, if_neg (Nat.not_lt.mpr full)]

theorem fillFailed {e : Errno} (short : f.filled < size)
    (read : src.read f.state f.room.length = .error e) :
    fill src size f = .error ⟨f.filled, e⟩ := by
  rw [fill, if_pos short]
  split <;> simp_all

theorem fillDrained {next : σ} (short : f.filled < size)
    (read : src.read f.state f.room.length = .ok (.bytes [] next)) :
    fill src size f = .ok { f with state := next } := by
  rw [fill, if_pos short]
  split <;> simp_all

theorem fillMore {got : Bytes} {next : σ} (short : f.filled < size) (some' : got ≠ [])
    (read : src.read f.state f.room.length = .ok (.bytes got next)) :
    fill src size f = fill src size (f.put got next) := by
  rw [fill, if_pos short]
  split <;> simp_all

theorem fillAgain {next : σ} (short : f.filled < size)
    (read : src.read f.state f.room.length = .ok (.interrupted next)) :
    fill src size f = fill src size { f with state := next } := by
  rw [fill, if_pos short]
  split <;> simp_all

inductive Turns (src : Source σ) (size : Nat) (f : Filling σ) : Nat → Nat → Filling σ → Prop where
  | start : Turns src size f 0 0 f
  | bytes {n m g got next} (before : Turns src size f n m g) (short : g.filled < size) (some' : got ≠ [])
      (read : src.read g.state g.room.length = .ok (.bytes got next)) :
      Turns src size f (n + 1) m (g.put got next)
  | interrupted {n m g next} (before : Turns src size f n m g) (short : g.filled < size)
      (read : src.read g.state g.room.length = .ok (.interrupted next)) :
      Turns src size f n (m + 1) { g with state := next }

inductive Ends (src : Source σ) (size : Nat) (g : Filling σ) :
    Nat → Except ShortRead (Filling σ) → Prop where
  | full (full : size ≤ g.filled) : Ends src size g 0 (.ok g)
  | drained {next} (short : g.filled < size)
      (read : src.read g.state g.room.length = .ok (.bytes [] next)) :
      Ends src size g 1 (.ok { g with state := next })
  | failed {e} (short : g.filled < size) (read : src.read g.state g.room.length = .error e) :
      Ends src size g 1 (.error ⟨g.filled, e⟩)

namespace Turns

variable {n m n' m' : Nat}

theorem trans (first : Turns src size f n m g) (second : Turns src size g n' m' h) :
    Turns src size f (n + n') (m + m') h := by
  induction second with
  | start => exact first
  | bytes before short some' read ih => exact .bytes ih short some' read
  | interrupted before short read ih => exact .interrupted ih short read

theorem fill (turns : Turns src size f n m g) : fill src size f = Files.fill src size g := by
  induction turns with
  | start => rfl
  | bytes before short some' read ih => rw [ih, fillMore short some' read]
  | interrupted before short read ih => rw [ih, fillAgain short read]

theorem reads (turns : Turns src size f n m g) :
    f.filled + n ≤ g.filled ∧ m + src.interruptions g.state ≤ src.interruptions f.state := by
  induction turns with
  | start => exact ⟨Nat.le_refl _, by omega⟩
  | bytes before short some' read ih =>
    have one := List.length_pos_iff.mpr some'
    have fewer := (src.fits read).2
    simp only [Filling.put]
    omega
  | interrupted before short read ih =>
    have fewer := src.fewer read
    dsimp only
    omega

end Turns

theorem fillEnds (src : Source σ) (size : Nat) (f : Filling σ) :
    ∃ n m g k, Turns src size f n m g ∧ Ends src size g k (fill src size f) := by
  induction f using fill.induct src size with
  | case1 f short e read =>
    rw [fillFailed short read]
    exact ⟨0, 0, f, 1, .start, .failed short read⟩
  | case2 f short next read =>
    rw [fillDrained short read]
    exact ⟨0, 0, f, 1, .start, .drained short read⟩
  | case3 f short b got next read ih =>
    obtain ⟨n, m, g, k, turns, ends⟩ := ih
    have turn : Turns src size f 1 0 (f.put (b :: got) next) := .bytes .start short (List.cons_ne_nil b got) read
    rw [turn.fill]
    exact ⟨1 + n, 0 + m, g, k, turn.trans turns, ends⟩
  | case4 f short next read ih =>
    obtain ⟨n, m, g, k, turns, ends⟩ := ih
    have turn : Turns src size f 0 1 { f with state := next } := .interrupted .start short read
    rw [turn.fill]
    exact ⟨0 + n, 1 + m, g, k, turn.trans turns, ends⟩
  | case5 f full =>
    have full := Nat.not_lt.mp full
    rw [fillFull full]
    exact ⟨0, 0, f, 0, .start, .full full⟩

structure Delivers (src : Source σ) (rest : σ → Bytes) : Prop where
  bytes : ∀ {s count got next}, src.read s count = .ok (.bytes got next) → rest s = got ++ rest next
  drained : ∀ {s count next}, 0 < count → src.read s count = .ok (.bytes [] next) → rest s = []
  interrupted : ∀ {s count next}, src.read s count = .ok (.interrupted next) → rest next = rest s

structure Holding (rest : σ → Bytes) (size : Nat) (all : Bytes) (g : Filling σ) : Prop where
  within : g.filled ≤ size
  come : g.filled ≤ all.length
  buffer : g.buffer = all.take g.filled ++ List.replicate (size - g.filled) 0
  left : rest g.state = all.drop g.filled

namespace Holding
variable {all got : Bytes} {next : σ}

theorem zeroed (rest : σ → Bytes) (size : Nat) (start : σ) :
    Holding rest size (rest start) (.zeroed size start) :=
  ⟨Nat.zero_le _, Nat.zero_le _, rfl, rfl⟩

theorem takeLength (holding : Holding rest size all g) : (all.take g.filled).length = g.filled :=
  List.length_take_of_le holding.come

theorem length (holding : Holding rest size all g) : g.buffer.length = size := by
  rw [holding.buffer, List.length_append, holding.takeLength, List.length_replicate]
  exact Nat.add_sub_cancel' holding.within

theorem contents (holding : Holding rest size all g) : g.contents = all.take g.filled := by
  rw [Filling.contents, holding.buffer, List.take_left' holding.takeLength]

theorem room (holding : Holding rest size all g) : g.room = List.replicate (size - g.filled) 0 := by
  rw [Filling.room, holding.buffer, List.drop_left' holding.takeLength]

theorem roomLength (holding : Holding rest size all g) : g.room.length = size - g.filled := by
  rw [holding.room, List.length_replicate]

theorem put (holding : Holding rest size all g) (delivers : Delivers src rest)
    (read : src.read g.state g.room.length = .ok (.bytes got next)) :
    Holding rest size all (g.put got next) := by
  have fits := (src.fits read).1
  rw [holding.roomLength] at fits
  have split : all.drop g.filled = got ++ rest next := holding.left.symm.trans (delivers.bytes read)
  have whole : all = all.take g.filled ++ (got ++ rest next) := by rw [← split, List.take_append_drop]
  have within := holding.within
  have more : g.filled + got.length ≤ all.length := by
    have length := congrArg List.length split
    rw [List.length_drop, List.length_append] at length
    have come := holding.come
    omega
  have come : all.take (g.filled + got.length) = all.take g.filled ++ got := by
    rw [List.take_add, split, List.take_left]
  refine ⟨show g.filled + got.length ≤ size by omega, more, ?_, ?_⟩
  · change g.contents ++ got ++ g.room.drop got.length = _
    rw [holding.contents, holding.room, List.drop_replicate, Nat.sub_sub, ← come]
    rfl
  · change rest next = all.drop (g.filled + got.length)
    rw [← List.drop_drop, split, List.drop_left]

theorem turns {n m : Nat} (holding : Holding rest size all f) (delivers : Delivers src rest)
    (turns : Turns src size f n m g) : Holding rest size all g := by
  induction turns with
  | start => exact holding
  | bytes before short some' read ih => exact ih.put delivers read
  | interrupted before short read ih =>
    exact ⟨ih.within, ih.come, ih.buffer, (delivers.interrupted read).trans ih.left⟩

end Holding

theorem Ends.outcome {all : Bytes} {k : Nat} {r : Except ShortRead (Filling σ)}
    (ends : Ends src size g k r) (delivers : Delivers src rest) (holding : Holding rest size all g) :
    (∃ f, r = .ok f ∧ f.contents = all.take size) ∨
      (∃ e, g.filled < size ∧ src.read g.state g.room.length = .error e ∧ r = .error ⟨g.filled, e⟩) := by
  cases ends with
  | full full =>
    have whole : g.filled = size := Nat.le_antisymm holding.within full
    exact Or.inl ⟨g, rfl, whole ▸ holding.contents⟩
  | drained short read =>
    have offered : 0 < g.room.length := by rw [holding.roomLength]; omega
    have none : all.drop g.filled = [] := holding.left.symm.trans (delivers.drained offered read)
    have whole : all.length ≤ g.filled := List.drop_eq_nil_iff.mp none
    refine Or.inl ⟨_, rfl, ?_⟩
    change g.contents = _
    rw [holding.contents, List.take_of_length_le whole, List.take_of_length_le (by omega)]
  | failed short read => exact Or.inr ⟨_, short, read, rfl⟩

theorem Ends.reads {k : Nat} {r : Except ShortRead (Filling σ)} (ends : Ends src size g k r)
    (within : g.filled ≤ size) : g.filled + k ≤ size := by
  cases ends with
  | full => exact within
  | drained short => exact short
  | failed short => exact short

theorem readViaOf (reserved : reservable size = true) (start : σ) (w : World) :
    readVia src start size w = match fill src size (.zeroed size start) with
      | .ok f => (.ok f.contents, w)
      | .error short => (.error .eio, w.logError <|
          s!"Failed to read file, actual length is:{short.filled}, fileSize:{size}: " ++
            short.cause.systemText) := by
  rw [readVia, reserved]
  rfl

theorem readViaNone (src : Source σ) (start : σ) (w : World) :
    readVia src start 0 w = (.ok [], w) := by
  rw [readViaOf (by decide), fillFull (Nat.le_refl 0)]
  rfl

theorem readViaWhole (delivers : Delivers src rest) (reserved : reservable size = true) (start : σ)
    (w : World) (sound : ∀ n m g e, Turns src size (.zeroed size start) n m g → g.filled < size →
      src.read g.state g.room.length ≠ .error e) :
    readVia src start size w = (.ok ((rest start).take size), w) := by
  obtain ⟨n, m, g, k, turns, ends⟩ := fillEnds src size (.zeroed size start)
  have holding := (Holding.zeroed rest size start).turns delivers turns
  rcases ends.outcome delivers holding with ⟨f, filled, contents⟩ | ⟨e, short, read, _⟩
  · rw [readViaOf reserved, filled, ← contents]
  · exact absurd read (sound n m g e turns short)

theorem readViaFailed (reserved : reservable size = true) {start : σ} {n m : Nat} {e : Errno}
    (turns : Turns src size (.zeroed size start) n m g) (short : g.filled < size)
    (read : src.read g.state g.room.length = .error e) (w : World) :
    ∃ line, readVia src start size w = (.error .eio, w.logError line) := by
  rw [readViaOf reserved, turns.fill, fillFailed short read]
  exact ⟨_, rfl⟩

section Opened
variable {fs : Fs} {i : Ino} {b : Bytes} {m : Nat}

theorem sourceFile (file : fs.node? i = some (.file b m)) (pos count : Nat) :
    (source fs i).read pos count =
      .ok (.bytes ((b.drop pos).take count) (pos + ((b.drop pos).take count).length)) := by
  change (fs.readAt i pos count).map _ = _
  rw [Fs.readAt, file]
  rfl

theorem sourceDir (dir : fs.isDir i = true) (pos count : Nat) :
    (source fs i).read pos count = .error .eisdir := by
  obtain ⟨es, up, m, node⟩ := Fs.isDirExact dir
  change (fs.readAt i pos count).map _ = _
  rw [Fs.readAt, node]
  rfl

theorem sourceSame {fs' : Fs} (same : fs'.node? i = fs.node? i) : source fs' i = source fs i := by
  refine Source.ext (funext fun pos => funext fun count => ?_) rfl
  change (fs'.readAt i pos count).map _ = (fs.readAt i pos count).map _
  rw [Fs.readAt, Fs.readAt, same]

theorem sourceDelivers (file : fs.node? i = some (.file b m)) :
    Delivers (source fs i) (fun pos => b.drop pos) where
  bytes := by
    intro pos count got next read
    rw [sourceFile file] at read
    cases read
    rw [← List.drop_drop, List.length_take, List.take_eq_take_min, List.take_append_drop]
  drained := by
    intro pos count next offered read
    rw [sourceFile file] at read
    have none : (b.drop pos).take count = [] := (Arrival.bytes.inj (Except.ok.inj read)).1
    exact (List.take_eq_nil_iff.mp none).resolve_left (Nat.ne_of_gt offered)
  interrupted := by
    intro pos count next read
    rw [sourceFile file] at read
    cases read

theorem readSizedFile (file : w.fs.node? i = some (.file b m)) (reserved : reservable size = true) :
    readSized w i size = (.ok (b.take size), w) :=
  readViaWhole (sourceDelivers file) reserved 0 w fun n m g e _ _ read => by
    rw [sourceFile file] at read
    cases read

theorem readSizedTooLong (w : World) (i : Ino) (reserved : reservable size = false) :
    readSized w i size = (.error .enomem, w) := by
  rw [readSized, readVia, reserved]
  rfl

theorem readSizedDir (dir : w.fs.isDir i = true) (some' : size ≠ 0) (reserved : reservable size = true) :
    ∃ line, readSized w i size = (.error .eio, w.logError line) :=
  readViaFailed reserved .start (Nat.pos_of_ne_zero some') (sourceDir dir _ _) w

end Opened

structure Sized (src : Source σ) (rest : σ → Bytes) (start : σ) (size : Nat) (w : World) : Prop where
  inside : ∀ n m g, Turns src size (.zeroed size start) n m g →
    g.filled ≤ size ∧ g.buffer.length = size ∧ g.room.length = size - g.filled ∧
      g.contents = (rest start).take g.filled ∧ rest g.state = (rest start).drop g.filled
  ends : ∃ n m g k, Turns src size (.zeroed size start) n m g ∧
    Ends src size g k (fill src size (.zeroed size start))
  reads : ∀ n m g k r, Turns src size (.zeroed size start) n m g → Ends src size g k r →
    n + k ≤ size ∧ m ≤ src.interruptions start
  whole : (∀ n m g e, Turns src size (.zeroed size start) n m g → g.filled < size →
      src.read g.state g.room.length ≠ .error e) →
    readVia src start size w = (.ok ((rest start).take size), w)
  failed : ∀ n m g e, Turns src size (.zeroed size start) n m g → g.filled < size →
    src.read g.state g.room.length = .error e →
    ∃ line, readVia src start size w = (.error .eio, w.logError line)
  none : size = 0 → readVia src start size w = (.ok [], w) ∧ ∀ i, readSized w i size = (.ok [], w)

theorem readViaSized (delivers : Delivers src rest) (reserved : reservable size = true) (start : σ)
    (w : World) : Sized src rest start size w where
  inside := by
    intro n m g turns
    have holding := (Holding.zeroed rest size start).turns delivers turns
    exact ⟨holding.within, holding.length, holding.roomLength, holding.contents, holding.left⟩
  ends := fillEnds src size (.zeroed size start)
  reads := by
    intro n m g k r turns ends
    have holding := (Holding.zeroed rest size start).turns delivers turns
    obtain ⟨before, interrupted⟩ := turns.reads
    have after := ends.reads holding.within
    change 0 + n ≤ g.filled at before
    exact ⟨by omega, Nat.le_trans (Nat.le_add_right _ _) interrupted⟩
  whole := readViaWhole delivers reserved start w
  failed := fun _ _ _ _ turns short read => readViaFailed reserved turns short read w
  none := by
    rintro rfl
    exact ⟨readViaNone src start w, fun i => readViaNone _ 0 w⟩

inductive Deal
  | bytes (more : Nat)
  | interrupted
  | failed (cause : Errno)
  deriving DecidableEq, Repr

def deal : Bytes × List Deal → Nat → Except Errno (Arrival (Bytes × List Deal))
  | (left, []), count => .ok (.bytes (left.take count) (left.drop count, []))
  | (left, .bytes more :: deals), count =>
      let n := min (more + 1) count
      .ok (.bytes (left.take n) (left.drop n, deals))
  | (left, .interrupted :: deals), _ => .ok (.interrupted (left, deals))
  | (_, .failed cause :: _), _ => .error cause

section Dealt
variable {s next : Bytes × List Deal} {count : Nat} {got : Bytes}

theorem dealBytes (ok : deal s count = .ok (.bytes got next)) : ∃ n, n ≤ count ∧ (0 < count → 0 < n) ∧
    got = s.1.take n ∧ next.1 = s.1.drop n ∧ next.2 = s.2.tail := by
  obtain ⟨left, deals⟩ := s
  match deals with
  | [] =>
    cases ok
    exact ⟨count, Nat.le_refl _, id, rfl, rfl, rfl⟩
  | .bytes more :: deals =>
    cases ok
    exact ⟨min (more + 1) count, Nat.min_le_right _ _, fun some' => by omega, rfl, rfl, rfl⟩
  | .interrupted :: deals => cases ok
  | .failed cause :: deals => cases ok

theorem dealInterrupted (ok : deal s count = .ok (.interrupted next)) :
    s = (next.1, .interrupted :: next.2) := by
  obtain ⟨left, deals⟩ := s
  match deals with
  | [] => cases ok
  | .bytes more :: deals => cases ok
  | .interrupted :: deals =>
    cases ok
    rfl
  | .failed cause :: deals => cases ok

theorem dealFailed {e : Errno} (failed : deal s count = .error e) : .failed e ∈ s.2 := by
  obtain ⟨left, deals⟩ := s
  match deals with
  | [] => cases failed
  | .bytes more :: deals => cases failed
  | .interrupted :: deals => cases failed
  | .failed cause :: deals =>
    cases failed
    exact List.mem_cons_self

end Dealt

def dealt : Source (Bytes × List Deal) where
  read := deal
  interruptions s := s.2.length
  fits := by
    intro s count got next ok
    obtain ⟨n, fits, _, rfl, _, rest⟩ := dealBytes ok
    refine ⟨Nat.le_trans (List.length_take_le _ _) fits, ?_⟩
    rw [rest, List.length_tail]
    exact Nat.sub_le _ _
  fewer := by
    intro s count next ok
    rw [dealInterrupted ok]
    exact Nat.lt_succ_self _

theorem dealtDelivers : Delivers dealt Prod.fst where
  bytes := by
    intro s count got next ok
    obtain ⟨n, _, _, rfl, left, _⟩ := dealBytes ok
    rw [left, List.take_append_drop]
  drained := by
    intro s count next offered ok
    obtain ⟨n, _, some', none, _⟩ := dealBytes ok
    rcases List.take_eq_nil_iff.mp none.symm with zero | empty
    · exact absurd zero (Nat.ne_of_gt (some' offered))
    · exact empty
  interrupted := by
    intro s count next ok
    rw [dealInterrupted ok]

theorem dealtSound {n m : Nat} {f g : Filling (Bytes × List Deal)} (turns : Turns dealt size f n m g)
    (sound : ∀ e, .failed e ∉ f.state.2) : ∀ e, .failed e ∉ g.state.2 := by
  induction turns with
  | start => exact sound
  | bytes before short some' read ih =>
    obtain ⟨_, _, _, _, _, rest⟩ := dealBytes read
    intro e mem
    exact ih e (List.mem_of_mem_tail (rest ▸ mem))
  | interrupted before short read ih =>
    intro e mem
    exact ih e (by rw [dealInterrupted read]; exact List.mem_cons_of_mem _ mem)

theorem readInPieces :
    readVia dealt ([1, 2, 3, 4, 5], [.bytes 0, .interrupted, .bytes 1]) 4 { fs := Fs.bare } =
      (.ok [1, 2, 3, 4], { fs := Fs.bare }) :=
  (readViaSized dealtDelivers (by decide) _ _).whole fun _ _ _ e turns _ failed =>
    dealtSound turns (by simp [Filling.zeroed]) e (dealFailed failed)

end AtomicUpdate.Files
