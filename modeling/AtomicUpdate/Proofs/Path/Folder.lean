import AtomicUpdate.Proofs.Path.Split

/-! The folder of a path against the text up to its last slash. Closing slashes and names `.` fall
away in the folder, so it visits the same names up to those dots. -/
namespace AtomicUpdate.Path

theorem leadPrefix (p : Path) : lead p <+: p := by
  unfold lead
  split
  · exact List.prefix_refl _
  · split
    · exact List.prefix_refl _
    · exact List.nil_prefix
  · rename_i c d rest
    split
    · exact ⟨d :: rest, rfl⟩
    · exact List.nil_prefix

def trunk (p : Path) : Path := p.drop (lead p).length

theorem leadTrunk (p : Path) : lead p ++ trunk p = p := by
  obtain ⟨rest, same⟩ := leadPrefix p
  unfold trunk
  conv => lhs; arg 2; arg 2; rw [← same]
  rw [List.drop_left, same]

inductive Led : Path → Prop where
  | root (rest : Path) : Led (slash :: rest)
  | here (rest : Path) : Led (46 :: slash :: rest)
  | dot : Led dot
  | bare {p : Path} (none : lead p = []) (other : p.head? ≠ some slash) : Led p

theorem ledRoot (rest : Path) : lead (slash :: rest) = [slash] := by
  cases rest <;> simp [lead]

theorem ledHere (rest : Path) : lead (46 :: slash :: rest) = dot := by
  simp [lead, dot]

theorem led (p : Path) : Led p := by
  match p with
  | [] => exact .bare rfl (by simp)
  | [c] =>
    by_cases root : c = slash
    · subst root; exact .root []
    · by_cases here : c = 46
      · subst here; exact .dot
      · exact .bare (by simp [lead, root, here]) (by simpa using root)
  | c :: d :: rest =>
    by_cases root : c = slash
    · subst root; exact .root (d :: rest)
    · by_cases here : c = 46 ∧ d = slash
      · obtain ⟨rfl, rfl⟩ := here; exact .here rest
      · exact .bare (by simp [lead, root, here]) (by simpa using root)

theorem leadThrough {pre n : Path} (ends : pre = [] ∨ ∃ a, pre = a ++ [slash]) (single : slash ∉ n)
    (notDot : n ≠ dot) : lead (pre ++ n) = lead pre := by
  rcases ends with rfl | ⟨a, rfl⟩
  · cases led n with
    | root rest => exact absurd List.mem_cons_self single
    | here rest => exact absurd (List.mem_cons_of_mem _ List.mem_cons_self) single
    | dot => exact absurd rfl notDot
    | bare none other => exact none
  · match a with
    | [] => exact ledRoot n
    | [c] => rfl
    | c :: d :: rest => rfl

theorem namesLead (p : Path) : names p = names (lead p) ++ names (trunk p) := by
  cases led p with
  | root rest =>
    have after : trunk (slash :: rest) = rest := by rw [trunk, ledRoot]; rfl
    rw [after, ledRoot]
    exact namesAppend [] rest
  | here rest =>
    have after : trunk (46 :: slash :: rest) = slash :: rest := by rw [trunk, ledHere]; rfl
    rw [after, ledHere]
    have whole := namesAppend dot rest
    have tail := namesAppend [] rest
    rw [namesNil, List.nil_append] at tail
    exact whole.trans (congrArg (names dot ++ ·) tail.symm)
  | dot => rfl
  | bare none other => rw [trunk, none]; rfl

def stages (trunk : Path) : List Name := (segments trunk).dropLast

def kept (stages : List Name) : List Name := (stages.reverse.dropWhile isIdle).reverse

theorem keptPrefix (xs : List Name) :
    ∃ idle, xs = kept xs ++ idle ∧ ∀ n ∈ idle, isIdle n = true := by
  refine ⟨(xs.reverse.takeWhile isIdle).reverse, ?_, ?_⟩
  · rw [kept, ← List.reverse_append, List.takeWhile_append_dropWhile, List.reverse_reverse]
  · intro n member
    exact List.mem_takeWhile_imp (List.mem_reverse.mp member)

theorem keptCounts {xs : List Name} (nonempty : kept xs ≠ []) :
    isIdle ((kept xs).getLast nonempty) = false := by
  have first := List.head?_dropWhile_not isIdle xs.reverse
  have some' : (xs.reverse.dropWhile isIdle).head? = some ((kept xs).getLast nonempty) := by
    rw [← List.getLast?_reverse]
    exact List.getLast?_eq_some_getLast nonempty
  rw [some'] at first
  simpa using first

theorem idleNames {idle : List Name} (all : ∀ n ∈ idle, isIdle n = true) :
    ∃ k, idle.filter (fun n => n ≠ []) = List.replicate k dot := by
  refine ⟨(idle.filter (fun n => n ≠ [])).length, List.eq_replicate_of_mem ?_⟩
  intro n member
  obtain ⟨inside, nonempty⟩ := List.mem_filter.mp member
  have idle' := all n inside
  simp only [isIdle, Bool.or_eq_true, decide_eq_true_eq] at idle' nonempty
  exact idle'.resolve_left nonempty

theorem plainNotIdle {n : Name} (plain : Plain n) : isIdle n = false := by
  simp [isIdle, plain.nonempty, plain.notDot]

theorem segmentsThrough {pre n : Path} (ends : pre = [] ∨ ∃ a, pre = a ++ [slash]) (single : slash ∉ n) :
    segments (pre ++ n) = stages pre ++ [n] := by
  rcases ends with rfl | ⟨a, rfl⟩
  · exact segmentsPlain single
  · rw [List.append_assoc, List.singleton_append, segmentsAppend, segmentsPlain single, stages,
      segmentsAppend]
    simp [segments]

theorem namesStages {pre : Path} (ends : pre = [] ∨ ∃ a, pre = a ++ [slash]) :
    names pre = (stages pre).filter (fun n => n ≠ []) := by
  rcases ends with rfl | ⟨a, rfl⟩
  · rfl
  · rw [names, stages, segmentsAppend]
    simp [segments]

theorem trunkEnds {pre : Path} (ends : pre = [] ∨ ∃ a, pre = a ++ [slash]) :
    trunk pre = [] ∨ ∃ a, trunk pre = a ++ [slash] := by
  rcases ends with rfl | ⟨a, rfl⟩
  · exact Or.inl rfl
  · by_cases empty : trunk (a ++ [slash]) = []
    · exact Or.inl empty
    · have whole := leadTrunk (a ++ [slash])
      have last := congrArg List.getLast? whole
      rw [List.getLast?_append, List.getLast?_eq_some_getLast empty] at last
      simp only [Option.some_or, List.getLast?_append, List.getLast?_singleton,
        Option.some.injEq] at last
      have rebuilt := List.dropLast_concat_getLast empty
      rw [last] at rebuilt
      exact Or.inr ⟨_, rebuilt.symm⟩

theorem backwardsThrough {pre n : Path} (ends : pre = [] ∨ ∃ a, pre = a ++ [slash]) (single : slash ∉ n)
    (counts : isIdle n = false) : backwards (pre ++ n) = n :: (stages (trunk pre)).reverse := by
  have notDot : n ≠ dot := by
    rintro rfl
    cases counts
  have split : (pre ++ n).drop (lead (pre ++ n)).length = trunk pre ++ n := by
    rw [leadThrough ends single notDot]
    have whole := leadTrunk pre
    conv => lhs; arg 2; rw [← whole]
    rw [List.append_assoc, List.drop_left]
  rw [backwards, split, segmentsThrough (trunkEnds ends) single, List.reverse_append]
  simp [counts]

theorem fileNameThrough {pre n : Path} (ends : pre = [] ∨ ∃ a, pre = a ++ [slash]) (plain : Plain n) :
    fileName? (pre ++ n) = some n := by
  rw [fileName?, backwardsThrough ends plain.noSlash (plainNotIdle plain)]
  exact if_neg plain.notDotDot

theorem parentThrough {pre n : Path} (ends : pre = [] ∨ ∃ a, pre = a ++ [slash]) (plain : Plain n) :
    parent? (pre ++ n) = some (lead pre ++ join (kept (stages (trunk pre)))) := by
  rw [parent?, backwardsThrough ends plain.noSlash (plainNotIdle plain),
    leadThrough ends plain.noSlash plain.notDot]
  rfl

theorem folderBare {n : Name} (plain : Plain n) : folder n = dot := by
  have parent := parentThrough (Or.inl rfl : ([] : Path) = [] ∨ _) plain
  rw [List.nil_append] at parent
  rw [folder, parent]
  rfl

theorem keptNoSlash {trunk : Path} {n : Name} (member : n ∈ kept (stages trunk)) : slash ∉ n := by
  obtain ⟨idle, split, _⟩ := keptPrefix (stages trunk)
  have inside : n ∈ stages trunk := split ▸ List.mem_append_left idle member
  exact segmentsNoSlash (List.dropLast_subset _ inside)

theorem namesKept (trunk : Path) :
    names (join (kept (stages trunk))) = (kept (stages trunk)).filter (fun n => n ≠ []) := by
  by_cases empty : kept (stages trunk) = []
  · rw [empty]
    rfl
  · rw [names, segmentsJoin empty (fun n member => keptNoSlash member)]

theorem joinKeptNonempty {trunk : Path} (some' : kept (stages trunk) ≠ []) :
    join (kept (stages trunk)) ≠ [] := by
  intro blank
  have again := segmentsJoin some' (fun n member => keptNoSlash member)
  rw [blank] at again
  have counts := keptCounts some'
  simp only [← again, segments, List.getLast_singleton] at counts
  exact absurd counts (by decide)

theorem namesHead {c : UInt8} {p : Path} (other : c ≠ slash) : names (c :: p) ≠ [] := by
  simp only [names, segments, if_neg other]
  split <;> simp

theorem trunkNames {pre : Path} (ends : pre = [] ∨ ∃ a, pre = a ++ [slash]) :
    ∃ k, names (trunk pre) = names (join (kept (stages (trunk pre)))) ++ List.replicate k dot := by
  obtain ⟨idle, split, all⟩ := keptPrefix (stages (trunk pre))
  obtain ⟨k, dots⟩ := idleNames all
  exact ⟨k, by rw [namesStages (trunkEnds ends), namesKept, ← dots, ← List.filter_append, ← split]⟩

theorem dottedNames (rest : Path) : names (dot ++ join (kept (stages (slash :: rest)))) =
    names dot ++ names (join (kept (stages (slash :: rest)))) := by
  obtain ⟨idle, split, _⟩ := keptPrefix (stages (slash :: rest))
  have first : stages (slash :: rest) = [] :: stages rest := by
    have whole := segmentsAppend [] rest
    rw [List.nil_append] at whole
    rw [stages, whole]
    exact List.dropLast_cons_of_ne_nil (segmentsNeNil rest)
  cases shape : kept (stages (slash :: rest)) with
  | nil => rfl
  | cons m ms =>
    rw [shape, first] at split
    obtain ⟨rfl, _⟩ := List.cons.inj split
    cases ms with
    | nil =>
      have some' : kept (stages (slash :: rest)) ≠ [] := by rw [shape]; simp
      have counts := keptCounts some'
      simp only [shape, List.getLast_singleton] at counts
      exact absurd counts (by decide)
    | cons j js =>
      have joined := namesAppend dot (join (j :: js))
      have alone := namesAppend [] (join (j :: js))
      rw [namesNil, List.nil_append] at alone
      exact joined.trans (congrArg (names dot ++ ·) alone).symm

theorem relativeKept {c : UInt8} {rest : Path} (ends : ∃ a, c :: rest = a ++ [slash]) (other : c ≠ slash)
    (some' : kept (stages (c :: rest)) ≠ []) : isAbsolute (join (kept (stages (c :: rest)))) = false := by
  obtain ⟨a, same⟩ := ends
  obtain ⟨idle, split, _⟩ := keptPrefix (stages (c :: rest))
  obtain ⟨after, joined⟩ := joinPrefix (kept (stages (c :: rest))) idle
  cases text : join (kept (stages (c :: rest))) with
  | nil => exact absurd text (joinKeptNonempty some')
  | cons d ds =>
    rw [← split, text, stages, same, segmentsAppend] at joined
    simp only [segments, List.dropLast_concat, joinSegments] at joined
    have first : d = c := by
      rw [← joined] at same
      exact (List.cons.inj same).1.symm
    simp [isAbsolute, first, other]

theorem folderNames {pre n : Path} (ends : ∃ a, pre = a ++ [slash]) (plain : Plain n) :
    ∃ k, names pre = names (folder (pre ++ n)) ++ List.replicate k dot ∧
      isAbsolute (folder (pre ++ n)) = isAbsolute pre := by
  obtain ⟨k, trunked⟩ := trunkNames (Or.inr ends)
  rw [folder, parentThrough (Or.inr ends) plain]
  dsimp only
  rw [namesLead pre]
  cases led pre with
  | root rest =>
    rw [ledRoot, if_neg (by simp)]
    have rooted := namesAppend [] (join (kept (stages (trunk (slash :: rest)))))
    exact ⟨k, by rw [trunked, ← List.append_assoc]; exact congrArg (· ++ _) rooted.symm, rfl⟩
  | here rest =>
    have after : trunk (46 :: slash :: rest) = slash :: rest := by rw [trunk, ledHere]; rfl
    rw [ledHere, if_neg (by simp [dot])]
    refine ⟨k, ?_, rfl⟩
    rw [trunked, after, dottedNames, List.append_assoc]
  | dot =>
    obtain ⟨a, same⟩ := ends
    cases a with
    | nil => exact absurd same (by decide)
    | cons c rest => simp [Path.dot] at same
  | bare none other =>
    have whole : trunk pre = pre := by rw [trunk, none]; rfl
    rw [none, List.nil_append, namesNil, List.nil_append]
    rw [whole] at trunked ⊢
    cases pre with
    | nil =>
      obtain ⟨a, same⟩ := ends
      simp at same
    | cons c rest =>
      have plainHead : c ≠ slash := by
        intro bad
        exact other (by rw [bad]; rfl)
      have relative : isAbsolute (c :: rest) = false := by simp [isAbsolute, plainHead]
      by_cases empty : kept (stages (c :: rest)) = []
      · rw [empty] at trunked ⊢
        rw [join, if_pos rfl]
        cases k with
        | zero => exact absurd trunked (namesHead plainHead)
        | succ k => exact ⟨k, by rw [trunked, List.replicate_succ]; rfl, relative.symm⟩
      · rw [if_neg (joinKeptNonempty empty)]
        exact ⟨k, trunked, (relativeKept ends plainHead empty).trans relative.symm⟩

theorem folderPrefix {pre n : Path} (ends : pre = [] ∨ ∃ a, pre = a ++ [slash]) (plain : Plain n) :
    folder (pre ++ n) <+: pre ++ n ∨ folder (pre ++ n) = dot := by
  rw [folder, parentThrough ends plain]
  dsimp only
  split
  · exact Or.inr rfl
  · left
    obtain ⟨idle, split', _⟩ := keptPrefix (stages (trunk pre))
    have joined : join (kept (stages (trunk pre))) <+: trunk pre ++ n := by
      have whole := joinPrefix (kept (stages (trunk pre))) (idle ++ [n])
      rw [← List.append_assoc, ← split', ← segmentsThrough (trunkEnds ends) plain.noSlash, joinSegments] at whole
      exact whole
    have led := (List.prefix_append_right_inj (lead pre)).mpr joined
    rwa [← List.append_assoc, leadTrunk] at led

theorem leadlessCounts {p : Path} (some' : p ≠ []) (none : lead p = []) :
    ∃ s ss, segments p = s :: ss ∧ isIdle s = false := by
  match p with
  | [] => exact absurd rfl some'
  | [c] =>
    have other : c ≠ slash ∧ c ≠ 46 := by simpa [lead] using none
    exact ⟨[c], [], by simp [segments, other.1], by simp [isIdle, dot, other.2]⟩
  | c :: d :: rest =>
    have other : c ≠ slash ∧ (c = 46 → d ≠ slash) := by simpa [lead] using none
    by_cases cut : d = slash
    · have counts : c ≠ 46 := fun same => other.2 same cut
      exact ⟨[c], segments rest, by simp [segments, other.1, cut], by simp [isIdle, dot, counts]⟩
    · cases shape : segments rest with
      | nil => exact absurd shape (segmentsNeNil rest)
      | cons s ss => exact ⟨c :: d :: s, ss, by simp [segments, other.1, cut, shape], by simp [isIdle, dot]⟩

theorem parentBlank {pre n : Path} (ends : pre = [] ∨ ∃ a, pre = a ++ [slash]) (plain : Plain n) :
    parent? (pre ++ n) = some [] ↔ pre = [] := by
  rw [parentThrough ends plain, Option.some.injEq, List.append_eq_nil_iff]
  constructor
  · rintro ⟨none, joined⟩
    by_contra some'
    obtain ⟨a, same⟩ := ends.resolve_left some'
    have whole : trunk pre = pre := by rw [trunk, none]; rfl
    rw [whole] at joined
    have empty : kept (stages pre) = [] := by
      by_contra filled
      exact joinKeptNonempty filled joined
    -- All that was cut off does not count, but the first segment of all does.
    obtain ⟨idle, split, all⟩ := keptPrefix (stages pre)
    obtain ⟨s, ss, first, counts⟩ := leadlessCounts some' none
    have early : s ∈ stages pre := by
      rw [same, segmentsAppend] at first
      rw [same, stages, segmentsAppend]
      cases shape : segments a with
      | nil => exact absurd shape (segmentsNeNil a)
      | cons t ts =>
        rw [shape, List.cons_append] at first
        cases first
        change s ∈ (s :: ts ++ [[]]).dropLast
        rw [List.dropLast_concat]
        exact List.mem_cons_self
    rw [empty, List.nil_append] at split
    cases (all s (split ▸ early)).symm.trans counts
  · rintro rfl
    exact ⟨rfl, rfl⟩

end AtomicUpdate.Path
