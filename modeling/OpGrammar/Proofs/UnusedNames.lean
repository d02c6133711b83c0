import OpGrammar.Proofs.Mirrors

/-!
# Names that are not used

A name that no later pattern refers to could as well have no meaning, but for one thing: when it gets
another meaning, all groups in parentheses are made anew, also those without names. A group that is on
a hop already then is another group than the one that a later pattern gets, and the two patterns do
not share the way after it. This is the only difference that a name can make that is not used.
-/

namespace OpGrammar

variable {ν : Type}

namespace Lexicon

/-! ## Groups that are made anew -/

/-- The texts of the groups of this generation that are on hops. -/
def shared (lexicon : Lexicon ν) : List Text :=
  lexicon.graph.toList.flatMap fun node => node.hops.filterMap fun hop =>
    match hop.group.id with
    | .inline source generation =>
      if generation = lexicon.meanings.generation then some source else none
    | .named _ _ => none

theorem mem_shared {lexicon : Lexicon ν} {id : Nat} {node : Node Group ν} {hop : Hop Group}
    (present : lexicon.graph[id]? = some node) (mem : hop ∈ node.hops) {source : Text}
    (same : hop.group.id = .inline source lexicon.meanings.generation) :
    source ∈ lexicon.shared := by
  refine List.mem_flatMap.2 ⟨node, ?_, List.mem_filterMap.2 ⟨hop, mem, by simp [same]⟩⟩
  exact Array.mem_toList_iff.2 (Array.mem_of_getElem? present)

/-- Whether one of the groups is put on a hop in this generation. -/
def reopens (sources : List Text) (generation : Nat) : Lexicon ν → List (Call ν) → Bool
  | _, [] => false
  | lexicon, call :: calls =>
    lexicon.meanings.generation = generation && ((call.opens lexicon).any sources.contains ||
      reopens sources generation (call.run lexicon).2 calls)

/-- Whether one of the groups that are on hops when the name first gets another meaning is put on a
hop again in the next generation. -/
def separates (name : Text) : Lexicon ν → List (Call ν) → Bool
  | _, [] => false
  | lexicon, call :: calls =>
    if lexicon.knows name && call.gives lexicon name then
      reopens lexicon.shared (lexicon.meanings.generation + 1) (call.run lexicon).2 calls
    else separates name (call.run lexicon).2 calls

/-! ## A new generation on one side -/

def Past (lexicon : Lexicon ν) (id : GroupId) : Prop :=
  id.generation < lexicon.meanings.generation ∨
  (∃ (n : Nat) (node : Node Group ν) (hop : Hop Group),
    lexicon.graph[n]? = some node ∧ hop ∈ node.hops ∧ hop.group.id = id) ∨
  ∃ name group, lexicon.meanings.group? name = some group ∧ group.id = id

section Past

variable {lexicon : Lexicon ν} (kept : lexicon.Kept)

include kept

theorem Past.early {id : GroupId} (past : lexicon.Past id) :
    id.generation ≤ lexicon.meanings.generation := by
  rcases past with early | ⟨n, node, hop, present, mem, rfl⟩ | ⟨name, group, known, rfl⟩
  · exact early.le
  · have recalls := kept.keeps n node hop present mem
    cases id : hop.group.id with
    | inline source generation =>
      rcases (Meanings.recalls_inline source generation id).1 recalls with early | ⟨same, -⟩
      · exact early.le
      · exact same.le
    | named name generation => exact ((Meanings.recalls_named name generation id).1 recalls).1
  · obtain ⟨generation, early, id⟩ := kept.tidy name group known
    rw [id]
    exact early

theorem not_past_inline {source : Text} {generation : Nat}
    (late : lexicon.meanings.generation ≤ generation)
    (apart : generation = lexicon.meanings.generation → source ∉ lexicon.shared) :
    ¬lexicon.Past (.inline source generation) := by
  intro past
  obtain rfl : generation = lexicon.meanings.generation := Nat.le_antisymm (past.early kept) late
  rcases past with early | ⟨n, node, hop, present, mem, id⟩ | ⟨name, group, known, id⟩
  · exact absurd early (Nat.lt_irrefl _)
  · exact apart rfl (mem_shared present mem id)
  · obtain ⟨_, -, id'⟩ := kept.tidy name group known
    cases id.symm.trans id'

theorem not_past_named {name : Text} {generation : Nat}
    (late : lexicon.meanings.generation ≤ generation)
    (unknown : generation = lexicon.meanings.generation → lexicon.knows name = false) :
    ¬lexicon.Past (.named name generation) := by
  intro past
  obtain rfl : generation = lexicon.meanings.generation := Nat.le_antisymm (past.early kept) late
  have unknown : (lexicon.meanings.group? name).isSome = false := unknown rfl
  rcases past with early | ⟨n, node, hop, present, mem, id⟩ | ⟨name', group, known, id⟩
  · exact absurd early (Nat.lt_irrefl _)
  · obtain ⟨-, current, known, -⟩ :=
      (Meanings.recalls_named name _ id).1 (kept.keeps n node hop present mem)
    rw [known] at unknown
    cases unknown
  · obtain ⟨_, -, id'⟩ := kept.tidy name' group known
    cases id.symm.trans id'
    rw [known] at unknown
    cases unknown

end Past

open Classical in
/-- Leaves the ids that there are in a lexicon, and moves the others to the next generation. -/
noncomputable def advance (lexicon : Lexicon ν) (id : GroupId) : GroupId :=
  if lexicon.Past id then id else id.later 1

theorem advance_past {lexicon : Lexicon ν} {id : GroupId} (past : lexicon.Past id) :
    lexicon.advance id = id :=
  if_pos past

theorem advance_new {lexicon : Lexicon ν} {id : GroupId} (new : ¬lexicon.Past id) :
    lexicon.advance id = id.later 1 :=
  if_neg new

theorem injective_advance {lexicon : Lexicon ν} (kept : lexicon.Kept) :
    Function.Injective lexicon.advance := by
  -- Ids are moved on to new ones, so none is moved on to one that stays.
  have before (id : GroupId) (past : lexicon.Past (id.later 1)) : lexicon.Past id := by
    have early := past.early kept
    refine .inl ?_
    cases id <;> exact early
  intro id id' same
  by_cases past : lexicon.Past id <;> by_cases past' : lexicon.Past id'
  · rwa [advance_past past, advance_past past'] at same
  · rw [advance_past past, advance_new past'] at same
    exact absurd (before id' (same ▸ past)) past'
  · rw [advance_new past, advance_past past'] at same
    exact absurd (before id (same ▸ past')) past
  · rw [advance_new past, advance_new past'] at same
    cases id <;> cases id' <;> cases same <;> rfl

theorem Mirrors.advances {name : Text} {lexicon lexicon' lexicon₁ : Lexicon ν}
    (mirrors : Mirrors name id 0 lexicon lexicon') (kept : lexicon.Kept) (branches : Branches Link)
    (groups : InlineGroups) (known : lexicon.knows name = true)
    (graph : lexicon₁.graph = lexicon'.graph) (patterns : lexicon₁.patterns = lexicon'.patterns)
    (generation : lexicon₁.meanings.generation = lexicon'.meanings.generation)
    (others : ∀ name' ≠ name, lexicon₁.meanings.group? name' = lexicon'.meanings.group? name') :
    Mirrors name lexicon.advance 1 (give name branches { lexicon with inlineGroups := groups })
      lexicon₁ := by
  have early : lexicon.meanings.generation = lexicon₁.meanings.generation :=
    mirrors.generation.trans generation.symm
  have stays {group group' : Group} (past : lexicon.Past group.id)
      (twin : Group.Twin (fun id id' => id = id') group group') :
      Group.Twin (fun id id' => id = lexicon.advance id') group group' :=
    ⟨(advance_past past).symm.trans (congrArg _ twin.id), twin.reads⟩
  refine ⟨injective_advance kept, ?_, fun n => ?_, fun name' other => ?_, ?_, fun id upcoming => ?_⟩
  · rw [give_patterns, patterns, mirrors.patterns]
  · rw [give_graph, graph]
    refine rel_mono (mirrors.graph n) fun node present node' twin => twin.mono ?_
    exact fun hop mem group' same => stays (.inr (.inl ⟨n, node, hop, present, mem, rfl⟩)) same
  · rw [give_group?, if_neg other, others name' other]
    exact rel_mono (mirrors.names name' other) fun group known group' same =>
      stays (.inr (.inr ⟨name', group, known, rfl⟩)) same
  · rw [give_generation, ← early]
    exact congrArg (lexicon.meanings.generation + Bool.toNat ·) known
  · refine advance_new ?_
    cases upcoming with
    | first name' other unknown =>
      have unknown : (lexicon₁.meanings.group? name').isSome = false := unknown
      rw [others name' other] at unknown
      exact not_past_named kept early.le fun _ => (mirrors.knows other).trans unknown
    | later name' generation after =>
      rw [← early] at after
      exact not_past_named kept after.le fun same => absurd same (by omega)

theorem Mirrors.renamed {name : Text} {lexicon lexicon' : Lexicon ν}
    (mirrors : Mirrors name id 0 lexicon lexicon') (kept : lexicon.Kept) (kept' : lexicon'.Kept)
    (call : Call ν) (unused : name ∉ call.names) (gives : call.gives lexicon name = true)
    (known : lexicon.knows name = true) (unknown : lexicon'.knows name = false) :
    (call.run lexicon).1 = (call.run lexicon').1 ∧
      Mirrors name lexicon.advance 1 (call.run lexicon).2 (call.run lexicon').2 := by
  rcases call with ⟨name' | _⟩ | _ | _
  case meaning text =>
    obtain ⟨same, accepts⟩ := Bool.and_eq_true_iff.1 gives
    obtain rfl := of_decide_eq_true same
    obtain ⟨_, taken⟩ := of_decide_eq_true accepts
    rcases mirrors.setMeaning_alongside kept kept' name' text unused with
      ⟨_, _, _, eq, -⟩ | ⟨branches, branches', groups, groups', -, eq, eq'⟩
    · cases eq.symm.trans taken
    · rw [run_meaning eq, run_meaning eq']
      refine ⟨rfl, mirrors.advances kept branches groups known ?_ ?_ ?_ fun name₁ other => ?_⟩
      · exact give_graph ..
      · exact give_patterns ..
      · refine (give_generation ..).trans ?_
        exact congrArg (lexicon'.meanings.generation + Bool.toNat ·) unknown
      · exact (give_group? ..).trans (if_neg other)
  all_goals cases gives

theorem Mirrors.first {name : Text} {f : GroupId → GroupId} {ahead : Nat}
    {lexicon lexicon' : Lexicon ν} (mirrors : Mirrors name f ahead lexicon lexicon')
    (branches : Branches Link) (groups : InlineGroups) (unknown : lexicon.knows name = false) :
    Mirrors name f ahead (give name branches { lexicon with inlineGroups := groups }) lexicon' := by
  refine ⟨mirrors.injective, ?_, ?_, fun name' other => ?_, ?_, mirrors.upcoming⟩
  · rw [give_patterns, mirrors.patterns]
  · rw [give_graph]
    exact mirrors.graph
  · rw [give_group?, if_neg other]
    exact mirrors.names name' other
  · rw [give_generation, ← mirrors.generation]
    exact congrArg (lexicon.meanings.generation + Bool.toNat ·) unknown

/-! ## Sessions without the meaning -/

theorem stateAfter_concat (calls : List (Call ν)) (call : Call ν) :
    stateAfter Call.run empty (calls ++ [call]) = (call.run (stateAfter Call.run empty calls)).2 :=
  List.foldl_concat ..

theorem reopens_of_late (sources : List Text) {generation : Nat} {lexicon : Lexicon ν}
    (late : lexicon.meanings.generation ≠ generation) (calls : List (Call ν)) :
    reopens sources generation lexicon calls = false := by
  cases calls with
  | nil => rfl
  | cons call calls => simp [reopens, late]

section Sessions

variable (name : Text)

/-- Once the name has the same number of meanings to come on both sides, nothing tells the sides apart
as long as no group is put on a hop again that `f` holds back. -/
theorem answers_advanced {f : GroupId → GroupId} {sources : List Text} {generation : Nat}
    (free : ∀ source generation', generation ≤ generation' →
      (generation' = generation → source ∉ sources) →
      f (.inline source generation') = .inline source (generation' + 1))
    (calls before before' : List (Call ν))
    (mirrors : Mirrors name f 1 (stateAfter Call.run empty before)
      (stateAfter Call.run empty before'))
    (knows : (stateAfter Call.run empty before).knows name = true)
    (knows' : (stateAfter Call.run empty before').knows name = true)
    (late : generation ≤ (stateAfter Call.run empty before').meanings.generation)
    (unused : ∀ call ∈ calls, name ∉ call.names)
    (apart : reopens sources (generation + 1) (stateAfter Call.run empty before) calls = false) :
    answers Call.run (stateAfter Call.run empty before) calls =
      answers Call.run (stateAfter Call.run empty before') calls := by
  induction calls generalizing before before' with
  | nil => rfl
  | cons call calls ih =>
    have kept := stateAfter_kept before
    have kept' := stateAfter_kept before'
    have ih := ih (before ++ [call]) (before' ++ [call])
    rw [stateAfter_concat, stateAfter_concat] at ih
    generalize stateAfter Call.run empty before = lexicon at *
    generalize stateAfter Call.run empty before' = lexicon' at *
    rw [List.forall_mem_cons] at unused
    rw [reopens, Bool.and_eq_false_iff, Bool.or_eq_false_iff, decide_eq_false_iff_not] at apart
    have opens : ∀ source ∈ call.opens lexicon, f (.inline source lexicon'.meanings.generation) =
        .inline source lexicon.meanings.generation := by
      intro source mem
      rw [mirrors.generation]
      refine free source _ late fun same held => ?_
      rcases apart with other | ⟨none, -⟩
      · exact other (by rw [mirrors.generation, same])
      · exact List.any_eq_false.1 none source mem (List.contains_iff_mem.2 held)
    obtain ⟨same, mirrors'⟩ := mirrors.run kept kept' call unused.1 opens
      fun _ => knows.trans knows'.symm
    rw [answers, answers]
    congr 1
    · rcases same with rfl | same
      · exact congrArg Answer.known (knows.trans knows'.symm)
      · exact same
    · refine ih mirrors' (by rw [knows_run, knows]; rfl) (by rw [knows_run, knows']; rfl)
        (late.trans (generation_le_run lexicon' call)) unused.2 ?_
      rcases apart with other | ⟨-, more⟩
      · refine reopens_of_late sources ?_ calls
        have := generation_le_run lexicon call
        have := mirrors.generation
        omega
      · exact more

theorem advance_free {lexicon : Lexicon ν} (kept : lexicon.Kept) (source : Text) (generation : Nat)
    (late : lexicon.meanings.generation ≤ generation)
    (apart : generation = lexicon.meanings.generation → source ∉ lexicon.shared) :
    lexicon.advance (.inline source generation) = .inline source (generation + 1) :=
  advance_new (not_past_inline kept late apart)

theorem answers_unseen (calls before before' : List (Call ν))
    (mirrors : Mirrors name id 0 (stateAfter Call.run empty before)
      (stateAfter Call.run empty before'))
    (knows : (stateAfter Call.run empty before).knows name = true)
    (unknown : (stateAfter Call.run empty before').knows name = false)
    (unused : ∀ call ∈ calls, name ∉ call.names)
    (apart : separates name (stateAfter Call.run empty before) calls = false) (i : Nat)
    (call : Call ν) (here : calls[i]? = some call) (other : call ≠ .knows name) :
    (answers Call.run (stateAfter Call.run empty before) calls)[i]? =
      (answers Call.run (stateAfter Call.run empty before') calls)[i]? := by
  induction calls generalizing before before' i with
  | nil => cases here
  | cons first calls ih =>
    have kept := stateAfter_kept before
    have kept' := stateAfter_kept before'
    have ih := ih (before ++ [first]) (before' ++ [first])
    have advanced := answers_advanced name (advance_free kept) calls (before ++ [first])
      (before' ++ [first])
    rw [stateAfter_concat, stateAfter_concat] at ih advanced
    generalize stateAfter Call.run empty before = lexicon at *
    generalize stateAfter Call.run empty before' = lexicon' at *
    rw [List.forall_mem_cons] at unused
    have gives := mirrors.gives kept kept' first unused.1 name
    rw [separates, knows, Bool.true_and] at apart
    -- Up to the call that renames, the ids are the same on both sides. This call starts a new
    -- generation on one side only, and from there on the ids of this side are ahead.
    cases gives' : first.gives lexicon name with
    | false =>
      rw [gives'] at apart gives
      obtain ⟨same, mirrors'⟩ := mirrors.run kept kept' first unused.1
        (fun source _ => by rw [mirrors.generation]; rfl) (fun given => by cases gives'.symm.trans given)
      cases i with
      | zero =>
        obtain rfl := Option.some.inj here
        exact congrArg some (same.resolve_left other)
      | succ i =>
        refine ih mirrors' (by rw [knows_run, knows]; rfl) ?_ unused.2 apart i here
        rw [knows_run, unknown, ← gives]
        rfl
    | true =>
      rw [gives'] at apart
      obtain ⟨same, mirrors'⟩ := mirrors.renamed kept kept' first unused.1 gives' knows unknown
      have later := advanced mirrors' (by rw [knows_run, knows]; rfl)
        (by rw [knows_run, unknown, ← gives, gives']; rfl)
        (mirrors.generation.le.trans (generation_le_run lexicon' first)) unused.2 apart
      cases i with
      | zero => exact congrArg some same
      | succ i => exact congrArg (·[i]?) later

end Sessions

/-- A meaning of a name that no later pattern refers to can be left out of a session, unless groups are
separated by it: what comes later is answered the same, but for whether the name has a meaning. -/
theorem unused_meaning_unseen (before after : List (Call ν)) (name text : Text)
    (accepts : (stateAfter Call.run empty before).Accepts (.meaning name text))
    (unused : ∀ call ∈ after, name ∉ call.names)
    (apart : separates name (stateAfter Call.run empty before)
      (.enter (.meaning name text) :: after) = false)
    (i : Nat) (call : Call ν) (here : after[i]? = some call) (other : call ≠ .knows name) :
    (answers Call.run empty (before ++ .enter (.meaning name text) :: after))[before.length + 1 + i]? =
      (answers Call.run empty (before ++ after))[before.length + i]? := by
  have kept := stateAfter_kept before
  have advanced := answers_advanced name (advance_free kept) after
    (before ++ [.enter (.meaning name text)]) before
  have unseen := answers_unseen name after (before ++ [.enter (.meaning name text)]) before
  have split := answers_append Call.run (empty : Lexicon ν) before
  rw [stateAfter_concat] at advanced unseen
  rw [split, split, ← length_answers Call.run (empty : Lexicon ν) before, Nat.add_assoc,
    List.getElem?_append_right (Nat.le_add_right _ _), List.getElem?_append_right (Nat.le_add_right _ _),
    Nat.add_sub_cancel_left, Nat.add_sub_cancel_left, answers, Nat.add_comm 1 i, List.getElem?_cons_succ]
  clear split
  generalize stateAfter Call.run empty before = lexicon at *
  obtain ⟨_, taken⟩ := accepts
  rcases setMeaning_result name text lexicon with ⟨_, _, refused⟩ | ⟨branches, groups, given⟩
  · cases refused.symm.trans taken
  have gives : Call.gives lexicon name (.enter (.meaning name text)) = true := by
    have accepts : lexicon.Accepts (.meaning name text) := ⟨_, taken⟩
    simp [Call.gives, accepts]
  have knows : (Call.run (.enter (.meaning name text)) lexicon).2.knows name = true := by
    rw [knows_run, gives, Bool.or_true]
  have ran : (Call.run (.enter (.meaning name text)) lexicon).2 =
      give name branches { lexicon with inlineGroups := groups } := by rw [run_meaning given]
  rw [separates, gives, Bool.and_true] at apart
  cases known : lexicon.knows name with
  | true =>
    rw [known] at apart
    have mirrors := (Mirrors.refl name lexicon).advances kept branches groups known rfl rfl rfl
      fun _ _ => rfl
    exact congrArg (·[i]?) (advanced (ran ▸ mirrors) knows known le_rfl unused apart)
  | false =>
    rw [known] at apart
    have mirrors := (Mirrors.refl name lexicon).first branches groups known
    exact unseen (ran ▸ mirrors) knows known unused apart i call here other

/-- The group `(g)` is on a hop when `N` gets another meaning, but no later pattern has it. -/
theorem unused_meaning_unseen_other_group :
    separates ['N'] (stateAfter Call.run (empty : Lexicon Nat) [.enter (.meaning ['N'] ['a']),
        .enter (.pattern "(g)u".toList 1)]) [.enter (.meaning ['N'] ['b']),
        .enter (.pattern "(h)v".toList 2), .knows ['N'], .longest ['h', 'v']] = false ∧
      (answers Call.run (empty : Lexicon Nat) [.enter (.meaning ['N'] ['a']),
        .enter (.pattern "(g)u".toList 1), .enter (.meaning ['N'] ['b']),
        .enter (.pattern "(h)v".toList 2), .knows ['N'], .longest ['h', 'v']])[5]? =
      (answers Call.run (empty : Lexicon Nat) [.enter (.meaning ['N'] ['a']),
        .enter (.pattern "(g)u".toList 1),
        .enter (.pattern "(h)v".toList 2), .knows ['N'], .longest ['h', 'v']])[4]? :=
  have apart : separates ['N'] (stateAfter Call.run (empty : Lexicon Nat)
      [.enter (.meaning ['N'] ['a']), .enter (.pattern "(g)u".toList 1)])
      [.enter (.meaning ['N'] ['b']), .enter (.pattern "(h)v".toList 2), .knows ['N'],
        .longest ['h', 'v']] = false := by decide +kernel
  ⟨apart, unused_meaning_unseen [.enter (.meaning ['N'] ['a']), .enter (.pattern "(g)u".toList 1)]
    [.enter (.pattern "(h)v".toList 2), .knows ['N'], .longest ['h', 'v']] ['N'] ['b']
    (by decide +kernel) (by decide +kernel) apart 2 (.longest ['h', 'v']) rfl (by decide)⟩

/-- The group `(g)` is made anew for the second pattern, and only the first one is found after it. -/
example : (ofEntries [.meaning ['N'] ['a'], .pattern "(g)u".toList 1, .meaning ['N'] ['b'],
      .pattern "(g)v".toList 2]).longest? ['g', 'v'] = none ∧
    (ofEntries [.meaning ['N'] ['a'], .pattern "(g)u".toList 1,
      .pattern "(g)v".toList 2]).longest? ['g', 'v'] = some ⟨['g', 'v'], 2, []⟩ := by
  decide +kernel

end Lexicon

end OpGrammar
