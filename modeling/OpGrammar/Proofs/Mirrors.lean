import OpGrammar.Proofs.Nesting
import OpGrammar.Proofs.TwoMeanings

/-!
# Lexicons beside each other

Two lexicons may differ in what one name means and in the ids of their groups, and still answer the
same to every call that has nothing to do with the name. This is so as long as a pattern that comes
finds the same of its groups on hops in both. One call at a time is followed here.
-/

namespace OpGrammar

variable {ν : Type}

/-! ## What a call has to do with -/

/-- The texts of the groups in the pattern, without the groups inside them. -/
def Pattern.sources (pattern : Pattern) : List Text :=
  pattern.flatten.filterMap fun piece =>
    match piece.atom with
    | .group source _ => some source
    | .char _ | .oneOf _ | .reference _ _ => none

theorem Pattern.mem_sources {pattern : Pattern} {branch : List (Piece Atom)} {piece : Piece Atom}
    (mem : branch ∈ pattern) (mem' : piece ∈ branch) {source : Text} {inner : Pattern}
    (group : piece.atom = .group source inner) : source ∈ pattern.sources :=
  List.mem_filterMap.2 ⟨piece, List.mem_flatten.2 ⟨branch, mem, mem'⟩, by rw [group]⟩

theorem namesOfBranch_eq (pieces : List (Piece Atom)) :
    namesOfBranch pieces = pieces.flatMap (·.atom.names) := by
  induction pieces with
  | nil => rfl
  | cons piece pieces ih => rw [namesOfBranch, ih, List.flatMap_cons]

theorem Pattern.mem_names {pattern : Pattern} {branch : List (Piece Atom)} {piece : Piece Atom}
    (mem : branch ∈ pattern) (mem' : piece ∈ branch) {name : Text} (named : name ∈ piece.atom.names) :
    name ∈ pattern.names := by
  induction pattern with
  | nil => cases mem
  | cons first pattern ih =>
    rw [names, namesOfBranches, List.mem_append]
    rcases List.mem_cons.1 mem with rfl | mem
    · rw [namesOfBranch_eq]
      exact .inl (List.mem_flatMap.2 ⟨piece, mem', named⟩)
    · exact .inr (ih mem)

namespace Lexicon

def Call.names : Call ν → List Text
  | .enter (.meaning _ text) | .enter (.pattern text _) =>
    match Pattern.read text with
    | .ok pattern => pattern.names
    | .error _ => []
  | .knows _ | .longest _ => []

/-- The texts of the groups that a call puts on hops. -/
def Call.opens (lexicon : Lexicon ν) : Call ν → List Text
  | .enter (.pattern text value) =>
    match Pattern.read text with
    | .ok pattern => if lexicon.Accepts (.pattern text value) then pattern.sources else []
    | .error _ => []
  | .enter (.meaning _ _) | .knows _ | .longest _ => []

def Call.gives (lexicon : Lexicon ν) (name : Text) : Call ν → Bool
  | .enter (.meaning name' text) => name' = name && decide (lexicon.Accepts (.meaning name' text))
  | .enter (.pattern _ _) | .knows _ | .longest _ => false

/-! ## What an entry does -/

/-- The lexicon in which the name means the group of some branches. -/
def give (name : Text) (branches : Branches Link) (lexicon : Lexicon ν) : Lexicon ν :=
  let { groups, generation } := lexicon.meanings
  if lexicon.knows name then
    let group := Group.ofBranches (.named name (generation + 1)) branches
    { lexicon with meanings := ⟨(name, group) :: groups, generation + 1⟩, inlineGroups := [] }
  else
    let group := Group.ofBranches (.named name generation) branches
    { lexicon with meanings := ⟨(name, group) :: groups, generation⟩ }

section Give

variable (name : Text) (branches : Branches Link) (lexicon : Lexicon ν)

@[simp] theorem give_graph : (lexicon.give name branches).graph = lexicon.graph := by
  unfold give
  dsimp only
  split <;> rfl

@[simp] theorem give_patterns : (lexicon.give name branches).patterns = lexicon.patterns := by
  unfold give
  dsimp only
  split <;> rfl

theorem give_generation : (lexicon.give name branches).meanings.generation =
    lexicon.meanings.generation + (lexicon.knows name).toNat := by
  unfold give
  dsimp only
  cases lexicon.knows name <;> rfl

theorem give_group? (name' : Text) : (lexicon.give name branches).meanings.group? name' =
    if name' = name then
      some (.ofBranches (.named name (lexicon.give name branches).meanings.generation) branches)
    else lexicon.meanings.group? name' := by
  rw [give_generation]
  unfold give
  dsimp only
  cases lexicon.knows name <;> exact Meanings.group?_cons ..

end Give

theorem knows_give (name : Text) (branches : Branches Link) (lexicon : Lexicon ν) (name' : Text) :
    (lexicon.give name branches).knows name' = (lexicon.knows name' || name' = name) := by
  rw [knows, Meanings.knows, give_group?]
  by_cases same : name' = name <;> simp [same, knows, Meanings.knows]

theorem setMeaning_eq (name text : Text) (lexicon : Lexicon ν) : setMeaning name text lexicon =
    if isName name then
      match Pattern.read text with
      | .error e => .error (.malformed e) lexicon
      | .ok pattern =>
        match pattern.links lexicon.meanings lexicon.inlineGroups with
        | .error e groups => .error e { lexicon with inlineGroups := groups }
        | .ok branches groups => .ok () (give name branches { lexicon with inlineGroups := groups })
    else .error (.malformedName name) lexicon := by
  unfold setMeaning
  cases isName name with
  | false => rfl
  | true =>
    simp only [bind_apply, Bool.not_true, Bool.false_eq_true, if_false, if_true]
    unfold readPattern
    cases Pattern.read text with
    | error e => rfl
    | ok pattern =>
      simp only [pure_apply]
      unfold Lexicon.links
      cases pattern.links lexicon.meanings lexicon.inlineGroups <;> rfl

theorem setMeaning_result (name text : Text) (lexicon : Lexicon ν) :
    (∃ e groups, setMeaning name text lexicon = .error e { lexicon with inlineGroups := groups }) ∨
      ∃ branches groups, setMeaning name text lexicon =
        .ok () (give name branches { lexicon with inlineGroups := groups }) := by
  rw [setMeaning_eq]
  cases isName name with
  | false => exact .inl ⟨_, _, rfl⟩
  | true =>
    cases Pattern.read text with
    | error e => exact .inl ⟨_, _, rfl⟩
    | ok pattern =>
      simp only [if_true]
      cases pattern.links lexicon.meanings lexicon.inlineGroups with
      | error e groups => exact .inl ⟨_, _, rfl⟩
      | ok branches groups => exact .inr ⟨_, _, rfl⟩

theorem insert_eq (text : Text) (value : ν) (lexicon : Lexicon ν) : insert text value lexicon =
    if text ∈ lexicon.patterns then .error (.redundant text) lexicon
    else
      match Pattern.read text with
      | .error e => .error (.malformed e) lexicon
      | .ok pattern =>
        match pattern.names.find? (!lexicon.meanings.knows ·) with
        | some name => .error (.unknownName name) lexicon
        | none =>
          if pattern.nullable lexicon.meanings.nullable then .error (.redundant text) lexicon
          else
            match pattern.links lexicon.meanings lexicon.inlineGroups with
            | .error e groups => .error e { lexicon with inlineGroups := groups }
            | .ok branches groups => .ok () ⟨lexicon.graph.addPattern branches value,
              lexicon.meanings, groups, text :: lexicon.patterns⟩ := by
  unfold insert
  by_cases old : text ∈ lexicon.patterns
  · simp [old]
  simp only [bind_apply, get_apply, old, if_false]
  unfold readPattern
  cases Pattern.read text with
  | error e => rfl
  | ok pattern =>
    simp only [pure_apply]
    cases pattern.names.find? (!lexicon.meanings.knows ·) with
    | some name => rfl
    | none =>
      dsimp only
      cases pattern.nullable lexicon.meanings.nullable with
      | true => rfl
      | false =>
        simp only [if_false, bind_apply, Bool.false_eq_true]
        unfold Lexicon.links
        cases pattern.links lexicon.meanings lexicon.inlineGroups <;> rfl

theorem run_meaning {name text : Text} {lexicon after : Lexicon ν}
    (taken : setMeaning name text lexicon = .ok () after) :
    Call.run (.enter (.meaning name text)) lexicon = (.entered (.ok ()), after) := by
  rw [Call.run, enter, taken]
  rfl

theorem run_cases (lexicon : Lexicon ν) (call : Call ν) :
    (call.run lexicon).2.meanings = lexicon.meanings ∧ (∀ name, call.gives lexicon name = false) ∨
      ∃ name branches groups, (∀ name', call.gives lexicon name' = decide (name' = name)) ∧
        (call.run lexicon).2 = give name branches { lexicon with inlineGroups := groups } := by
  cases call with
  | knows | longest => exact .inl ⟨rfl, fun _ => rfl⟩
  | enter entry =>
    cases entry with
    | pattern text value =>
      refine .inl ⟨?_, fun _ => rfl⟩
      rw [Call.run, enter]
      have cases := insert_cases lexicon text value
      generalize insert text value lexicon = result at cases ⊢
      cases cases <;> rfl
    | meaning name text =>
      rcases setMeaning_result name text lexicon with ⟨e, groups, refused⟩ | ⟨branches, groups, taken⟩
      · have refuses : ¬lexicon.Accepts (.meaning name text) := by
          rintro ⟨_, taken⟩
          cases refused.symm.trans taken
        refine .inl ⟨?_, fun name' => by simp [Call.gives, refuses]⟩
        rw [Call.run, enter, refused]
        rfl
      · have accepts : lexicon.Accepts (.meaning name text) := ⟨_, taken⟩
        refine .inr ⟨name, branches, groups, fun name' => by simp [Call.gives, accepts, eq_comm], ?_⟩
        rw [run_meaning taken]

theorem knows_run (lexicon : Lexicon ν) (call : Call ν) (name : Text) :
    (call.run lexicon).2.knows name = (lexicon.knows name || call.gives lexicon name) := by
  rcases run_cases lexicon call with ⟨same, none⟩ | ⟨name', branches, groups, gives, eq⟩
  · rw [none, Bool.or_false, knows, same, knows]
  · rw [gives, eq, knows_give]
    rfl

theorem generation_le_run (lexicon : Lexicon ν) (call : Call ν) :
    lexicon.meanings.generation ≤ (call.run lexicon).2.meanings.generation := by
  rcases run_cases lexicon call with ⟨same, -⟩ | ⟨name, branches, groups, -, eq⟩
  · rw [same]
  · rw [eq, give_generation]
    exact Nat.le_add_right _ _

end Lexicon

/-! ## Lexicons beside each other -/

/-- The same text or name, some generations later. -/
def GroupId.later (n : Nat) : GroupId → GroupId
  | .inline source generation => .inline source (generation + n)
  | .named name generation => .named name (generation + n)

def GroupId.generation : GroupId → Nat
  | .inline _ generation | .named _ generation => generation

/-- The ids that names other than this one can get from now on. -/
inductive Meanings.Upcoming (meanings : Meanings) (name : Text) : GroupId → Prop
  | first (name' : Text) (other : name' ≠ name) (unknown : meanings.knows name' = false) :
    Upcoming meanings name (.named name' meanings.generation)
  | later (name' : Text) (generation : Nat) (after : meanings.generation < generation) :
    Upcoming meanings name (.named name' generation)

namespace Lexicon

theorem upcoming_give {name : Text} {lexicon : Lexicon ν} (name' : Text) (branches : Branches Link)
    {id : GroupId} (upcoming : (give name' branches lexicon).meanings.Upcoming name id) :
    lexicon.meanings.Upcoming name id := by
  cases upcoming with
  | first name₁ other unknown =>
    have unknown : (give name' branches lexicon).knows name₁ = false := unknown
    rw [knows_give, Bool.or_eq_false_iff] at unknown
    rw [give_generation]
    cases lexicon.knows name' with
    | false => exact .first name₁ other unknown.1
    | true => exact .later name₁ _ (Nat.lt_succ_self _)
  | later name₁ generation after =>
    rw [give_generation] at after
    exact .later name₁ generation (by omega)

theorem upcoming_named {name name' : Text} (lexicon : Lexicon ν) (other : name' ≠ name)
    (branches : Branches Link) : lexicon.meanings.Upcoming name
      (.named name' (give name' branches lexicon).meanings.generation) := by
  rw [give_generation]
  cases known : lexicon.knows name' with
  | false => exact .first name' other known
  | true => exact .later name' _ (Nat.lt_succ_self _)

/-- Both lexicons have the same patterns and names, but for this one name. The groups on one side
have other ids than those on the other, given by `f`. New generations are so many ahead. -/
structure Mirrors (name : Text) (f : GroupId → GroupId) (ahead : Nat)
    (lexicon lexicon' : Lexicon ν) : Prop where
  injective : Function.Injective f
  patterns : lexicon.patterns = lexicon'.patterns
  graph : lexicon.graph.Twin (Group.Twin fun id id' => id = f id') lexicon'.graph
  names : ∀ name' ≠ name, Option.Rel (Group.Twin fun id id' => id = f id')
    (lexicon.meanings.group? name') (lexicon'.meanings.group? name')
  generation : lexicon.meanings.generation = lexicon'.meanings.generation + ahead
  upcoming : ∀ id, lexicon'.meanings.Upcoming name id → f id = id.later ahead

/-- What holds of every lexicon that entries make. -/
structure Kept (lexicon : Lexicon ν) : Prop where
  coherent : Coherent lexicon.meanings lexicon.inlineGroups
  tidy : lexicon.meanings.Tidy
  keeps : ∀ (id : Nat) (node : Node Group ν) hop, lexicon.graph[id]? = some node →
    hop ∈ node.hops → lexicon.meanings.Recalls hop.group

theorem stateAfter_kept (calls : List (Call ν)) : (stateAfter Call.run empty calls).Kept := by
  rw [stateAfter_eq_ofEntries]
  have identifies := ofEntries_identifies (calls.filterMap Call.entry?)
  exact ⟨ofEntries_coherent _, identifies.tidy, fun id node hop present mem =>
    identifies.recalls _ (.root id node hop present mem)⟩

namespace Mirrors

variable {name : Text} {f : GroupId → GroupId} {ahead : Nat} {lexicon lexicon' : Lexicon ν}

theorem refl (name : Text) (lexicon : Lexicon ν) : Mirrors name id 0 lexicon lexicon := by
  have twin (group : Group) : Group.Twin (fun id id' => id = id') group group := ⟨rfl, .refl group⟩
  refine ⟨Function.injective_id, rfl, Graph.twin_refl twin _, fun _ _ => rel_refl twin _, rfl, ?_⟩
  rintro _ (_ | _) <;> rfl

theorem pairs (mirrors : Mirrors name f ahead lexicon lexicon') :
    Pairs (Group.Twin fun id id' => id = f id') :=
  pairs_twin fun _ _ _ _ same same' => by rw [same, same', mirrors.injective.eq_iff]

theorem agree (mirrors : Mirrors name f ahead lexicon lexicon') {names : List Text}
    (unused : name ∉ names) : lexicon.meanings.AgreeOn lexicon'.meanings names := by
  intro name' mem
  exact rel_mono (mirrors.names name' fun same => unused (same ▸ mem)) fun _ _ _ twin => twin.reads

theorem longest? (mirrors : Mirrors name f ahead lexicon lexicon') (text : Text) :
    lexicon.longest? text = lexicon'.longest? text :=
  congrArg (Option.map _) (mirrors.graph.walk mirrors.pairs [0] 0 text)

theorem knows (mirrors : Mirrors name f ahead lexicon lexicon') {name' : Text}
    (other : name' ≠ name) : lexicon.knows name' = lexicon'.knows name' := by
  have agree : lexicon.meanings.AgreeOn lexicon'.meanings [name'] :=
    mirrors.agree fun mem => other (List.mem_singleton.1 mem).symm
  exact agree.knows List.mem_cons_self

/-! ### One entry -/

theorem allows (mirrors : Mirrors name f ahead lexicon lexicon') {pattern : Pattern}
    (unused : name ∉ pattern.names) (opens : ∀ source ∈ pattern.sources,
      f (.inline source lexicon'.meanings.generation) = .inline source lexicon.meanings.generation) :
    ∀ branch ∈ pattern, ∀ piece ∈ branch, ∀ id id',
      piece.atom.Ids lexicon.meanings lexicon'.meanings id id' → id = f id' := by
  rintro branch mem piece mem' id id' ⟨here, there⟩
  cases atom : piece.atom with
  | char | oneOf =>
    rw [atom] at here
    cases here
  | group source inner =>
    rw [atom] at here there
    cases here
    cases there
    exact (opens source (Pattern.mem_sources mem mem' atom)).symm
  | reference label name' =>
    rw [atom] at here there
    obtain ⟨group, known, rfl⟩ := Option.map_eq_some_iff.1 here
    obtain ⟨group', known', rfl⟩ := Option.map_eq_some_iff.1 there
    have twin := mirrors.names name' fun same => unused (same ▸ Pattern.mem_names mem mem' (by
      rw [atom, Atom.names]
      exact List.mem_singleton_self _))
    rw [known, known'] at twin
    cases twin with
    | some twin => exact twin.id

variable (kept : lexicon.Kept) (kept' : lexicon'.Kept)

include kept kept'

theorem insert (mirrors : Mirrors name f ahead lexicon lexicon') (text : Text) (value : ν)
    (unused : name ∉ (Call.enter (.pattern text value)).names)
    (opens : ∀ source ∈ Call.opens lexicon (.enter (.pattern text value)),
      f (.inline source lexicon'.meanings.generation) = .inline source lexicon.meanings.generation) :
    Agree (Mirrors name f ahead) (Lexicon.insert text value lexicon)
      (Lexicon.insert text value lexicon') := by
  rw [insert_eq, insert_eq]
  by_cases old : text ∈ lexicon.patterns
  · rw [if_pos old, if_pos (mirrors.patterns ▸ old)]
    exact .error _ mirrors
  rw [if_neg old, if_neg (mirrors.patterns ▸ old)]
  unfold Call.names at unused
  unfold Call.opens at opens
  cases read : Pattern.read text with
  | error e => exact .error _ mirrors
  | ok pattern =>
    simp only [read] at unused opens
    have agree := mirrors.agree unused
    dsimp only
    rw [agree.find?_unknown, pattern.nullable_congr agree]
    cases unknown : pattern.names.find? (!lexicon'.meanings.knows ·) with
    | some name => exact .error _ mirrors
    | none =>
      cases solid : pattern.nullable lexicon'.meanings.nullable with
      | true => exact .error _ mirrors
      | false =>
        have known : lexicon.meanings.KnowsAll pattern.names := fun name mem => by
          have missing := List.find?_eq_none.1 unknown name mem
          rw [← agree.knows mem] at missing
          simpa using missing
        have accepts : lexicon.Accepts (.pattern text value) :=
          (accepts_pattern_iff kept.coherent text value).2
            ⟨old, pattern, read, known, (pattern.nullable_congr agree).trans solid⟩
        rw [if_pos accepts] at opens
        -- The stores may differ, but what comes out is what would be made now.
        have linked := pattern.links_alongside (wellRead_of_read read) kept.coherent kept'.coherent
          (pairs_ids kept.tidy kept'.tidy) (mirrors.allows unused opens) agree
        simp only [Bool.false_eq_true, if_false]
        generalize pattern.links lexicon.meanings lexicon.inlineGroups = result at linked ⊢
        generalize pattern.links lexicon'.meanings lexicon'.inlineGroups = result' at linked ⊢
        cases linked with
        | error e => exact .error _ { mirrors with }
        | ok branches branches' groups groups' twins =>
          exact .ok _ { mirrors with
            patterns := congrArg (text :: ·) mirrors.patterns
            graph := mirrors.graph.addPattern mirrors.pairs twins value }

theorem setMeaning_alongside (mirrors : Mirrors name f ahead lexicon lexicon') (name' text : Text)
    (unused : name ∉ (Call.enter (.meaning name' text) : Call ν).names) :
    (∃ e groups groups', setMeaning name' text lexicon =
        .error e { lexicon with inlineGroups := groups } ∧
      setMeaning name' text lexicon' = .error e { lexicon' with inlineGroups := groups' }) ∨
    ∃ branches branches' groups groups',
      (∀ id id', (Group.ofBranches id branches).ReadsAs (.ofBranches id' branches')) ∧
      setMeaning name' text lexicon =
        .ok () (give name' branches { lexicon with inlineGroups := groups }) ∧
      setMeaning name' text lexicon' =
        .ok () (give name' branches' { lexicon' with inlineGroups := groups' }) := by
  rw [setMeaning_eq, setMeaning_eq]
  cases isName name' with
  | false => exact .inl ⟨_, _, _, rfl, rfl⟩
  | true =>
    simp only [if_true]
    unfold Call.names at unused
    cases read : Pattern.read text with
    | error e => exact .inl ⟨_, _, _, rfl, rfl⟩
    | ok pattern =>
      simp only [read] at unused
      have pairs := pairs_ids kept.tidy kept'.tidy
      have linked := pattern.links_alongside (wellRead_of_read read) kept.coherent kept'.coherent
        pairs (fun _ _ piece _ _ _ ids => (⟨piece.atom, ids⟩ : Meanings.Ids _ _ _ _))
        (mirrors.agree unused)
      dsimp only
      generalize pattern.links lexicon.meanings lexicon.inlineGroups = result at linked ⊢
      generalize pattern.links lexicon'.meanings lexicon'.inlineGroups = result' at linked ⊢
      cases linked with
      | error e => exact .inl ⟨_, _, _, rfl, rfl⟩
      | ok branches branches' groups groups' twins =>
        exact .inr ⟨_, _, _, _, fun id id' => Group.readsAs_ofBranches pairs twins id id', rfl, rfl⟩

omit kept kept' in
theorem both_give (mirrors : Mirrors name f ahead lexicon lexicon') (name' : Text)
    {branches branches' : Branches Link}
    (alike : ∀ id id', (Group.ofBranches id branches).ReadsAs (.ofBranches id' branches'))
    (same : lexicon.knows name' = lexicon'.knows name') :
    Mirrors name f ahead (give name' branches lexicon) (give name' branches' lexicon') := by
  have generation : (give name' branches lexicon).meanings.generation =
      (give name' branches' lexicon').meanings.generation + ahead := by
    rw [give_generation, give_generation, same, mirrors.generation]
    omega
  refine ⟨mirrors.injective, ?_, ?_, fun name₁ other => ?_, generation, fun id upcoming =>
    mirrors.upcoming id (upcoming_give name' branches' upcoming)⟩
  · rw [give_patterns, give_patterns, mirrors.patterns]
  · rw [give_graph, give_graph]
    exact mirrors.graph
  · rw [give_group?, give_group?]
    by_cases this : name₁ = name'
    · subst this
      rw [if_pos rfl, if_pos rfl, generation]
      exact .some ⟨(mirrors.upcoming _ (upcoming_named lexicon' other branches')).symm, alike _ _⟩
    · rw [if_neg this, if_neg this]
      exact mirrors.names name₁ other

theorem gives (mirrors : Mirrors name f ahead lexicon lexicon') (call : Call ν)
    (unused : name ∉ call.names) (name' : Text) :
    call.gives lexicon name' = call.gives lexicon' name' := by
  cases call with
  | knows | longest => rfl
  | enter entry =>
    cases entry with
    | pattern => rfl
    | meaning name₁ text =>
      have same : lexicon.Accepts (.meaning name₁ text) ↔ lexicon'.Accepts (.meaning name₁ text) := by
        rcases mirrors.setMeaning_alongside kept kept' name₁ text unused with
          ⟨e, groups, groups', eq, eq'⟩ | ⟨branches, branches', groups, groups', -, eq, eq'⟩
        · exact iff_of_false (fun ⟨_, taken⟩ => by cases eq.symm.trans taken)
            fun ⟨_, taken⟩ => by cases eq'.symm.trans taken
        · exact iff_of_true ⟨_, eq⟩ ⟨_, eq'⟩
      simp only [Call.gives, same]

theorem run (mirrors : Mirrors name f ahead lexicon lexicon') (call : Call ν)
    (unused : name ∉ call.names) (opens : ∀ source ∈ call.opens lexicon,
      f (.inline source lexicon'.meanings.generation) = .inline source lexicon.meanings.generation)
    (calm : call.gives lexicon name → lexicon.knows name = lexicon'.knows name) :
    (call = .knows name ∨ (call.run lexicon).1 = (call.run lexicon').1) ∧
      Mirrors name f ahead (call.run lexicon).2 (call.run lexicon').2 := by
  cases call with
  | longest text => exact ⟨.inr (congrArg Answer.longest (mirrors.longest? text)), mirrors⟩
  | knows name' =>
    refine ⟨?_, mirrors⟩
    by_cases same : name' = name
    · exact .inl (by rw [same])
    · exact .inr (congrArg Answer.known (mirrors.knows same))
  | enter entry =>
    have agree : Agree (Mirrors name f ahead) (enter entry lexicon) (enter entry lexicon') := by
      cases entry with
      | pattern text value => exact mirrors.insert kept kept' text value unused opens
      | meaning name' text =>
        change Agree _ (setMeaning name' text lexicon) (setMeaning name' text lexicon')
        rcases mirrors.setMeaning_alongside kept kept' name' text unused with
          ⟨e, groups, groups', eq, eq'⟩ | ⟨branches, branches', groups, groups', alike, eq, eq'⟩
        · rw [eq, eq']
          exact .error e { mirrors with }
        · have accepts : lexicon.Accepts (.meaning name' text) := ⟨_, eq⟩
          -- A new generation starts on both sides or on neither.
          have same : lexicon.knows name' = lexicon'.knows name' := by
            by_cases same : name' = name
            · subst same
              exact calm (by simp [Call.gives, accepts])
            · exact mirrors.knows same
          have kept : Mirrors name f ahead { lexicon with inlineGroups := groups }
            { lexicon' with inlineGroups := groups' } := { mirrors with }
          rw [eq, eq']
          exact .ok () (kept.both_give name' alike same)
    obtain ⟨same, mirrors'⟩ := agree.answered
    exact ⟨.inr (congrArg Answer.entered same), mirrors'⟩

end Mirrors

end Lexicon

end OpGrammar
