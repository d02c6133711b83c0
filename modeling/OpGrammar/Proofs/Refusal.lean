import OpGrammar.Proofs.Links
import OpGrammar.Session

/-!
# Refused entries

A lexicon that refuses an entry answers all later calls as if the entry had not been made. All that
a refusal can leave behind are groups in parentheses, and they are what would be made later.
-/

namespace OpGrammar

/-! ## Runs from two states -/

section Respects

variable {σ ε α β : Type} {R : σ → σ → Prop}

/-- The same answer, with states left that are related. -/
inductive Agree (R : σ → σ → Prop) : EStateM.Result ε σ α → EStateM.Result ε σ α → Prop
  | ok (a : α) {state state' : σ} (related : R state state') : Agree R (.ok a state) (.ok a state')
  | error (e : ε) {state state' : σ} (related : R state state') :
    Agree R (.error e state) (.error e state')

/-- From related states, the steps give the same answer and leave related states. -/
def Respects (R : σ → σ → Prop) (steps : EStateM ε σ α) : Prop :=
  ∀ state state', R state state' → Agree R (steps state) (steps state')

theorem respects_pure (a : α) : Respects R (pure a : EStateM ε σ α) := fun _ _ => .ok a

theorem respects_throw (e : ε) : Respects R (throw e : EStateM ε σ α) := fun _ _ => .error e

theorem respects_modify (f : σ → σ) (keeps : ∀ state state', R state state' →
    R (f state) (f state')) : Respects R (modify f : EStateM ε σ PUnit) :=
  fun state state' related => by
    rw [modify_apply, modify_apply]
    exact .ok _ (keeps state state' related)

theorem respects_get_bind (next : σ → EStateM ε σ α)
    (rest : ∀ state state', R state state' → Agree R (next state state) (next state' state')) :
    Respects R (get >>= next) := rest

theorem Respects.bind {steps : EStateM ε σ α} {next : α → EStateM ε σ β}
    (first : Respects R steps) (second : ∀ a, Respects R (next a)) :
    Respects R (steps >>= next) := by
  intro state state' related
  have begun := first state state' related
  rw [bind_apply, bind_apply]
  generalize steps state = result at begun ⊢
  generalize steps state' = result' at begun ⊢
  cases begun with
  | ok a related => exact second a _ _ related
  | error e related => exact .error e related

theorem Agree.answered {result result' : EStateM.Result ε σ α} (agree : Agree R result result') :
    (answered result).1 = (answered result').1 ∧ R (answered result).2 (answered result').2 := by
  cases agree with
  | ok a related => exact ⟨rfl, related⟩
  | error e related => exact ⟨rfl, related⟩

variable {κ : Type} {run : κ → σ → α × σ}

/-- A call to related states is answered the same, and leaves related states. -/
def Bisimulation (run : κ → σ → α × σ) (R : σ → σ → Prop) : Prop :=
  ∀ call state state', R state state' →
    (run call state).1 = (run call state').1 ∧ R (run call state).2 (run call state').2

theorem stateAfter_related (step : Bisimulation run R) {state state' : σ}
    (related : R state state') (calls : List κ) :
    R (stateAfter run state calls) (stateAfter run state' calls) := by
  induction calls generalizing state state' with
  | nil => exact related
  | cons call calls ih => exact ih (step call state state' related).2

theorem answers_related (step : Bisimulation run R) {state state' : σ}
    (related : R state state') (calls : List κ) :
    answers run state calls = answers run state' calls := by
  induction calls generalizing state state' with
  | nil => rfl
  | cons call calls ih =>
    obtain ⟨same, related'⟩ := step call state state' related
    rw [answers, answers, same, ih related']

/-- A call that makes no difference to the calls after it can be left out. -/
theorem answers_erase {state : σ} {before after : List κ} (call : κ)
    (same : answers run (run call (stateAfter run state before)).2 after =
      answers run (stateAfter run state before) after) :
    (answers run state (before ++ call :: after)).eraseIdx before.length =
      answers run state (before ++ after) := by
  rw [answers_append, answers_append, answers, same,
    List.eraseIdx_append_of_length_le (length_answers ..).le, length_answers, Nat.sub_self,
    List.eraseIdx_cons_zero]

end Respects

/-! ## Names -/

section Names

variable {meanings : Meanings}

def Meanings.KnowsAll (meanings : Meanings) (names : List Text) : Prop :=
  ∀ name ∈ names, meanings.knows name

theorem Meanings.knowsAll_append {names more : List Text} :
    meanings.KnowsAll (names ++ more) ↔ meanings.KnowsAll names ∧ meanings.KnowsAll more := by
  simp [KnowsAll, or_imp, forall_and]

mutual

theorem Atom.isSome_freshLink (atom : Atom) :
    (atom.freshLink meanings).isSome ↔ meanings.KnowsAll atom.names := by
  cases atom with
  | char c | oneOf items => simp [Atom.freshLink, Atom.names, Meanings.KnowsAll]
  | group source inner =>
    rw [Atom.freshLink, Atom.names, Option.isSome_map]
    exact isSome_freshBranches inner
  | reference label name =>
    simp [Atom.freshLink, Atom.names, Meanings.KnowsAll, Meanings.knows]

theorem isSome_freshBranches (branches : List (List (Piece Atom))) :
    (freshBranches meanings branches).isSome ↔ meanings.KnowsAll (namesOfBranches branches) := by
  cases branches with
  | nil => simp [freshBranches, namesOfBranches, Meanings.KnowsAll]
  | cons branch branches =>
    rw [freshBranches, namesOfBranches, Meanings.knowsAll_append, ← isSome_freshBranch branch,
      ← isSome_freshBranches branches]
    cases freshBranch meanings branch <;> simp

theorem isSome_freshBranch (pieces : List (Piece Atom)) :
    (freshBranch meanings pieces).isSome ↔ meanings.KnowsAll (namesOfBranch pieces) := by
  cases pieces with
  | nil => simp [freshBranch, namesOfBranch, Meanings.KnowsAll]
  | cons piece pieces =>
    obtain ⟨atom, quantifier⟩ := piece
    rw [freshBranch, namesOfBranch, Meanings.knowsAll_append, ← atom.isSome_freshLink,
      ← isSome_freshBranch pieces]
    cases atom.freshLink meanings <;> simp

end

theorem Pattern.links_of_known (pattern : Pattern) (well : pattern.WellRead)
    {groups : InlineGroups} (coherent : Coherent meanings groups)
    (known : meanings.KnowsAll pattern.names) :
    ∃ branches groups', pattern.links meanings groups = .ok branches groups' := by
  have compiled := pattern.links_compiles well groups coherent
  cases eq : pattern.links meanings groups with
  | ok branches groups' => exact ⟨branches, groups', rfl⟩
  | error e groups' =>
    rw [eq] at compiled
    have some := (isSome_freshBranches pattern).2 known
    rw [compiled.1] at some
    cases some

end Names

/-! ## Links by two stores of groups -/

section Stores

variable {meanings : Meanings}

/-- Both stores hold groups that would be made now. -/
def BothCoherent (meanings : Meanings) (groups groups' : InlineGroups) : Prop :=
  Coherent meanings groups ∧ Coherent meanings groups'

theorem Compiles.agree {α : Type} {expected : Option α}
    {result result' : EStateM.Result LexiconError InlineGroups α}
    (compiled : Compiles meanings expected result) (compiled' : Compiles meanings expected result')
    (errors : ∀ e groups e' groups', result = .error e groups → result' = .error e' groups' →
      e = e') : Agree (BothCoherent meanings) result result' := by
  cases result with
  | ok a groups =>
    obtain ⟨rfl, coherent⟩ := compiled
    cases result' with
    | ok a' groups' =>
      obtain ⟨same, coherent'⟩ := compiled'
      cases same
      exact .ok a ⟨coherent, coherent'⟩
    | error e' groups' => cases compiled'.1
  | error e groups =>
    obtain ⟨rfl, coherent⟩ := compiled
    cases result' with
    | ok a' groups' => cases compiled'.1
    | error e' groups' =>
      cases errors e groups e' groups' rfl rfl
      exact .error e ⟨coherent, compiled'.2⟩

theorem linksOfBranch_respects (pieces : List (Piece Atom))
    (atoms : ∀ piece ∈ pieces, Respects (BothCoherent meanings) (piece.atom.link meanings)) :
    Respects (BothCoherent meanings) (linksOfBranch meanings pieces) := by
  induction pieces with
  | nil =>
    rw [linksOfBranch]
    exact respects_pure []
  | cons piece pieces ih =>
    obtain ⟨atom, quantifier⟩ := piece
    rw [linksOfBranch]
    refine (atoms _ List.mem_cons_self).bind fun link => ?_
    exact (ih fun piece mem => atoms piece (.tail _ mem)).bind fun links => respects_pure _

theorem linksOfBranches_respects (branches : Pattern)
    (atoms : ∀ branch ∈ branches, ∀ piece ∈ branch,
      Respects (BothCoherent meanings) (piece.atom.link meanings)) :
    Respects (BothCoherent meanings) (linksOfBranches meanings branches) := by
  induction branches with
  | nil =>
    rw [linksOfBranches]
    exact respects_pure []
  | cons branch branches ih =>
    rw [linksOfBranches]
    refine (linksOfBranch_respects branch (atoms branch List.mem_cons_self)).bind fun links => ?_
    exact (ih fun branch mem => atoms branch (.tail _ mem)).bind fun more => respects_pure _

theorem Atom.inner_error {source : Text} {inner : List (List (Piece Atom))}
    {groups groups' : InlineGroups} {e : LexiconError}
    (h : (Atom.group source inner).link meanings groups = .error e groups') :
    linksOfBranches meanings inner groups = .error e groups' := by
  rw [Atom.link, bind_apply, get_apply] at h
  cases kept : groups.lookup source with
  | some group =>
    simp only [kept] at h
    cases h
  | none =>
    simp only [kept, bind_apply] at h
    cases inside : linksOfBranches meanings inner groups with
    | ok branches groups'' =>
      rw [inside] at h
      cases h
    | error e' groups'' =>
      rw [inside] at h
      cases h
      rfl

theorem Atom.link_respects (atom : Atom) (well : atom.WellRead) :
    Respects (BothCoherent meanings) (atom.link meanings) := by
  induction well with
  | char c | oneOf items =>
    rw [Atom.link]
    exact respects_pure _
  | reference label name =>
    rw [Atom.link]
    cases meanings.group? name with
    | none => exact respects_throw _
    | some group => exact respects_pure _
  | group source inner read parts ih =>
    have well : (Atom.group source inner).WellRead := .group source inner read parts
    rintro groups groups' ⟨coherent, coherent'⟩
    -- One store may have kept the group and the other not. So the answers are not compared step by
    -- step: both are the group that would be made now.
    refine (link_compiles _ well groups coherent).agree (link_compiles _ well groups' coherent')
      fun e after e' after' failed failed' => ?_
    have inside := linksOfBranches_respects inner ih groups groups' ⟨coherent, coherent'⟩
    rw [inner_error failed, inner_error failed'] at inside
    cases inside
    rfl

theorem Pattern.links_respects (pattern : Pattern) (well : pattern.WellRead) :
    Respects (BothCoherent meanings) (pattern.links meanings) :=
  linksOfBranches_respects pattern fun branch mem piece mem' =>
    piece.atom.link_respects (well branch mem piece mem')

end Stores

namespace Lexicon

variable {ν : Type}

/-! ## Alike lexicons -/

/-- The same lexicon, but for kept groups, which on both sides are what would be made now. -/
inductive Alike (lexicon : Lexicon ν) : Lexicon ν → Prop
  | mk (groups : InlineGroups) (coherent : Coherent lexicon.meanings lexicon.inlineGroups)
    (coherent' : Coherent lexicon.meanings groups) :
    Alike lexicon { lexicon with inlineGroups := groups }

theorem Alike.refl {lexicon : Lexicon ν}
    (coherent : Coherent lexicon.meanings lexicon.inlineGroups) : Alike lexicon lexicon :=
  ⟨lexicon.inlineGroups, coherent, coherent⟩

theorem Alike.coherent {lexicon lexicon' : Lexicon ν} (alike : Alike lexicon lexicon') :
    Coherent lexicon.meanings lexicon.inlineGroups := by
  obtain ⟨_, coherent, _⟩ := alike
  exact coherent

theorem links_respects (pattern : Pattern) (well : pattern.WellRead) :
    Respects (Alike (ν := ν)) (links pattern) := by
  rintro lexicon _ ⟨groups, coherent, coherent'⟩
  have made := pattern.links_respects well _ _ ⟨coherent, coherent'⟩
  unfold links
  dsimp only
  generalize pattern.links lexicon.meanings lexicon.inlineGroups = result at made ⊢
  generalize pattern.links lexicon.meanings groups = result' at made ⊢
  cases made with
  | ok branches both => exact .ok branches ⟨_, both.1, both.2⟩
  | error e both => exact .error e ⟨_, both.1, both.2⟩

theorem respects_readPattern (text : Text) {α : Type}
    {next : Pattern → EStateM LexiconError (Lexicon ν) α}
    (rest : ∀ pattern, Pattern.read text = .ok pattern → Respects Alike (next pattern)) :
    Respects Alike (readPattern text >>= next) := by
  unfold readPattern
  cases read : Pattern.read text with
  | error e => exact fun _ _ alike => .error _ alike
  | ok pattern => exact rest pattern read

theorem insert_respects (text : Text) (value : ν) : Respects Alike (insert text value) := by
  unfold insert
  refine respects_get_bind _ ?_
  rintro lexicon _ ⟨groups, coherent, coherent'⟩
  have alike : Alike lexicon { lexicon with inlineGroups := groups } :=
    ⟨groups, coherent, coherent'⟩
  by_cases old : text ∈ lexicon.patterns
  · simp only [old, if_true]
    exact .error _ alike
  simp only [old, if_false]
  refine respects_readPattern text (fun pattern read => respects_get_bind _ ?_) _ _ alike
  rintro lexicon _ ⟨groups, coherent, coherent'⟩
  have alike : Alike lexicon { lexicon with inlineGroups := groups } :=
    ⟨groups, coherent, coherent'⟩
  dsimp only
  cases pattern.names.find? (!lexicon.meanings.knows ·) with
  | some name => exact .error _ alike
  | none =>
    cases pattern.nullable lexicon.meanings.nullable with
    | true => exact .error _ alike
    | false =>
      refine (links_respects pattern (wellRead_of_read read)).bind (fun branches => ?_) _ _ alike
      refine respects_modify _ ?_
      rintro _ _ ⟨groups, coherent, coherent'⟩
      exact ⟨groups, coherent, coherent'⟩

theorem setMeaning_respects (name text : Text) :
    Respects (Alike (ν := ν)) (setMeaning name text) := by
  unfold setMeaning
  cases isName name with
  | false => exact fun _ _ alike => .error _ alike
  | true =>
    refine respects_readPattern text fun pattern read => ?_
    refine (links_respects pattern (wellRead_of_read read)).bind fun branches => ?_
    refine respects_modify _ ?_
    rintro lexicon _ ⟨groups, coherent, coherent'⟩
    dsimp only
    cases known : lexicon.knows name with
    | true =>
      have known' : ({ lexicon with inlineGroups := groups } : Lexicon ν).knows name = true := known
      simp only [known', if_true]
      exact ⟨[], coherent_empty _, coherent_empty _⟩
    | false =>
      have known' : ({ lexicon with inlineGroups := groups } : Lexicon ν).knows name = false :=
        known
      simp only [known', Bool.false_eq_true, if_false]
      have grows := lexicon.meanings.grows_cons name
        (.ofBranches (.named name lexicon.meanings.generation) branches) known
      exact ⟨groups, coherent.grows grows, coherent'.grows grows⟩

theorem enter_respects (entry : Entry ν) : Respects Alike (enter entry) := by
  cases entry with
  | meaning name text => exact setMeaning_respects name text
  | pattern text value => exact insert_respects text value

theorem refuses_of_error {lexicon after : Lexicon ν}
    (coherent : Coherent lexicon.meanings lexicon.inlineGroups) {text : Text} {value : ν}
    {e : LexiconError} (refused : insert text value lexicon = .error e after) :
    after = lexicon ∧ lexicon.Refuses text e := by
  have cases := insert_cases lexicon text value
  rw [refused] at cases
  cases cases with
  | refused _ reason => exact ⟨rfl, reason⟩
  | abandoned _ pattern groups read links known =>
    obtain ⟨branches, groups', made⟩ :=
      pattern.links_of_known (wellRead_of_read read) coherent known
    rw [links] at made
    cases made

theorem alike_of_error {lexicon after : Lexicon ν}
    (coherent : Coherent lexicon.meanings lexicon.inlineGroups) (entry : Entry ν) {e : LexiconError}
    (refused : enter entry lexicon = .error e after) : Alike lexicon after := by
  cases entry with
  | pattern text value =>
    rw [(refuses_of_error coherent refused).1]
    exact .refl coherent
  | meaning name text =>
    have cases := setMeaning_cases lexicon name text
    rw [show setMeaning name text lexicon = _ from refused] at cases
    cases cases with
    | refused => exact .refl coherent
    | abandoned _ pattern groups read links =>
      exact ⟨groups, coherent, coherent_of_error coherent read links⟩

/-- A pattern is taken exactly if it is new, can be read, refers to known names only, and is not
found to match the empty text. -/
theorem accepts_pattern_iff {lexicon : Lexicon ν}
    (coherent : Coherent lexicon.meanings lexicon.inlineGroups) (text : Text) (value : ν) :
    lexicon.Accepts (.pattern text value) ↔ text ∉ lexicon.patterns ∧
      ∃ pattern, Pattern.read text = .ok pattern ∧ lexicon.meanings.KnowsAll pattern.names ∧
        pattern.nullable lexicon.meanings.nullable = false := by
  constructor
  · rintro ⟨lexicon', taken⟩
    have cases := insert_cases lexicon text value
    rw [show insert text value lexicon = _ from taken] at cases
    cases cases with
    | inserted pattern branches groups new read known solid links =>
      exact ⟨new, pattern, read, known, solid⟩
  · rintro ⟨new, pattern, read, known, solid⟩
    cases taken : insert text value lexicon with
    | ok _ lexicon' => exact ⟨lexicon', taken⟩
    | error e lexicon' =>
      cases (refuses_of_error coherent taken).2 with
      | again old => exact absurd old new
      | unread e read' =>
        rw [read] at read'
        cases read'
      | unknown pattern' name read' first =>
        cases Except.ok.inj (read.symm.trans read')
        have missing := List.find?_some first
        simp [known name (List.mem_of_find?_eq_some first)] at missing
      | empty pattern' read' nullable =>
        cases Except.ok.inj (read.symm.trans read')
        rw [solid] at nullable
        cases nullable

/-! ## Calls to a lexicon -/

theorem alike_bisimulation : Bisimulation Call.run (Alike (ν := ν)) := by
  intro call lexicon lexicon' alike
  cases call with
  | enter entry =>
    obtain ⟨same, alike'⟩ := (enter_respects entry lexicon lexicon' alike).answered
    exact ⟨congrArg Answer.entered same, alike'⟩
  | knows name | longest input =>
    obtain ⟨groups, coherent, coherent'⟩ := alike
    exact ⟨rfl, groups, coherent, coherent'⟩

def Call.entry? : Call ν → Option (Entry ν)
  | .enter entry => some entry
  | .knows _ | .longest _ => none

theorem stateAfter_eq_ofEntries (calls : List (Call ν)) :
    stateAfter Call.run empty calls = ofEntries (calls.filterMap Call.entry?) := by
  unfold ofEntries
  generalize (empty : Lexicon ν) = lexicon
  induction calls generalizing lexicon with
  | nil => rfl
  | cons call calls ih =>
    have step : stateAfter Call.run lexicon (call :: calls) =
      stateAfter Call.run (call.run lexicon).2 calls := rfl
    rw [step, ih]
    cases call with
    | enter entry =>
      have after : (Call.run (.enter entry) lexicon).2 = lexicon.extend entry := by
        rw [Call.run, extend]
        cases enter entry lexicon <;> rfl
      rw [after]
      rfl
    | knows name | longest input => rfl

/-- A call that enters what the lexicon refuses can be left out of a session: the other calls are
answered the same. Where a pattern is refused, not even a group is kept, since the links of a
pattern whose names are all known can always be made. -/
theorem refused_entry_unseen (before : List (Call ν)) :
    let lexicon := stateAfter Call.run empty before
    (∀ entry after, ¬ lexicon.Accepts entry →
      (answers Call.run empty (before ++ .enter entry :: after)).eraseIdx before.length =
        answers Call.run empty (before ++ after)) ∧
    (∀ text value e left, enter (.pattern text value) lexicon = .error e left → left = lexicon) ∧
    ∀ text pattern, Pattern.read text = .ok pattern → lexicon.meanings.KnowsAll pattern.names →
      ∃ branches groups, pattern.links lexicon.meanings lexicon.inlineGroups =
        .ok branches groups := by
  intro lexicon
  have coherent : Coherent lexicon.meanings lexicon.inlineGroups := by
    rw [show lexicon = _ from stateAfter_eq_ofEntries before]
    exact ofEntries_coherent _
  refine ⟨fun entry after refused => ?_, fun text value e left refused => ?_,
    fun text pattern read known => ?_⟩
  · cases entered : enter entry lexicon with
    | ok _ lexicon' => exact absurd ⟨lexicon', entered⟩ refused
    | error e lexicon' =>
      have same := answers_related alike_bisimulation (alike_of_error coherent entry entered) after
      have left : (Call.run (.enter entry) lexicon).2 = lexicon' := by
        rw [Call.run, entered]
        rfl
      exact answers_erase _ (by rw [left, same])
  · exact (refuses_of_error coherent refused).1
  · exact pattern.links_of_known (wellRead_of_read read) coherent known

/-- The groups `(a)` and `(b)` are kept when the meaning of `X` is refused for want of `Y`. -/
theorem refused_entry_unseen_groups :
    (answers Call.run empty [.enter (.meaning ['X'] "(a)(b)\x7bY\x7d".toList),
      .enter (.pattern "(a)c".toList 0), .enter (.pattern "(a)d".toList 1),
      .longest "ad".toList]).eraseIdx 0 =
    answers Call.run (empty : Lexicon Nat) [.enter (.pattern "(a)c".toList 0),
      .enter (.pattern "(a)d".toList 1), .longest "ad".toList] :=
  (refused_entry_unseen []).1 _ _ (by decide +kernel)

end Lexicon

end OpGrammar
