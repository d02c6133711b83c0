import OpGrammar.Proofs.Refusal
import OpGrammar.Proofs.Rules

/-!
# Refused rules

A grammar that refuses a rule answers all later calls as if the rule had not been given, with one
exception: when the lexicon refuses an opening bracket, the closing one has its symbol already.
-/

namespace OpGrammar

variable {O : Type}

namespace Grammar

/-! ## Alike grammars -/

/-- The same grammar, but for what its lexicon has kept. -/
inductive Alike (grammar : Grammar O) : Grammar O → Prop
  | mk (lexicon : Lexicon Nat) (alike : grammar.lexicon.Alike lexicon) :
    Alike grammar { grammar with lexicon }

section Alike

variable {α : Type}

theorem changeLexicon_respects {change : EStateM LexiconError (Lexicon Nat) α}
    (respects : Respects Lexicon.Alike change) :
    Respects Alike (changeLexicon change : Change O α) := by
  rintro grammar _ ⟨lexicon, alike⟩
  have changed := respects _ _ alike
  unfold changeLexicon
  generalize change grammar.lexicon = result at changed ⊢
  dsimp only
  generalize change lexicon = result' at changed ⊢
  cases changed with
  | ok a alike' => exact .ok a ⟨_, alike'⟩
  | error e alike' => exact .error _ ⟨_, alike'⟩

theorem addSymbol_respects (pattern : Text) :
    Respects Alike (addSymbol pattern : Change O Nat) := by
  unfold addSymbol
  refine respects_get_bind _ ?_
  rintro grammar _ ⟨lexicon, alike⟩
  have same : ({ grammar with lexicon } : Grammar O).symbolId? pattern =
    grammar.symbolId? pattern := rfl
  rw [same]
  cases grammar.symbolId? pattern with
  | some id => exact .ok id ⟨lexicon, alike⟩
  | none =>
    refine ((changeLexicon_respects (Lexicon.insert_respects pattern _)).bind fun _ =>
      (respects_modify _ ?_).bind fun _ => respects_pure _) _ _ ⟨lexicon, alike⟩
    rintro _ _ ⟨lexicon', alike'⟩
    exact ⟨lexicon', alike'⟩

theorem setRole_respects (id : Nat) (role : Role O) : Respects Alike (setRole id role) := by
  refine respects_modify _ ?_
  rintro _ _ ⟨lexicon, alike⟩
  exact ⟨lexicon, alike⟩

end Alike

/-! ## Checks -/

/-- The check looks at the role of a pattern only, and changes nothing. -/
def Checks (pattern : Text) (check : Change O Unit) : Prop :=
  ∀ grammar grammar' : Grammar O, grammar'.roleOf? pattern = grammar.roleOf? pattern →
    Agree (fun left left' => left = grammar ∧ left' = grammar') (check grammar) (check grammar')

theorem requireNoStarter_checks (pattern : Text) :
    Checks pattern (requireNoStarter pattern : Change O Unit) := by
  intro grammar grammar' same
  unfold requireNoStarter
  simp only [bind_apply, get_apply, same]
  rcases grammar.roleOf? pattern with _ | ⟨_ | _, _⟩ | _
  case none | some.expression.none => exact .ok () ⟨rfl, rfl⟩
  all_goals exact .error _ ⟨rfl, rfl⟩

theorem requireNoFollower_checks (pattern : Text) :
    Checks pattern (requireNoFollower pattern : Change O Unit) := by
  intro grammar grammar' same
  unfold requireNoFollower
  simp only [bind_apply, get_apply, same]
  rcases grammar.roleOf? pattern with _ | ⟨_, _ | _⟩ | _
  case none | some.expression.none => exact .ok () ⟨rfl, rfl⟩
  all_goals exact .error _ ⟨rfl, rfl⟩

theorem requireAside_checks (pattern : Text) (kind : Aside) :
    Checks pattern (requireAside pattern kind : Change O Unit) := by
  intro grammar grammar' same
  unfold requireAside
  simp only [bind_apply, get_apply, same]
  rcases grammar.roleOf? pattern with _ | ⟨_ | _, _ | _⟩ | kind'
  case none | some.expression.none.none => exact .ok () ⟨rfl, rfl⟩
  case some.aside =>
    by_cases other : kind' = kind
    · simp only [other, ne_eq, not_true_eq_false, if_false]
      exact .ok () ⟨rfl, rfl⟩
    · simp only [other, ne_eq, not_false_eq_true, if_true]
      exact .error _ ⟨rfl, rfl⟩
  all_goals exact .error _ ⟨rfl, rfl⟩

section Checks

variable {pattern : Text} {check : Change O Unit}

theorem Checks.respects (checks : Checks pattern check) : Respects Alike check := by
  rintro grammar _ ⟨lexicon, alike⟩
  have agree := checks grammar { grammar with lexicon } rfl
  generalize check grammar = result at agree ⊢
  generalize check { grammar with lexicon } = result' at agree ⊢
  cases agree with
  | ok _ kept =>
    rw [kept.1, kept.2]
    exact .ok () ⟨lexicon, alike⟩
  | error e kept =>
    rw [kept.1, kept.2]
    exact .error e ⟨lexicon, alike⟩

end Checks

/-! ## Rules for alike grammars -/

theorem addStarter_respects (pattern : Text) (starter : Starter O) :
    Respects Alike (addStarter pattern starter) := by
  unfold addStarter
  refine (requireNoStarter_checks pattern).respects.bind fun _ => ?_
  refine (addSymbol_respects pattern).bind fun id => respects_get_bind _ ?_
  rintro grammar _ ⟨lexicon, alike⟩
  exact setRole_respects id _ _ _ ⟨lexicon, alike⟩

theorem addFollower_respects (pattern : Text) (follower : Follower O) :
    Respects Alike (addFollower pattern follower) := by
  unfold addFollower
  refine (requireNoFollower_checks pattern).respects.bind fun _ => ?_
  refine (addSymbol_respects pattern).bind fun id => respects_get_bind _ ?_
  rintro grammar _ ⟨lexicon, alike⟩
  exact setRole_respects id _ _ _ ⟨lexicon, alike⟩

theorem addAside_respects (pattern : Text) (kind : Aside) :
    Respects Alike (addAside pattern kind : Change O Unit) :=
  (requireAside_checks pattern kind).respects.bind fun _ =>
    (addSymbol_respects pattern).bind fun id => setRole_respects id _

theorem add_respects (rule : Rule O) : Respects Alike (add rule) := by
  cases rule with
  | name name pattern => exact changeLexicon_respects (Lexicon.setMeaning_respects name pattern)
  | brackets opening closing wrap =>
    refine (requireNoStarter_checks opening).respects.bind fun _ => ?_
    exact (addSymbol_respects closing).bind fun id => addStarter_respects opening _
  | operand pattern | prefixOp pattern => exact addStarter_respects pattern _
  | infixLeft pattern | infixRight pattern | postfixOp pattern =>
    exact addFollower_respects pattern _
  | separator pattern | ignored pattern => exact addAside_respects pattern _

/-! ## Reading by alike grammars -/

section Reading

variable {grammar grammar' : Grammar O}

theorem Alike.longest? (alike : Alike grammar grammar') :
    grammar'.lexicon.longest? = grammar.lexicon.longest? := by
  obtain ⟨_, ⟨_, -, -⟩⟩ := alike
  rfl

theorem Alike.role? (alike : Alike grammar grammar') : grammar'.role? = grammar.role? := by
  obtain ⟨_, -⟩ := alike
  rfl

/-- The equation of `nextToken` without the facts that its recursion is justified by. -/
theorem nextToken_eq (grammar : Grammar O) (place : Nat) (text : Text) :
    grammar.nextToken place text =
      let start := place + Text.byteSize (text.takeWhile isBlank)
      match text.dropWhile isBlank with
      | [] => .ending (.finished start)
      | c :: rest =>
        match grammar.lexicon.longest? (c :: rest) with
        | none => .ending (.unknown start (c :: rest))
        | some found =>
          let stop := start + Text.byteSize found.text
          let after := (c :: rest).drop found.text.length
          match grammar.role? found.value with
          | some (.aside .ignored) =>
            if found.text = [] then .ending (.skipping start) else grammar.nextToken stop after
          | role? =>
            .token ⟨found.value, found.text, start, stop, (role?.map Role.power).getD 0⟩ after := by
  rw [nextToken]
  split
  · rename_i left
    rw [left]
  · rename_i c rest left
    rw [left]
    rfl

theorem Alike.nextToken (alike : Alike grammar grammar') (place : Nat) (text : Text) :
    grammar'.nextToken place text = grammar.nextToken place text := by
  fun_induction grammar.nextToken place text with
  | case1 place text start left => rw [nextToken_eq, left]
  | case2 place text start c rest left matched =>
    rw [nextToken_eq, alike.longest?, left]
    simp only [matched, start]
  | case3 place text start c rest left found matched role none =>
    rw [nextToken_eq, alike.longest?, alike.role?, left]
    simp only [matched, role, none, if_true, start]
  | case4 place text start c rest left found matched stop after role some ih =>
    rw [nextToken_eq, alike.longest?, alike.role?, left]
    simp only [matched, role, some, if_false]
    exact ih
  | case5 place text start c rest left found matched stop after other =>
    rw [nextToken_eq, alike.longest?, alike.role?, left]
    simp only [matched]
    rfl

theorem scanFrom_eq (grammar : Grammar O) (place : Nat) (text : Text) :
    grammar.scanFrom place text =
      match grammar.nextToken place text with
      | .ending ending => ⟨[], ending⟩
      | .token token rest =>
        if token.text = [] then ⟨[], .repeated token⟩
        else
          let scan := grammar.scanFrom token.stop rest
          ⟨token :: scan.tokens, scan.ending⟩ := by
  rw [scanFrom]
  split
  · rename_i next
    rw [next]
  · rename_i next
    rw [next]
    rfl

theorem Alike.scanFrom (alike : Alike grammar grammar') (place : Nat) (text : Text) :
    grammar'.scanFrom place text = grammar.scanFrom place text := by
  fun_induction grammar.scanFrom place text with
  | case1 place text ending next => rw [scanFrom_eq, alike.nextToken, next]
  | case2 place text token rest next empty =>
    rw [scanFrom_eq, alike.nextToken, next]
    simp only [empty, if_true]
  | case3 place text token rest next some scan ih =>
    rw [scanFrom_eq, alike.nextToken, next]
    simp only [some, if_false, ih, scan]

theorem Alike.resume (alike : Alike grammar grammar') (statements : Bool) (left : Scan)
    (token : Token) (stack : List (Frame O)) (tree : Tree O) :
    grammar'.resume statements left token stack tree =
      grammar.resume statements left token stack tree := by
  obtain ⟨lexicon, -⟩ := alike
  induction stack generalizing tree with
  | nil => rfl
  | cons frame stack ih =>
    cases frame with
    | prefixOp | infixOp =>
      simp only [Grammar.resume, ih]
      rfl
    | bracket => rfl

theorem Alike.step (alike : Alike grammar grammar') : grammar'.step = grammar.step := by
  funext statements left token stage
  cases stage with
  | operand stack =>
    obtain ⟨lexicon, -⟩ := alike
    rfl
  | operator stack tree => exact alike.resume statements left token stack tree

theorem Alike.finishTree (alike : Alike grammar grammar') (place : Nat) (stack : List (Frame O))
    (tree : Tree O) :
    grammar'.finishTree place stack tree = grammar.finishTree place stack tree := by
  obtain ⟨lexicon, -⟩ := alike
  induction stack generalizing tree with
  | nil => rfl
  | cons frame stack ih =>
    cases frame with
    | prefixOp | infixOp => simp only [Grammar.finishTree, ih]
    | bracket => rfl

theorem Alike.finish (alike : Alike grammar grammar') : grammar'.finish = grammar.finish := by
  funext place stage
  cases stage with
  | operand stack => rfl
  | operator stack tree => exact alike.finishTree place stack tree

theorem Alike.readOne (alike : Alike grammar grammar') (input : Text) (ending : Ending)
    (tokens : List Token) (stage : Stage O) :
    grammar'.readOne input ending tokens stage = grammar.readOne input ending tokens stage := by
  induction tokens generalizing stage with
  | nil => rw [Grammar.readOne, Grammar.readOne, alike.finish]
  | cons token tokens ih => simp only [Grammar.readOne, alike.step, ih]

theorem Alike.startNext (alike : Alike grammar grammar') :
    grammar'.startNext = grammar.startNext := by
  obtain ⟨lexicon, -⟩ := alike
  rfl

theorem Alike.readAll (alike : Alike grammar grammar') (ending : Ending) (tokens : List Token)
    (stage : Option (Stage O)) :
    grammar'.readAll ending tokens stage = grammar.readAll ending tokens stage := by
  induction tokens generalizing stage with
  | nil => cases stage <;> simp only [Grammar.readAll, alike.finish]
  | cons token tokens ih =>
    cases stage <;> simp only [Grammar.readAll, alike.step, alike.startNext, ih]

theorem Alike.parseTree (alike : Alike grammar grammar') :
    grammar'.parseTree = grammar.parseTree := by
  funext input
  simp only [Grammar.parseTree, Grammar.scan, alike.scanFrom, alike.readOne]

theorem Alike.parseTrees (alike : Alike grammar grammar') :
    grammar'.parseTrees = grammar.parseTrees := by
  funext input
  simp only [Grammar.parseTrees, Grammar.scan, alike.scanFrom, alike.readAll]

end Reading

theorem alike_bisimulation : Bisimulation Call.run (Alike (O := O)) := by
  intro call grammar grammar' alike
  have traced : grammar'.traced = grammar.traced := by
    obtain ⟨_, -⟩ := alike
    rfl
  cases call with
  | add rule =>
    obtain ⟨same, alike'⟩ := (add_respects rule grammar grammar' alike).answered
    exact ⟨congrArg Answer.added same, alike'⟩
  | setTrace on =>
    obtain ⟨lexicon, alike⟩ := alike
    exact ⟨rfl, lexicon, alike⟩
  | tokens input =>
    refine ⟨congrArg Answer.tokens ?_, alike⟩
    simp only [Grammar.tokens, scan, alike.scanFrom]
  | parse input =>
    refine ⟨?_, alike⟩
    simp only [Call.run, traceOf, traced, Grammar.parse, alike.parseTree]
  | parseAll input =>
    refine ⟨?_, alike⟩
    simp only [Call.run, traceOf, traced, Grammar.parseAll, alike.parseTrees]

/-! ## Refusals -/

/-- The lexicon holds no group but those that would be made now. -/
def Sane (grammar : Grammar O) : Prop :=
  Coherent grammar.lexicon.meanings grammar.lexicon.inlineGroups

theorem Alike.refl {grammar : Grammar O} (sane : grammar.Sane) : Alike grammar grammar :=
  ⟨grammar.lexicon, .refl sane⟩

theorem Alike.sane {grammar grammar' : Grammar O} (alike : Alike grammar grammar') :
    grammar.Sane := by
  obtain ⟨_, alike⟩ := alike
  exact alike.coherent

theorem sane_empty : (empty : Grammar O).Sane := Lexicon.coherent_empty _

theorem sane_stateAfter (calls : List (Call O)) : (stateAfter Call.run empty calls).Sane :=
  (stateAfter_related alike_bisimulation (.refl sane_empty) calls).sane

section Error

variable {grammar left : Grammar O} {pattern : Text} {e : RuleError}

theorem addSymbol_error (sane : grammar.Sane) (refused : addSymbol pattern grammar = .error e left) :
    left = grammar ∧ ∃ error, e = .refused error ∧ grammar.symbolId? pattern = none ∧
      grammar.lexicon.Refuses pattern error := by
  unfold addSymbol at refused
  rw [bind_apply, get_apply] at refused
  cases known : grammar.symbolId? pattern with
  | some id => simp [known] at refused
  | none =>
    simp only [known, changeLexicon, bind_apply] at refused
    cases inserted : Lexicon.insert pattern grammar.symbols.size grammar.lexicon with
    | ok _ lexicon => simp [inserted] at refused
    | error error lexicon =>
      rw [inserted] at refused
      cases refused
      obtain ⟨rfl, reason⟩ := Lexicon.refuses_of_error sane inserted
      exact ⟨rfl, error, rfl, rfl, reason⟩

theorem AddsUse.error {use : Use O} (adds : grammar.AddsUse pattern use (.error e left)) :
    left = grammar ∧ (grammar.roleAt pattern).gain? use = none ∨
      addSymbol pattern grammar = .error e left := by
  cases adds with
  | taken _ full => exact .inl ⟨rfl, full⟩
  | refused _ _ role gains numbered => exact .inr numbered

/-- The rule is for brackets, and the closing one has got a symbol without a use before the lexicon
refuses the opening one. -/
inductive LeavesClosing (grammar : Grammar O) : Rule O → RuleError → Grammar O → Prop
  | mk (opening closing : Text) (wrap : O → O) (id : Nat) (left : Grammar O) (e : LexiconError)
    (new : grammar.symbolId? closing = none) (added : addSymbol closing grammar = .ok id left)
    (missing : left.symbolId? opening = none) (reason : left.lexicon.Refuses opening e) :
    LeavesClosing grammar (.brackets opening closing wrap) (.refused e) left

theorem AddsBrackets.error (sane : grammar.Sane) {opening closing : Text} {wrap : O → O}
    (adds : grammar.AddsBrackets opening closing wrap (.error e left)) :
    left = grammar ∨ LeavesClosing grammar (.brackets opening closing wrap) e left := by
  cases adds with
  | taken => exact .inl rfl
  | refused _ _ _ numbered => exact .inl (addSymbol_error sane numbered).1
  | closes id half _ free numbered opens =>
    have numbers := numbers_of_eq numbered
    -- The new symbol takes no room from the opening bracket, so only the lexicon can refuse it.
    rcases opens.error with ⟨-, full⟩ | refused
    · obtain ⟨role, room⟩ := free (.bracket id wrap)
      rw [numbers.roleAt_left, room] at full
      cases full
    · have sane' : half.Sane := by
        have keeps := addSymbol_respects closing _ _ (.refl sane)
        rw [numbered] at keeps
        cases keeps with
        | ok _ alike => exact alike.sane
      obtain ⟨rfl, error, rfl, missing, reason⟩ := addSymbol_error sane' refused
      cases numbers with
      | old => exact .inl rfl
      | new unknown =>
        exact .inr ⟨opening, closing, wrap, _, _, error, unknown, numbered, missing, reason⟩

theorem add_error (sane : grammar.Sane) (rule : Rule O) (refused : add rule grammar = .error e left) :
    Alike grammar left ∨ LeavesClosing grammar rule e left := by
  have same (eq : left = grammar) : Alike grammar left := by
    rw [eq]
    exact .refl sane
  cases uses : rule.use? with
  | some given =>
    rcases (refused ▸ add_uses uses : grammar.AddsUse given.1 given.2 (.error e left)).error with
      ⟨eq, -⟩ | refused
    · exact .inl (same eq)
    · exact .inl (same (addSymbol_error sane refused).1)
  | none =>
    cases rule with
    | name name pattern =>
      rw [add, changeLexicon] at refused
      cases entered : Lexicon.setMeaning name pattern grammar.lexicon with
      | ok _ lexicon =>
        simp only [entered] at refused
        cases refused
      | error e' lexicon =>
        simp only [entered] at refused
        cases refused
        exact .inl ⟨lexicon, Lexicon.alike_of_error sane (.meaning name pattern) entered⟩
    | brackets opening closing wrap =>
      exact ((refused ▸ add_brackets grammar opening closing wrap).error sane).imp_left same
    | _ => cases uses

end Error

/-- A refused rule can be left out of a session: the other calls are answered the same. The one
exception are brackets whose closing one is new and whose opening one the lexicon refuses. They
leave what adding a symbol for the closing one leaves. -/
theorem refused_rule_unseen (before : List (Call O)) (rule : Rule O) (e : RuleError)
    (left : Grammar O) (refused : add rule (stateAfter Call.run empty before) = .error e left) :
    (∀ after, (answers Call.run empty (before ++ .add rule :: after)).eraseIdx before.length =
      answers Call.run empty (before ++ after)) ∨
    LeavesClosing (stateAfter Call.run empty before) rule e left := by
  refine (add_error (sane_stateAfter before) rule refused).imp_left fun alike after => ?_
  refine answers_erase _ ?_
  have left' : (Call.run (.add rule) (stateAfter Call.run empty before)).2 = left := by
    rw [Call.run, refused]
    rfl
  rw [left']
  exact (answers_related alike_bisimulation alike after).symm

theorem refused_rule_unseen_operand :
    (answers Call.run empty [.add (.operand ['x'] id), .add (.operand "\x7bY\x7d".toList id),
      .add (.operand ['y'] id), .tokens "xy".toList]).eraseIdx 1 =
    answers Call.run (empty : Grammar Text) [.add (.operand ['x'] id), .add (.operand ['y'] id),
      .tokens "xy".toList] := by
  rcases refused_rule_unseen [.add (.operand ['x'] id)] (.operand "\x7bY\x7d".toList id)
    (.refused (.unknownName ['Y'])) _ (by with_unfolding_all rfl) with unseen | leaves
  · exact unseen [.add (.operand ['y'] id), .tokens "xy".toList]
  · cases leaves

/-- The closing bracket is found as a token although its rule is refused, for `(` is no pattern. -/
example : ((stateAfter Call.run (empty : Grammar Text) [.add (.brackets ['('] [')'] id)]).tokens
    [')']).toOption = some [⟨0, [')'], 0, 1, 0⟩] := by
  decide +kernel

end Grammar

end OpGrammar
