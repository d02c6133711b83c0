import OpGrammar.Proofs.Leaves
import OpGrammar.Proofs.Stages

/-!
# Statements

Fewer tokens go on with an expression in a statement than in an input that is one expression. Those
that make the difference follow nothing, and there they are refused: so one expression is one
statement. What ends a statement is the end of the input or a separator, and both complete the same
expressions.
-/

namespace OpGrammar

variable {O : Type} {grammar : Grammar O}

/-- The frame is a bracket that the symbol closes. -/
def Frame.Awaits (symbol : Nat) : Frame O → Prop
  | .bracket _ closing _ => closing = symbol
  | .prefixOp .. | .infixOp .. => False

/-- Nothing that is open is closed by the symbol. -/
def Stage.Spared (symbol : Nat) (stage : Stage O) : Prop :=
  ∀ frame ∈ stage.stack, ¬frame.Awaits symbol

namespace Grammar

variable {statements : Bool} {token : Token} {stage next last : Stage O} {tokens : List Token}
  {symbol : Nat}

/-! ## One expression -/

theorem goesOn_statements (power : Power) (token : Token) :
    grammar.goesOn true power token =
      (grammar.goesOn false power token && (grammar.follower? token.symbol).isSome) := by
  simp [goesOn]

theorem goesOn_of_idle (noFollower : grammar.follower? token.symbol = none) (power : Power) :
    grammar.goesOn true power token = false := by
  rw [goesOn_statements, noFollower, Option.isSome_none, Bool.and_false]

theorem Moves.inStatement (moves : grammar.Moves false token stage next) :
    grammar.Moves true token stage next := by
  have stays {power : Power} (stays : grammar.goesOn false power token = false) :
      grammar.goesOn true power token = false := by
    rw [goesOn_statements, stays]
    rfl
  induction moves with
  | start starts => exact .start starts
  | follow goes follows =>
    refine .follow ?_ follows
    rw [goesOn_statements, goes, follows]
    rfl
  | prefixOp ends _ ih => exact .prefixOp (stays ends) ih
  | infixOp ends _ ih => exact .infixOp (stays ends) ih
  | close ends => exact .close (stays ends)

theorem stageAfter?_statements (after : grammar.stageAfter? false tokens stage = some last) :
    grammar.stageAfter? true tokens stage = some last := by
  induction tokens generalizing stage with
  | nil => exact after
  | cons token tokens ih =>
    obtain ⟨next, moves, after⟩ := stageAfter?_cons.1 after
    exact stageAfter?_cons.2 ⟨next, moves.inStatement, ih after⟩

theorem role?_of_isSeparator (separates : grammar.isSeparator symbol) :
    grammar.role? symbol = some (.aside .separator) := by
  rw [isSeparator] at separates
  split at separates
  · assumption
  · cases separates

theorem starter?_of_isSeparator (separates : grammar.isSeparator symbol) :
    grammar.starter? symbol = none := by
  rw [starter?, role?_of_isSeparator separates]
  rfl

theorem follower?_of_isSeparator (separates : grammar.isSeparator symbol) :
    grammar.follower? symbol = none := by
  rw [follower?, role?_of_isSeparator separates]
  rfl

theorem begins?_of_starter {starter : Starter O}
    (starts : grammar.starter? token.symbol = some starter) :
    grammar.begins? token = some (some (.started [] token starter)) := by
  rw [begins?, if_neg, starts]
  · rfl
  · intro separates
    rw [starter?_of_isSeparator separates] at starts
    cases starts

theorem trees?_of_stageAfter?_false {tree : Tree O}
    (after : grammar.stageAfter? false tokens (.operand []) = some last)
    (finished : last.finished? = some tree) : grammar.trees? tokens none = some [tree] := by
  cases tokens with
  | nil =>
    obtain rfl := Option.some.inj after
    cases finished
  | cons token tokens =>
    obtain ⟨next, ⟨starts⟩, after⟩ := stageAfter?_cons.1 after
    have more := trees?_of_stageAfter? (stageAfter?_statements after) []
    rw [List.append_nil, trees?, finished] at more
    rw [trees?, begins?_of_starter starts]
    exact more

/-! ## Separators -/

/-- No bracket is closed by the symbol. -/
def ClosesNothing (grammar : Grammar O) (symbol : Nat) : Prop :=
  ∀ id closing wrap, grammar.starter? id = some (.bracket closing wrap) → closing ≠ symbol

/-- Whether tokens of the second symbol are opening brackets that the first one closes. -/
def closesAt (grammar : Grammar O) (symbol id : Nat) : Bool :=
  match grammar.starter? id with
  | some (.bracket closing _) => closing == symbol
  | _ => false

theorem closesNothing_iff : grammar.ClosesNothing symbol ↔
    ∀ id < grammar.symbols.size, grammar.closesAt symbol id = false := by
  constructor
  · intro idle id _
    unfold closesAt
    split
    · rename_i closing wrap starts
      simpa using idle id closing wrap starts
    · rfl
  · intro test id closing wrap starts
    by_cases inside : id < grammar.symbols.size
    · simpa [closesAt, starts] using test id inside
    · rw [starter?, role?_of_size_le id (Nat.le_of_not_lt inside)] at starts
      cases starts

instance : Decidable (grammar.ClosesNothing symbol) := decidable_of_iff _ closesNothing_iff.symm

theorem spared_started (idle : grammar.ClosesNothing symbol) {stack : List (Frame O)}
    (spared : ∀ frame ∈ stack, ¬frame.Awaits symbol) {starter : Starter O}
    (starts : grammar.starter? token.symbol = some starter) :
    (Stage.started stack token starter).Spared symbol := by
  cases starter with
  | operand make => exact spared
  | prefixOp power apply => exact List.forall_mem_cons.2 ⟨id, spared⟩
  | bracket closing wrap => exact List.forall_mem_cons.2 ⟨idle _ closing wrap starts, spared⟩

theorem spared_of_begins? (idle : grammar.ClosesNothing symbol) {next : Option (Stage O)}
    (begun : grammar.begins? token = some next) : ∀ stage ∈ next, stage.Spared symbol := by
  rw [begins?] at begun
  split at begun
  · obtain rfl := Option.some.inj begun
    intro stage none
    cases none
  · obtain ⟨starter, starts, rfl⟩ := Option.map_eq_some_iff.1 begun
    intro stage mem
    obtain rfl := Option.some.inj mem
    exact spared_started idle (List.forall_mem_nil _) starts

theorem Moves.spared (moves : grammar.Moves statements token stage next)
    (idle : grammar.ClosesNothing symbol) (spared : stage.Spared symbol) : next.Spared symbol := by
  induction moves with
  | start starts => exact spared_started idle spared starts
  | @follow stack tree follower _ _ =>
    cases follower with
    | infixLeft power combine => exact List.forall_mem_cons.2 ⟨id, spared⟩
    | infixRight power combine => exact List.forall_mem_cons.2 ⟨id, spared⟩
    | postfixOp power apply => exact spared
  | prefixOp _ _ ih => exact ih (List.forall_mem_cons.1 spared).2
  | infixOp _ _ ih => exact ih (List.forall_mem_cons.1 spared).2
  | close _ => exact (List.forall_mem_cons.1 spared).2

theorem outcome?_of_isSeparator (separates : grammar.isSeparator token.symbol)
    (spared : stage.Spared token.symbol) :
    grammar.outcome? true token stage = stage.finished?.map .ended := by
  have stops := goesOn_of_idle (follower?_of_isSeparator separates)
  cases stage with
  | operand stack =>
    rw [outcome?_operand, starter?_of_isSeparator separates]
    rfl
  | operator stack tree =>
    rw [Stage.finished?]
    induction stack generalizing tree with
    | nil => exact outcome?_ended (stops 0)
    | cons frame stack ih =>
      obtain ⟨here, others⟩ := List.forall_mem_cons.1 spared
      cases frame with
      | prefixOp operator power apply =>
        rw [outcome?_prefixOp (stops power)]
        exact ih _ others
      | infixOp operator power combine first =>
        rw [outcome?_infixOp (stops power)]
        exact ih _ others
      | bracket opening closing wrap =>
        rw [outcome?_bracket (stops 0), if_neg fun same => here same.symm]
        rfl

theorem trees?_separated {separator : Token} (separates : grammar.isSeparator separator.symbol)
    (idle : grammar.ClosesNothing separator.symbol) (more : List Token) (next : Option (Stage O))
    (spared : ∀ stage ∈ next, stage.Spared separator.symbol) :
    grammar.trees? (tokens ++ separator :: more) next =
      (grammar.trees? tokens next).bind fun first =>
        (grammar.trees? more none).map (first ++ ·) := by
  have passed : grammar.trees? (separator :: more) none = grammar.trees? more none := by
    rw [trees?, begins?, if_pos separates]
    rfl
  -- What has been begun before the separator waits for nothing that the separator would close.
  induction tokens generalizing next with
  | nil =>
    cases next with
    | none => simp [passed, trees?]
    | some stage =>
      have ended := outcome?_of_isSeparator separates (spared stage rfl)
      cases finished : stage.finished? with
      | none => simp [trees?, ended, finished]
      | some tree =>
        rw [finished] at ended
        rw [List.nil_append, trees?_of_ended ended, passed, trees?, finished]
        rfl
  | cons token tokens ih =>
    have between : grammar.trees? (token :: tokens ++ separator :: more) none =
        (grammar.trees? (token :: tokens) none).bind fun first =>
          (grammar.trees? more none).map (first ++ ·) := by
      rw [List.cons_append, trees?, trees?]
      cases begun : grammar.begins? token with
      | none => rfl
      | some next => exact ih next (spared_of_begins? idle begun)
    cases next with
    | none => exact between
    | some stage =>
      cases goes : grammar.outcome? true token stage with
      | none => simp [trees?, goes]
      | some outcome =>
        cases outcome with
        | more next =>
          have moves := outcome?_eq_more.1 goes
          rw [List.cons_append, trees?_of_moves moves, trees?_of_moves moves]
          exact ih (some next) fun stage' mem =>
            Option.some.inj mem ▸ moves.spared idle (spared stage rfl)
        | ended tree =>
          rw [List.cons_append, trees?_of_ended goes, trees?_of_ended goes, ← List.cons_append,
            between]
          cases grammar.trees? (token :: tokens) none <;>
            cases grammar.trees? more none <;> rfl

end Grammar

/-- An input that is one expression is one statement. -/
theorem parseAll_of_parse (grammar : Grammar O) (input : Text) (value : O)
    (parsed : (grammar.parse input).result = .ok value) :
    (grammar.parseAll input).result = .ok [value] := by
  obtain ⟨tree, found, rfl⟩ := Run.exists_of_map parsed
  have divided := Grammar.parseTree_uses found
  have read := (Grammar.parseTree_value divided).symm.trans (Run.value?_eq_some.2 found)
  obtain ⟨last, after, finished⟩ := Option.bind_eq_some_iff.1 read
  rw [← Run.value?_eq_some, Grammar.parseAll_value divided,
    Grammar.trees?_of_stageAfter?_false after finished]
  rfl

/-- Letters with a sum and a sign, which bind weaker than brackets do, in statements that end at
`;`. -/
def clauses : Grammar Text :=
  .ofRules [.operand "[a-z]".toList id, .infixLeft ['+'] (-3) (· ++ '+' :: ·),
    .prefixOp ['-'] (-5) ('-' :: ·), .brackets "\\(".toList "\\)".toList ('(' :: · ++ [')']),
    .separator [';']]

theorem parseAll_of_parse_sign :
    (clauses.parse "-a+(b)".toList).result = .ok "-a+(b)".toList ∧
      (clauses.parseAll "-a+(b)".toList).result = .ok ["-a+(b)".toList] :=
  have parsed : (clauses.parse "-a+(b)".toList).result = .ok "-a+(b)".toList :=
    Run.value?_eq_some.1 (by decide +kernel)
  ⟨parsed, parseAll_of_parse clauses _ _ parsed⟩

/-- Where a separator stands between the tokens of two inputs, the statements are those of the first
input and then those of the second. -/
theorem parseAll_separated (grammar : Grammar O) (x y z : Text)
    (before before' after after' : List Token) (separator : Token)
    (separates : grammar.isSeparator separator.symbol)
    (idle : grammar.ClosesNothing separator.symbol)
    (dividedX : grammar.tokens x = .ok before) (dividedY : grammar.tokens y = .ok after)
    (dividedZ : grammar.tokens z = .ok (before' ++ separator :: after'))
    (same : before'.map Token.unplaced = before.map Token.unplaced)
    (same' : after'.map Token.unplaced = after.map Token.unplaced) (values : List O) :
    (grammar.parseAll z).result = .ok values ↔
      ∃ first second, (grammar.parseAll x).result = .ok first ∧
        (grammar.parseAll y).result = .ok second ∧ values = first ++ second := by
  have joined : (grammar.parseAll z).value? = (grammar.parseAll x).value?.bind fun first =>
      (grammar.parseAll y).value?.map (first ++ ·) := by
    rw [Grammar.parseAll_value dividedZ, Grammar.parseAll_value dividedX,
      Grammar.parseAll_value dividedY, ← Grammar.values_of_unplaced grammar same,
      ← Grammar.values_of_unplaced grammar same',
      Grammar.trees?_separated separates idle after' none fun stage mem => nomatch mem]
    cases grammar.trees? before' none <;> cases grammar.trees? after' none <;> simp
  simp only [← Run.value?_eq_some, joined, Option.bind_eq_some_iff, Option.map_eq_some_iff]
  constructor
  · rintro ⟨first, found, second, found', rfl⟩
    exact ⟨first, second, found, found', rfl⟩
  · rintro ⟨first, second, found, found', rfl⟩
    exact ⟨first, found, second, found', rfl⟩

theorem parseAll_separated_clauses :
    clauses.ClosesNothing 5 ∧ ∀ values,
      (clauses.parseAll "-a+b; (c)".toList).result = .ok values ↔
        ∃ first second, (clauses.parseAll "-a+b".toList).result = .ok first ∧
          (clauses.parseAll "(c)".toList).result = .ok second ∧ values = first ++ second := by
  have idle : clauses.ClosesNothing 5 := by decide +kernel
  have x : clauses.scan "-a+b".toList = ⟨[⟨2, ['-'], 0, 1, -5⟩, ⟨0, ['a'], 1, 2, 0⟩,
      ⟨1, ['+'], 2, 3, -3⟩, ⟨0, ['b'], 3, 4, 0⟩], .finished 4⟩ := by decide +kernel
  have y : clauses.scan "(c)".toList = ⟨[⟨4, ['('], 0, 1, 0⟩, ⟨0, ['c'], 1, 2, 0⟩,
      ⟨3, [')'], 2, 3, 0⟩], .finished 3⟩ := by decide +kernel
  have z : clauses.scan "-a+b; (c)".toList = ⟨[⟨2, ['-'], 0, 1, -5⟩, ⟨0, ['a'], 1, 2, 0⟩,
      ⟨1, ['+'], 2, 3, -3⟩, ⟨0, ['b'], 3, 4, 0⟩] ++ ⟨5, [';'], 4, 5, 0⟩ :: [⟨4, ['('], 6, 7, 0⟩,
      ⟨0, ['c'], 7, 8, 0⟩, ⟨3, [')'], 8, 9, 0⟩], .finished 9⟩ := by decide +kernel
  exact ⟨idle, parseAll_separated clauses _ _ _ _ _ _ _ _ (by decide +kernel) idle
    (Grammar.tokens_of_scan _ _ _ x) (Grammar.tokens_of_scan _ _ _ y)
    (Grammar.tokens_of_scan _ _ _ z) rfl rfl⟩

end OpGrammar
