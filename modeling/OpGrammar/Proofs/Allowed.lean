import OpGrammar.Proofs.Leaves
import OpGrammar.Proofs.Stages

/-!
# The trees of a parse

Between statements fewer tokens go on with an expression, but where an operator stands, it has its
operands by the same powers as in an input that is one expression: so every statement is a tree that
the grammar allows, built by its own operators from the tokens of the input.
-/

namespace OpGrammar

variable {O : Type} {grammar : Grammar O}

namespace Grammar

variable {statements : Bool} {token : Token} {stack : List (Frame O)} {tree : Tree O}
  {stage next : Stage O} {tokens : List Token}

/-! ## One token -/

theorem fits_started (fits : grammar.StackFits stack) {starter : Starter O}
    (starts : grammar.starter? token.symbol = some starter) :
    grammar.StageFits (stackTokens stack ++ [token]) (.started stack token starter) := by
  cases starter with
  | operand make => exact ⟨fits, ⟨starts, trivial, trivial⟩, fun _ => trivial, rfl⟩
  | prefixOp power apply => exact ⟨⟨starts, fits⟩, rfl⟩
  | bracket closing wrap => exact ⟨⟨starts, fits⟩, rfl⟩

theorem fits_followed (fits : grammar.StackFits stack) (stands : grammar.Stands stack tree)
    (yields : tree.YieldsTo token.power) (lt : stackPower stack < token.power)
    {follower : Follower O} (follows : grammar.follower? token.symbol = some follower) :
    grammar.StageFits (stackTokens stack ++ tree.tokens ++ [token])
      (.followed stack tree token follower) := by
  cases follower with
  | infixLeft power combine => exact ⟨⟨⟨.inl follows, lt, stands, yields⟩, fits⟩, rfl⟩
  | infixRight power combine =>
    exact ⟨⟨⟨.inr ⟨power, follows, rfl⟩, lt, stands, yields⟩, fits⟩, rfl⟩
  | postfixOp power apply =>
    obtain ⟨builds, ordered, exceeds⟩ := stands
    exact ⟨fits, ⟨⟨⟨power, follows⟩, builds⟩, ⟨ordered, yields⟩, lt, exceeds⟩, fun _ => trivial,
      by simp [Tree.tokens]⟩

theorem le_of_goesOn {power : Power} (stays : grammar.goesOn statements power token = false)
    (follows : (grammar.follower? token.symbol).isSome) : token.power ≤ power := by
  simpa [goesOn, follows, Int32.not_lt] using stays

theorem Moves.fits_of_operator {statements : Bool} {token : Token} {stack : List (Frame O)}
    {tree : Tree O} {next : Stage O}
    (moves : grammar.Moves statements token (.operator stack tree) next)
    (fits : grammar.StackFits stack) (stands : grammar.Stands stack tree)
    (yields : (grammar.follower? token.symbol).isSome → tree.YieldsTo token.power) :
    grammar.StageFits (stackTokens stack ++ tree.tokens ++ [token]) next := by
  generalize same : Stage.operator stack tree = stage at moves
  induction moves generalizing stack tree with
  | start => cases same
  | @follow stack' tree' follower goes follows =>
    cases same
    have some : (grammar.follower? token.symbol).isSome := Option.isSome_of_eq_some follows
    refine fits_followed fits stands (yields some) ?_ follows
    simpa [goesOn, some] using goes
  | @prefixOp operator power apply stack' inner _ stays _ ih =>
    cases same
    have more := ih fits.2 (stands_prefixOp operator power apply stack' inner fits stands)
      (fun follows => ⟨le_of_goesOn stays follows, yields follows⟩) rfl
    simpa [stackTokens, Tree.tokens] using more
  | @infixOp operator power combine first stack' second _ stays _ ih =>
    cases same
    have more := ih fits.2 (stands_infixOp operator power combine first stack' second fits stands)
      (fun follows => ⟨le_of_goesOn stays follows, yields follows⟩) rfl
    simpa [stackTokens, Tree.tokens] using more
  | close stays =>
    cases same
    exact ⟨fits.2, ⟨⟨fits.1, stands.1⟩, stands.2, trivial⟩, fun _ => trivial,
      by simp [stackTokens, Tree.tokens]⟩

theorem Moves.fits (moves : grammar.Moves statements token stage next)
    (fits : grammar.StageFits tokens stage) : grammar.StageFits (tokens ++ [token]) next := by
  cases stage with
  | operand stack =>
    obtain ⟨fits, rfl⟩ := fits
    cases moves with
    | start starts => exact fits_started fits starts
  | operator stack tree =>
    obtain ⟨fits, stands, yields, rfl⟩ := fits
    exact moves.fits_of_operator fits stands fun _ => yields _

theorem finished_of_ended (ended : grammar.outcome? statements token stage = some (.ended tree)) :
    stage.finished? = some tree := by
  cases stage with
  | operand stack =>
    rw [outcome?_operand] at ended
    obtain ⟨starter, -, eq⟩ := Option.map_eq_some_iff.1 ended
    cases eq
  | operator stack left =>
    rw [Stage.finished?]
    induction stack, left using grammar.stack_induction statements token with
    | goesOn stack left goes =>
      rw [outcome?_of_goesOn goes] at ended
      obtain ⟨follower, -, eq⟩ := Option.map_eq_some_iff.1 ended
      cases eq
    | ended left stays =>
      rw [outcome?_ended stays] at ended
      cases ended
      rfl
    | prefixOp operator power apply stack left stays ih =>
      rw [outcome?_prefixOp stays] at ended
      exact ih ended
    | infixOp operator power combine first stack left stays ih =>
      rw [outcome?_infixOp stays] at ended
      exact ih ended
    | bracket opening closing wrap stack left stays =>
      rw [outcome?_bracket stays] at ended
      split at ended <;> cases ended

theorem allows_of_finished? (fits : grammar.StageFits tokens stage)
    (finished : stage.finished? = some tree) : grammar.Allows tree := by
  have value : (grammar.finish 0 stage).value? = stage.finished? := finish_value
  have finished := Run.value?_eq_some.1 (value.trans finished)
  cases stage with
  | operand stack => cases finished
  | operator stack left =>
    obtain ⟨fits, stands, -, -⟩ := fits
    exact (allows_of_finishTree stack left tree fits stands finished).1

/-! ## All tokens -/

theorem fits_of_begins? {next : Option (Stage O)} (begun : grammar.begins? token = some next) :
    ∀ stage ∈ next, ∃ read, grammar.StageFits read stage := by
  rw [begins?] at begun
  split at begun
  · cases begun
    simp
  · obtain ⟨starter, starts, rfl⟩ := Option.map_eq_some_iff.1 begun
    intro stage mem
    obtain rfl := Option.some.inj mem
    have empty : grammar.StackFits [] := trivial
    exact ⟨_, fits_started empty starts⟩

theorem allows_of_trees? {next : Option (Stage O)} {trees : List (Tree O)}
    (read : grammar.trees? tokens next = some trees)
    (fits : ∀ stage ∈ next, ∃ read, grammar.StageFits read stage) :
    ∀ tree ∈ trees, grammar.Allows tree := by
  induction tokens generalizing next trees with
  | nil =>
    cases next with
    | none =>
      cases read
      exact List.forall_mem_nil _
    | some stage =>
      obtain ⟨tree, finished, rfl⟩ := Option.map_eq_some_iff.1 read
      obtain ⟨read, fits⟩ := fits stage rfl
      simpa using allows_of_finished? fits finished
  | cons token tokens ih =>
    have between {trees : List (Tree O)}
        (read : grammar.trees? (token :: tokens) none = some trees) :
        ∀ tree ∈ trees, grammar.Allows tree := by
      obtain ⟨next, begun, read⟩ := Option.bind_eq_some_iff.1 read
      exact ih read (fits_of_begins? begun)
    cases next with
    | none => exact between read
    | some stage =>
      obtain ⟨before, fits⟩ := fits stage rfl
      cases goes : grammar.outcome? true token stage with
      | none => simp [trees?, goes] at read
      | some outcome =>
        cases outcome with
        | more next =>
          have moves := outcome?_eq_more.1 goes
          rw [trees?_of_moves moves] at read
          exact ih read fun stage' mem => Option.some.inj mem ▸ ⟨_, moves.fits fits⟩
        | ended tree =>
          rw [trees?_of_ended goes] at read
          obtain ⟨others, rest, rfl⟩ := Option.map_eq_some_iff.1 read
          exact List.forall_mem_cons.2
            ⟨allows_of_finished? fits (finished_of_ended goes), between rest⟩

theorem parseTree_allows {input : Text} {tree : Tree O}
    (parsed : (grammar.parseTree input).result = .ok tree) : grammar.Allows tree := by
  obtain ⟨place, scanned⟩ := scan_of_tokens input tree.tokens (parseTree_uses parsed)
  rw [parseTree_result input tree.tokens place scanned] at parsed
  exact (allows_of_readOne input tree.tokens [] (.operand []) tree ⟨trivial, rfl⟩ parsed).1

end Grammar

theorem parseTrees_allows (grammar : Grammar O) {input : Text} {trees : List (Tree O)}
    (parsed : (grammar.parseTrees input).result = .ok trees) :
    ∀ tree ∈ trees, grammar.Allows tree := by
  obtain ⟨tokens, divided, -⟩ := Grammar.parseTrees_uses parsed
  have read := (Grammar.parseTrees_value divided).symm.trans (Run.value?_eq_some.2 parsed)
  exact Grammar.allows_of_trees? read fun stage mem => nomatch mem

/-- A parse is of a tree that the grammar's own operators build. Its tokens, from left to right, are
those of the input. The trees of statements are built in the same way, and their tokens, none without
any, are those of the input with separators around them. -/
theorem parse_leaves (grammar : Grammar O) (input : Text) :
    (∀ value, (grammar.parse input).result = .ok value →
      ∃ tree, (grammar.parseTree input).result = .ok tree ∧ tree.value = value ∧
        grammar.Builds tree ∧ grammar.tokens input = .ok tree.tokens) ∧
    ∀ values, (grammar.parseAll input).result = .ok values →
      ∃ trees tokens, (grammar.parseTrees input).result = .ok trees ∧
        trees.map Tree.value = values ∧ (∀ tree ∈ trees, grammar.Builds tree) ∧
        grammar.tokens input = .ok tokens ∧ grammar.Separates trees tokens ∧
        ∀ tree ∈ trees, tree.tokens ≠ [] := by
  constructor
  · intro value h
    obtain ⟨tree, parsed, eq⟩ := Run.exists_of_map h
    exact ⟨tree, parsed, eq, (Grammar.parseTree_allows parsed).1, Grammar.parseTree_uses parsed⟩
  · intro values h
    obtain ⟨trees, parsed, eq⟩ := Run.exists_of_map h
    obtain ⟨tokens, divided, separates⟩ := Grammar.parseTrees_uses parsed
    exact ⟨trees, tokens, parsed, eq, fun tree mem => (parseTrees_allows grammar parsed tree mem).1,
      divided, separates, fun tree _ => tree.tokens_ne_nil⟩

/-- Digits with a sum, in statements that end at `;`. -/
def listing : Grammar Text :=
  .ofRules [.operand "[0-9]".toList id, .infixLeft ['+'] 10 (· ++ '+' :: ·), .separator [';']]

theorem parse_leaves_listing :
    (∃ tree : Tree Text, tree.value = "2+3".toList ∧ listing.Builds tree ∧
      listing.tokens "2+3".toList = .ok tree.tokens) ∧
    ∃ trees tokens, trees.map Tree.value = ["1".toList, "2+3".toList] ∧
      (∀ tree ∈ trees, listing.Builds tree) ∧
      listing.tokens ";1 2+3;".toList = .ok tokens ∧ listing.Separates trees tokens := by
  have one : (listing.parse "2+3".toList).result = .ok "2+3".toList := by with_unfolding_all rfl
  have all : (listing.parseAll ";1 2+3;".toList).result = .ok ["1".toList, "2+3".toList] := by
    with_unfolding_all rfl
  obtain ⟨tree, -, value, builds, divided⟩ := (parse_leaves listing "2+3".toList).1 _ one
  obtain ⟨trees, tokens, -, values, builds', divided', separates, -⟩ :=
    (parse_leaves listing ";1 2+3;".toList).2 _ all
  exact ⟨⟨tree, value, builds, divided⟩, trees, tokens, values, builds', divided', separates⟩

end OpGrammar
