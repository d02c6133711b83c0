import OpGrammar.Proofs.Precedence

/-!
# From stage to stage

What a token makes of an expression depends on the token and on what has been read, not on what
comes after it, as long as the input can be read to its end. Nor does it depend on places: tokens
that differ in their places only are read as trees that differ in places only.
-/

namespace OpGrammar

variable {O : Type} {grammar : Grammar O}

/-! ## What a run gives -/

namespace Run

variable {α β : Type}

def value? (run : Run α) : Option α := run.result.toOption

theorem value?_eq_some {run : Run α} {a : α} : run.value? = some a ↔ run.result = .ok a := by
  unfold value?
  cases run.result <;> simp [Except.toOption]

theorem value?_bind (run : Run α) (next : α → Run β) :
    (run >>= next).value? = run.value?.bind fun a => (next a).value? := by
  unfold value?
  rw [result_bind]
  cases run.result <;> rfl

theorem value?_map (f : α → β) (run : Run α) : (f <$> run).value? = run.value?.map f := by
  unfold value?
  rw [result_map]
  cases run.result <;> rfl

end Run

/-! ## One token -/

namespace Stage

def started (stack : List (Frame O)) (token : Token) : Starter O → Stage O
  | .operand make => .operator stack (.operand token make)
  | .prefixOp power apply => .operand (.prefixOp token power apply :: stack)
  | .bracket closing wrap => .operand (.bracket token closing wrap :: stack)

def followed (stack : List (Frame O)) (tree : Tree O) (token : Token) : Follower O → Stage O
  | .infixLeft power combine => .operand (.infixOp token power combine tree :: stack)
  | .infixRight power combine => .operand (.infixOp token (power - 1) combine tree :: stack)
  | .postfixOp _ apply => .operator stack (.postfixOp token apply tree)

def stack : Stage O → List (Frame O)
  | .operand stack | .operator stack _ => stack

end Stage

namespace Grammar

variable {statements : Bool} {token : Token} {stack : List (Frame O)} {tree : Tree O}
  {stage : Stage O} {rest tokens : List Token} {place : Nat}

theorem start_value : (grammar.start ⟨rest, .finished place⟩ stack token).value? =
    (grammar.starter? token.symbol).map (.started stack token) := by
  rw [Run.value?, start_result]
  rcases grammar.starter? token.symbol with _ | _ | _ | _ <;> rfl

theorem follow_value : (grammar.follow ⟨rest, .finished place⟩ stack tree token).value? =
    (grammar.follower? token.symbol).map (.followed stack tree token) := by
  rw [Run.value?, follow_result]
  rcases grammar.follower? token.symbol with _ | _ | _ | _ <;> rfl

theorem close_value {opening : Token} {closing : Nat} {wrap : O → O} :
    (grammar.close ⟨rest, .finished place⟩ stack tree opening closing wrap token).value? =
      if token.symbol = closing then some (.operator stack (.bracket opening token wrap tree))
      else none := by
  rw [Run.value?, close_result]
  split <;> rfl

variable {left : Scan}

theorem resume_of_goesOn (goes : grammar.goesOn statements (stackPower stack) token = true) :
    grammar.resume statements left token stack tree =
      .more <$> grammar.follow left stack tree token := by
  cases stack with
  | nil => rw [resume, if_pos (show grammar.goesOn statements 0 token = true from goes)]
  | cons frame stack =>
    rw [resume.eq_def]
    exact if_pos goes

theorem resume_value : (grammar.resume statements ⟨rest, .finished place⟩ token stack tree).value? =
    (grammar.resume statements ⟨[], .finished 0⟩ token stack tree).value? := by
  induction stack generalizing tree with
  | nil =>
    unfold resume
    split
    · rw [Run.value?_map, Run.value?_map, follow_value, follow_value]
    · rfl
  | cons frame stack ih =>
    unfold resume
    split
    · rw [Run.value?_map, Run.value?_map, follow_value, follow_value]
    · cases frame with
      | prefixOp operator power apply => exact ih
      | infixOp operator power combine first => exact ih
      | bracket opening closing wrap =>
        rw [Run.value?_map, Run.value?_map, close_value, close_value]

/-- What a token makes of a stage, if it is not refused. -/
def outcome? (grammar : Grammar O) (statements : Bool) (token : Token) (stage : Stage O) :
    Option (Outcome O) :=
  (grammar.step statements ⟨[], .finished 0⟩ token stage).value?

theorem step_value (rest : List Token) (place : Nat) :
    (grammar.step statements ⟨rest, .finished place⟩ token stage).value? =
      grammar.outcome? statements token stage := by
  cases stage with
  | operand stack =>
    rw [outcome?, step, step, Run.value?_map, Run.value?_map, start_value, start_value]
  | operator stack tree => exact resume_value

theorem outcome?_operand : grammar.outcome? statements token (.operand stack) =
    (grammar.starter? token.symbol).map fun starter => .more (.started stack token starter) := by
  rw [outcome?, step, Run.value?_map, start_value, Option.map_map]
  rfl

theorem outcome?_of_goesOn (goes : grammar.goesOn statements (stackPower stack) token = true) :
    grammar.outcome? statements token (.operator stack tree) =
      (grammar.follower? token.symbol).map fun follower =>
        .more (.followed stack tree token follower) := by
  rw [outcome?, step, resume_of_goesOn goes, Run.value?_map, follow_value, Option.map_map]
  rfl

theorem outcome?_ended (goes : grammar.goesOn statements 0 token = false) :
    grammar.outcome? statements token (.operator [] tree) = some (.ended tree) := by
  rw [outcome?, step, resume, goes]
  rfl

theorem outcome?_prefixOp {operator : Token} {power : Power} {apply : O → O}
    (goes : grammar.goesOn statements power token = false) :
    grammar.outcome? statements token
        (.operator (.prefixOp operator power apply :: stack) tree) =
      grammar.outcome? statements token
        (.operator stack (.prefixOp operator power apply tree)) := by
  rw [outcome?, step, resume, Frame.power, goes]
  rfl

theorem outcome?_infixOp {operator : Token} {power : Power} {combine : O → O → O} {first : Tree O}
    (goes : grammar.goesOn statements power token = false) :
    grammar.outcome? statements token
        (.operator (.infixOp operator power combine first :: stack) tree) =
      grammar.outcome? statements token
        (.operator stack (.infixOp operator power combine first tree)) := by
  rw [outcome?, step, resume, Frame.power, goes]
  rfl

theorem outcome?_bracket {opening : Token} {closing : Nat} {wrap : O → O}
    (goes : grammar.goesOn statements 0 token = false) :
    grammar.outcome? statements token (.operator (.bracket opening closing wrap :: stack) tree) =
      if token.symbol = closing then
        some (.more (.operator stack (.bracket opening token wrap tree)))
      else none := by
  rw [outcome?, step, resume, Frame.power, goes, if_neg Bool.false_ne_true, Run.value?_map,
    close_value]
  split <;> rfl

/-- Every operator stage can be taken apart frame by frame: the token goes on with the expression at
hand, or it ends it. -/
theorem stack_induction {motive : List (Frame O) → Tree O → Prop} (statements : Bool)
    (token : Token)
    (goesOn : ∀ stack tree, grammar.goesOn statements (stackPower stack) token = true →
      motive stack tree)
    (ended : ∀ tree, grammar.goesOn statements 0 token = false → motive [] tree)
    (prefixOp : ∀ operator power apply stack tree,
      grammar.goesOn statements power token = false →
      motive stack (.prefixOp operator power apply tree) →
      motive (.prefixOp operator power apply :: stack) tree)
    (infixOp : ∀ operator power combine first stack tree,
      grammar.goesOn statements power token = false →
      motive stack (.infixOp operator power combine first tree) →
      motive (.infixOp operator power combine first :: stack) tree)
    (bracket : ∀ opening closing wrap stack tree, grammar.goesOn statements 0 token = false →
      motive (.bracket opening closing wrap :: stack) tree)
    (stack : List (Frame O)) (tree : Tree O) : motive stack tree := by
  induction stack generalizing tree with
  | nil =>
    cases goes : grammar.goesOn statements 0 token with
    | true => exact goesOn [] tree goes
    | false => exact ended tree goes
  | cons frame stack ih =>
    cases goes : grammar.goesOn statements frame.power token with
    | true => exact goesOn (frame :: stack) tree goes
    | false =>
      cases frame with
      | prefixOp operator power apply => exact prefixOp _ _ _ _ _ goes (ih _)
      | infixOp operator power combine first => exact infixOp _ _ _ _ _ _ goes (ih _)
      | bracket opening closing wrap => exact bracket _ _ _ _ _ goes

/-- The token belongs to the expression, which it takes from one stage to another: it starts an
operand, goes on with the expression at hand, or ends it, which may close a bracket. -/
inductive Moves (grammar : Grammar O) (statements : Bool) (token : Token) : Stage O → Stage O → Prop
  | start {stack : List (Frame O)} {starter : Starter O}
    (starts : grammar.starter? token.symbol = some starter) :
    Moves grammar statements token (.operand stack) (.started stack token starter)
  | follow {stack : List (Frame O)} {tree : Tree O} {follower : Follower O}
    (goes : grammar.goesOn statements (stackPower stack) token = true)
    (follows : grammar.follower? token.symbol = some follower) :
    Moves grammar statements token (.operator stack tree) (.followed stack tree token follower)
  | prefixOp {operator : Token} {power : Power} {apply : O → O} {stack : List (Frame O)}
    {tree : Tree O} {next : Stage O} (stays : grammar.goesOn statements power token = false)
    (more : Moves grammar statements token
      (.operator stack (.prefixOp operator power apply tree)) next) :
    Moves grammar statements token (.operator (.prefixOp operator power apply :: stack) tree) next
  | infixOp {operator : Token} {power : Power} {combine : O → O → O} {first : Tree O}
    {stack : List (Frame O)} {tree : Tree O} {next : Stage O}
    (stays : grammar.goesOn statements power token = false)
    (more : Moves grammar statements token
      (.operator stack (.infixOp operator power combine first tree)) next) :
    Moves grammar statements token
      (.operator (.infixOp operator power combine first :: stack) tree) next
  | close {opening : Token} {wrap : O → O} {stack : List (Frame O)} {tree : Tree O}
    (stays : grammar.goesOn statements 0 token = false) :
    Moves grammar statements token (.operator (.bracket opening token.symbol wrap :: stack) tree)
      (.operator stack (.bracket opening token wrap tree))

theorem outcome?_eq_more {next : Stage O} :
    grammar.outcome? statements token stage = some (.more next) ↔
      grammar.Moves statements token stage next := by
  constructor
  · intro more
    cases stage with
    | operand stack =>
      rw [outcome?_operand] at more
      obtain ⟨starter, starts, more⟩ := Option.map_eq_some_iff.1 more
      obtain rfl := Outcome.more.inj more
      exact .start starts
    | operator stack tree =>
      induction stack, tree using grammar.stack_induction statements token with
      | goesOn stack tree goes =>
        rw [outcome?_of_goesOn goes] at more
        obtain ⟨follower, follows, more⟩ := Option.map_eq_some_iff.1 more
        obtain rfl := Outcome.more.inj more
        exact .follow goes follows
      | ended tree stays =>
        rw [outcome?_ended stays] at more
        cases more
      | prefixOp operator power apply stack tree stays ih =>
        rw [outcome?_prefixOp stays] at more
        exact .prefixOp stays (ih more)
      | infixOp operator power combine first stack tree stays ih =>
        rw [outcome?_infixOp stays] at more
        exact .infixOp stays (ih more)
      | bracket opening closing wrap stack tree stays =>
        rw [outcome?_bracket stays] at more
        split at more
        · rename_i same
          subst same
          obtain rfl := Outcome.more.inj (Option.some.inj more)
          exact .close stays
        · cases more
  · intro moves
    induction moves with
    | start starts =>
      rw [outcome?_operand, starts]
      rfl
    | follow goes follows =>
      rw [outcome?_of_goesOn goes, follows]
      rfl
    | prefixOp stays _ ih => rw [outcome?_prefixOp stays, ih]
    | infixOp stays _ ih => rw [outcome?_infixOp stays, ih]
    | close stays => rw [outcome?_bracket stays, if_pos rfl]

/-! ## All tokens -/

end Grammar

/-- The tree that is complete when nothing more comes. -/
def treeOf? : (stack : List (Frame O)) → (tree : Tree O) → Option (Tree O)
  | [], tree => some tree
  | .prefixOp operator power apply :: stack, tree =>
    treeOf? stack (.prefixOp operator power apply tree)
  | .infixOp operator power combine first :: stack, tree =>
    treeOf? stack (.infixOp operator power combine first tree)
  | .bracket _ _ _ :: _, _ => none

def Stage.finished? : Stage O → Option (Tree O)
  | .operand _ => none
  | .operator stack tree => treeOf? stack tree

namespace Grammar

variable {statements : Bool} {token : Token} {stage : Stage O} {tokens : List Token} {place : Nat}

theorem finish_value : (grammar.finish place stage).value? = stage.finished? := by
  cases stage with
  | operand stack => rfl
  | operator stack tree =>
    rw [finish, Stage.finished?]
    induction stack generalizing tree with
    | nil => rfl
    | cons frame stack ih =>
      cases frame with
      | prefixOp operator power apply => exact ih _
      | infixOp operator power combine first => exact ih _
      | bracket opening closing wrap => rfl

/-- The stage after some tokens, if they all belong to the expression. -/
def stageAfter? (grammar : Grammar O) (statements : Bool) : List Token → Stage O → Option (Stage O)
  | [], stage => some stage
  | token :: tokens, stage =>
    match grammar.outcome? statements token stage with
    | some (.more next) => grammar.stageAfter? statements tokens next
    | some (.ended _) | none => none

theorem stageAfter?_cons {last : Stage O} :
    grammar.stageAfter? statements (token :: tokens) stage = some last ↔
      ∃ next, grammar.Moves statements token stage next ∧
        grammar.stageAfter? statements tokens next = some last := by
  simp only [← outcome?_eq_more, stageAfter?]
  rcases grammar.outcome? statements token stage with _ | _ | _ <;> simp

theorem readOne_value (input : Text) (place : Nat) :
    (grammar.readOne input (.finished place) tokens stage).value? =
      (grammar.stageAfter? false tokens stage).bind Stage.finished? := by
  induction tokens generalizing stage with
  | nil => exact finish_value
  | cons token tokens ih =>
    rw [readOne, Run.value?_bind, step_value, stageAfter?]
    rcases grammar.outcome? false token stage with _ | next | _
    · rfl
    · exact ih
    · rfl

/-- What a token begins between statements: nothing, if it is a separator. -/
def begins? (grammar : Grammar O) (token : Token) : Option (Option (Stage O)) :=
  if grammar.isSeparator token.symbol then some none
  else (grammar.starter? token.symbol).map fun starter => some (.started [] token starter)

theorem startNext_value :
    (grammar.startNext ⟨tokens, .finished place⟩ token).value? = grammar.begins? token := by
  rw [startNext, begins?]
  split
  · rw [Run.value?_bind, Run.value?, fetch_finished]
    rfl
  · rw [Run.value?_map, start_value, Option.map_map]
    rfl

/-- The trees of the statements in some tokens, one of which may have been begun. -/
def trees? (grammar : Grammar O) : List Token → Option (Stage O) → Option (List (Tree O))
  | [], none => some []
  | [], some stage => stage.finished?.map ([·])
  | token :: tokens, none => (grammar.begins? token).bind (grammar.trees? tokens)
  | token :: tokens, some stage =>
    match grammar.outcome? true token stage with
    | some (.more next) => grammar.trees? tokens (some next)
    | some (.ended tree) =>
      ((grammar.begins? token).bind (grammar.trees? tokens)).map (tree :: ·)
    | none => none

theorem trees?_of_moves {next : Stage O} (moves : grammar.Moves true token stage next) :
    grammar.trees? (token :: tokens) (some stage) = grammar.trees? tokens (some next) := by
  simp only [trees?, outcome?_eq_more.2 moves]

theorem trees?_of_ended {tree : Tree O}
    (ended : grammar.outcome? true token stage = some (.ended tree)) :
    grammar.trees? (token :: tokens) (some stage) =
      (grammar.trees? (token :: tokens) none).map (tree :: ·) := by
  simp only [trees?, ended]

theorem readAll_value {next : Option (Stage O)} :
    (grammar.readAll (.finished place) tokens next).value? = grammar.trees? tokens next := by
  induction tokens generalizing next with
  | nil =>
    cases next with
    | none => rfl
    | some stage => rw [readAll, Run.value?_map, Ending.place, finish_value, trees?]
  | cons token tokens ih =>
    cases next with
    | none =>
      rw [readAll, Run.value?_bind, startNext_value, trees?]
      exact congrArg _ (funext fun _ => ih)
    | some stage =>
      rw [readAll, Run.value?_bind, step_value, trees?]
      rcases grammar.outcome? true token stage with _ | next | tree
      · rfl
      · exact ih
      · rw [Option.bind_some, Run.value?_bind, startNext_value]
        simp only [Run.value?_map, ih]
        cases grammar.begins? token <;> rfl

theorem trees?_of_stageAfter? {last : Stage O}
    (after : grammar.stageAfter? true tokens stage = some last) (more : List Token) :
    grammar.trees? (tokens ++ more) (some stage) = grammar.trees? more (some last) := by
  induction tokens generalizing stage with
  | nil =>
    obtain rfl := Option.some.inj after
    rfl
  | cons token tokens ih =>
    obtain ⟨next, moves, after⟩ := stageAfter?_cons.1 after
    rw [List.cons_append, trees?_of_moves moves]
    exact ih after

/-! ## An input -/

variable {input : Text}

theorem parseTree_value (divided : grammar.tokens input = .ok tokens) :
    (grammar.parseTree input).value? =
      (grammar.stageAfter? false tokens (.operand [])).bind Stage.finished? := by
  obtain ⟨place, scanned⟩ := scan_of_tokens input tokens divided
  rw [← readOne_value input place, Run.value?, parseTree_result input tokens place scanned]
  rfl

theorem parseTrees_value (divided : grammar.tokens input = .ok tokens) :
    (grammar.parseTrees input).value? = grammar.trees? tokens none := by
  obtain ⟨place, scanned⟩ := scan_of_tokens input tokens divided
  have fetched : (fetch ⟨tokens, .finished place⟩ 0).value? = some () := by
    rw [Run.value?, fetch_finished]
    rfl
  rw [parseTrees, scanned, Run.value?_bind]
  exact (congrArg (Option.bind · _) fetched).trans readAll_value

theorem parseAll_value (divided : grammar.tokens input = .ok tokens) :
    (grammar.parseAll input).value? = (grammar.trees? tokens none).map (List.map Tree.value) := by
  rw [parseAll, Run.value?_map, parseTrees_value divided]

/-! ## Tokens at other places -/

end Grammar

def Token.unplaced (token : Token) : Token := { token with start := 0, stop := 0 }

@[simp] theorem Token.symbol_unplaced (token : Token) : token.unplaced.symbol = token.symbol := rfl

namespace Tree

def unplaced : Tree O → Tree O
  | .operand token make => .operand token.unplaced make
  | .prefixOp token power apply inner => .prefixOp token.unplaced power apply inner.unplaced
  | .bracket opening closing wrap inner =>
    .bracket opening.unplaced closing.unplaced wrap inner.unplaced
  | .infixOp token power combine left right =>
    .infixOp token.unplaced power combine left.unplaced right.unplaced
  | .postfixOp token apply inner => .postfixOp token.unplaced apply inner.unplaced

theorem value_unplaced (tree : Tree O) : tree.unplaced.value = tree.value := by
  induction tree with
  | operand => rfl
  | prefixOp token power apply inner ih => rw [unplaced, value, value, ih]
  | bracket opening closing wrap inner ih => rw [unplaced, value, value, ih]
  | infixOp token power combine left right ih ih' => rw [unplaced, value, value, ih, ih']
  | postfixOp token apply inner ih => rw [unplaced, value, value, ih]

end Tree

def Frame.unplaced : Frame O → Frame O
  | .prefixOp token power apply => .prefixOp token.unplaced power apply
  | .infixOp token power combine left => .infixOp token.unplaced power combine left.unplaced
  | .bracket opening closing wrap => .bracket opening.unplaced closing wrap

def Stage.unplaced : Stage O → Stage O
  | .operand stack => .operand (stack.map Frame.unplaced)
  | .operator stack tree => .operator (stack.map Frame.unplaced) tree.unplaced

def Outcome.unplaced : Outcome O → Outcome O
  | .more stage => .more stage.unplaced
  | .ended tree => .ended tree.unplaced

theorem Stage.started_unplaced (stack : List (Frame O)) (token : Token) (starter : Starter O) :
    started (stack.map Frame.unplaced) token.unplaced starter =
      (started stack token starter).unplaced := by
  cases starter <;> rfl

theorem Stage.followed_unplaced (stack : List (Frame O)) (tree : Tree O) (token : Token)
    (follower : Follower O) :
    followed (stack.map Frame.unplaced) tree.unplaced token.unplaced follower =
      (followed stack tree token follower).unplaced := by
  cases follower <;> rfl

theorem stackPower_unplaced (stack : List (Frame O)) :
    stackPower (stack.map Frame.unplaced) = stackPower stack := by
  rcases stack with _ | ⟨_ | _ | _, stack⟩ <;> rfl

theorem treeOf?_unplaced (stack : List (Frame O)) (tree : Tree O) :
    treeOf? (stack.map Frame.unplaced) tree.unplaced = (treeOf? stack tree).map Tree.unplaced := by
  induction stack generalizing tree with
  | nil => rfl
  | cons frame stack ih =>
    cases frame with
    | prefixOp operator power apply => exact ih (.prefixOp operator power apply tree)
    | infixOp operator power combine first => exact ih (.infixOp operator power combine first tree)
    | bracket opening closing wrap => rfl

theorem Stage.finished?_unplaced (stage : Stage O) :
    stage.unplaced.finished? = stage.finished?.map Tree.unplaced := by
  cases stage with
  | operand stack => rfl
  | operator stack tree => exact treeOf?_unplaced stack tree

namespace Grammar

variable (grammar) (statements : Bool)

@[simp] theorem goesOn_unplaced (power : Power) (token : Token) :
    grammar.goesOn statements power token.unplaced = grammar.goesOn statements power token := rfl

theorem outcome?_unplaced (token : Token) (stage : Stage O) :
    grammar.outcome? statements token.unplaced stage.unplaced =
      (grammar.outcome? statements token stage).map Outcome.unplaced := by
  cases stage with
  | operand stack =>
    rw [Stage.unplaced, outcome?_operand, outcome?_operand, Option.map_map]
    exact congrArg (Option.map · _) (funext fun starter =>
      congrArg Outcome.more (Stage.started_unplaced stack token starter))
  | operator stack tree =>
    rw [Stage.unplaced]
    induction stack, tree using grammar.stack_induction statements token with
    | goesOn stack tree goes =>
      rw [outcome?_of_goesOn goes, outcome?_of_goesOn (by rwa [stackPower_unplaced]),
        Option.map_map]
      exact congrArg (Option.map · _) (funext fun follower =>
        congrArg Outcome.more (Stage.followed_unplaced stack tree token follower))
    | ended tree goes =>
      rw [outcome?_ended goes]
      exact outcome?_ended (by rwa [goesOn_unplaced])
    | prefixOp operator power apply stack tree goes ih =>
      rw [outcome?_prefixOp goes, ← ih]
      exact outcome?_prefixOp (by rwa [goesOn_unplaced])
    | infixOp operator power combine first stack tree goes ih =>
      rw [outcome?_infixOp goes, ← ih]
      exact outcome?_infixOp (by rwa [goesOn_unplaced])
    | bracket opening closing wrap stack tree goes =>
      rw [outcome?_bracket goes]
      refine (outcome?_bracket (by rwa [goesOn_unplaced])).trans ?_
      rw [Token.symbol_unplaced]
      split <;> rfl

theorem stageAfter?_unplaced (tokens : List Token) (stage : Stage O) :
    grammar.stageAfter? statements (tokens.map Token.unplaced) stage.unplaced =
      (grammar.stageAfter? statements tokens stage).map Stage.unplaced := by
  induction tokens generalizing stage with
  | nil => rfl
  | cons token tokens ih =>
    rw [List.map_cons, stageAfter?, stageAfter?, outcome?_unplaced]
    rcases grammar.outcome? statements token stage with _ | next | _
    · rfl
    · exact ih next
    · rfl

theorem begins?_unplaced (token : Token) :
    grammar.begins? token.unplaced = (grammar.begins? token).map (Option.map Stage.unplaced) := by
  rw [begins?, begins?, Token.symbol_unplaced]
  split
  · rfl
  · rw [Option.map_map]
    exact congrArg (Option.map · _) (funext fun starter =>
      congrArg some (Stage.started_unplaced [] token starter))

theorem trees?_unplaced (tokens : List Token) (next : Option (Stage O)) :
    grammar.trees? (tokens.map Token.unplaced) (next.map Stage.unplaced) =
      (grammar.trees? tokens next).map (List.map Tree.unplaced) := by
  induction tokens generalizing next with
  | nil =>
    cases next with
    | none => rfl
    | some stage =>
      rw [List.map_nil, Option.map_some, trees?, trees?, stage.finished?_unplaced]
      cases stage.finished? <;> rfl
  | cons token tokens ih =>
    have between : (grammar.begins? token.unplaced).bind
        (grammar.trees? (tokens.map Token.unplaced)) =
          ((grammar.begins? token).bind (grammar.trees? tokens)).map (List.map Tree.unplaced) := by
      rw [begins?_unplaced]
      cases grammar.begins? token with
      | none => rfl
      | some next => exact ih next
    cases next with
    | none => exact between
    | some stage =>
      rw [List.map_cons, Option.map_some, trees?, trees?, outcome?_unplaced]
      rcases grammar.outcome? true token stage with _ | next | tree
      · rfl
      · exact ih (some next)
      · simp only [Option.map_some, Outcome.unplaced, between, Option.map_map]
        rfl

theorem values_of_unplaced {tokens tokens' : List Token}
    (same : tokens'.map Token.unplaced = tokens.map Token.unplaced) :
    (grammar.trees? tokens' none).map (List.map Tree.value) =
      (grammar.trees? tokens none).map (List.map Tree.value) := by
  have unplaced (tokens : List Token) : (grammar.trees? tokens none).map (List.map Tree.value) =
      (grammar.trees? (tokens.map Token.unplaced) none).map (List.map Tree.value) := by
    have eq := grammar.trees?_unplaced tokens none
    rw [Option.map_none] at eq
    rw [eq, Option.map_map]
    refine congrArg (Option.map · _) (funext fun trees => ?_)
    rw [Function.comp_apply, List.map_map]
    exact List.map_congr_left fun tree _ => tree.value_unplaced.symm
  rw [unplaced tokens', unplaced tokens, same]

end Grammar

end OpGrammar
