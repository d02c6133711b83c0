import OpGrammar.Grammar.Trace
import OpGrammar.Grammar.Tree

/-!
# Parsing

An expression is read token by token. Open operators and brackets wait on a stack; a token that
binds tighter than the innermost of them goes on with the expression at hand, and any other ends it,
which closes that operator.
-/

namespace OpGrammar

/-- What waits for the expression at hand. -/
inductive Frame (O : Type) where
  | prefixOp (token : Token) (power : Power) (apply : O → O)
  | infixOp (token : Token) (power : Power) (combine : O → O → O) (left : Tree O)
  | bracket (opening : Token) (closing : Nat) (wrap : O → O)

/-- The power that a token must exceed to go on with the expression in this frame. -/
def Frame.power {O : Type} : Frame O → Power
  | .prefixOp _ power _ => power
  | .infixOp _ power _ _ => power
  | .bracket _ _ _ => 0

/-- The power that a token must exceed to go on with the expression on top of a stack. -/
def stackPower {O : Type} : List (Frame O) → Power
  | [] => 0
  | frame :: _ => frame.power

/-- How far an expression has been read. -/
inductive Stage (O : Type) where
  /-- An expression has to start. -/
  | operand (stack : List (Frame O))
  /-- An expression has been read, and may go on. -/
  | operator (stack : List (Frame O)) (left : Tree O)

/-- What a token makes of an expression. -/
inductive Outcome (O : Type) where
  /-- The token belongs to it. -/
  | more (stage : Stage O)
  /-- The expression ended before the token. -/
  | ended (tree : Tree O)

/-- Records what comes after a token, which is the start of what is left. -/
def fetch (left : Scan) (depth : Nat) : Run Unit :=
  match left with
  | ⟨token :: _, _⟩ => .emit ⟨.fetch, depth, .token token⟩
  | ⟨[], .finished place⟩ => .emit ⟨.fetch, depth, .ending place⟩
  | ⟨[], .unknown place rest⟩ => .fail (.unknownText place rest)
  | ⟨[], .repeated token⟩ => .fail (.noProgress token.start)
  | ⟨[], .skipping place⟩ => .fail (.noProgress place)

namespace Grammar

variable {O : Type}

def starter? (grammar : Grammar O) (id : Nat) : Option (Starter O) :=
  (grammar.role? id).bind Role.starter?

def follower? (grammar : Grammar O) (id : Nat) : Option (Follower O) :=
  (grammar.role? id).bind Role.follower?

def isSeparator (grammar : Grammar O) (id : Nat) : Bool :=
  match grammar.role? id with
  | some (.aside .separator) => true
  | _ => false

def patternOf (grammar : Grammar O) (id : Nat) : Text :=
  (grammar.symbols[id]?.map (·.pattern)).getD []

/-- Whether a token goes on with an expression. Between statements, one that follows nothing starts
the next statement instead. -/
def goesOn (grammar : Grammar O) (statements : Bool) (power : Power) (token : Token) : Bool :=
  power < token.power && (!statements || (grammar.follower? token.symbol).isSome)

def start (grammar : Grammar O) (left : Scan) (stack : List (Frame O)) (token : Token) :
    Run (Stage O) := do
  let depth := stack.length + 1
  fetch left depth
  .emit ⟨.start, depth, .token token⟩
  match grammar.starter? token.symbol with
  | some (.operand make) => return .operator stack (.operand token make)
  | some (.prefixOp power apply) => return .operand (.prefixOp token power apply :: stack)
  | some (.bracket closing wrap) => return .operand (.bracket token closing wrap :: stack)
  | none => .fail (.startsNothing token.text token.start)

def follow (grammar : Grammar O) (left : Scan) (stack : List (Frame O)) (tree : Tree O)
    (token : Token) : Run (Stage O) := do
  let depth := stack.length + 1
  fetch left depth
  .emit ⟨.follow, depth, .token token⟩
  match grammar.follower? token.symbol with
  | some (.infixLeft power combine) =>
    return .operand (.infixOp token power combine tree :: stack)
  | some (.infixRight power combine) =>
    return .operand (.infixOp token (power - 1) combine tree :: stack)
  | some (.postfixOp _ apply) => return .operator stack (.postfixOp token apply tree)
  | none => .fail (.followsNothing token.text token.start)

def close (grammar : Grammar O) (left : Scan) (stack : List (Frame O)) (tree : Tree O)
    (opening : Token) (closing : Nat) (wrap : O → O) (token : Token) : Run (Stage O) := do
  fetch left (stack.length + 1)
  if token.symbol = closing then return .operator stack (.bracket opening token wrap tree)
  else .fail (.expected (grammar.patternOf closing) token.text token.start)

def resume (grammar : Grammar O) (statements : Bool) (left : Scan) (token : Token) :
    (stack : List (Frame O)) → (tree : Tree O) → Run (Outcome O)
  | [], tree =>
    if grammar.goesOn statements 0 token then .more <$> grammar.follow left [] tree token
    else pure (.ended tree)
  | frame :: stack, tree =>
    if grammar.goesOn statements frame.power token then
      .more <$> grammar.follow left (frame :: stack) tree token
    else
      match frame with
      | .prefixOp operator power apply =>
        grammar.resume statements left token stack (.prefixOp operator power apply tree)
      | .infixOp operator power combine first =>
        grammar.resume statements left token stack (.infixOp operator power combine first tree)
      | .bracket opening closing wrap =>
        .more <$> grammar.close left stack tree opening closing wrap token

def step (grammar : Grammar O) (statements : Bool) (left : Scan) (token : Token) :
    Stage O → Run (Outcome O)
  | .operand stack => .more <$> grammar.start left stack token
  | .operator stack tree => grammar.resume statements left token stack tree

def finishTree (grammar : Grammar O) (place : Nat) :
    (stack : List (Frame O)) → (tree : Tree O) → Run (Tree O)
  | [], tree => pure tree
  | .prefixOp operator power apply :: stack, tree =>
    grammar.finishTree place stack (.prefixOp operator power apply tree)
  | .infixOp operator power combine first :: stack, tree =>
    grammar.finishTree place stack (.infixOp operator power combine first tree)
  | .bracket _ closing _ :: stack, _ => do
    .emit ⟨.fetch, stack.length + 1, .ending place⟩
    .fail (.expected (grammar.patternOf closing) [] place)

def finish (grammar : Grammar O) (place : Nat) : Stage O → Run (Tree O)
  | .operand stack => do
    let depth := stack.length + 1
    .emit ⟨.fetch, depth, .ending place⟩
    .emit ⟨.start, depth, .ending place⟩
    .fail (.inputEnds place)
  | .operator stack tree => grammar.finishTree place stack tree

def readOne (grammar : Grammar O) (input : Text) (ending : Ending) :
    List Token → Stage O → Run (Tree O)
  | [], stage => grammar.finish ending.place stage
  | token :: tokens, stage => do
    match ← grammar.step false ⟨tokens, ending⟩ token stage with
    | .more stage => grammar.readOne input ending tokens stage
    | .ended _ => .fail (.inputLeft token.start (input.dropBytes token.start))

def startNext (grammar : Grammar O) (left : Scan) (token : Token) : Run (Option (Stage O)) := do
  if grammar.isSeparator token.symbol then
    fetch left 0
    return none
  else some <$> grammar.start left [] token

/-- Reads statements, one of which may have been begun. -/
def readAll (grammar : Grammar O) (ending : Ending) :
    List Token → Option (Stage O) → Run (List (Tree O))
  | [], none => pure []
  | [], some stage => ([·]) <$> grammar.finish ending.place stage
  | token :: tokens, none => do
    grammar.readAll ending tokens (← grammar.startNext ⟨tokens, ending⟩ token)
  | token :: tokens, some stage => do
    match ← grammar.step true ⟨tokens, ending⟩ token stage with
    | .more stage => grammar.readAll ending tokens (some stage)
    | .ended tree =>
      let next ← grammar.startNext ⟨tokens, ending⟩ token
      (tree :: ·) <$> grammar.readAll ending tokens next

def parseTree (grammar : Grammar O) (input : Text) : Run (Tree O) := do
  let scan := (grammar.scan input).unrolled
  fetch scan 0
  grammar.readOne input scan.ending scan.tokens (.operand [])

def parseTrees (grammar : Grammar O) (input : Text) : Run (List (Tree O)) := do
  let scan := (grammar.scan input).unrolled
  fetch scan 0
  grammar.readAll scan.ending scan.tokens none

def parse (grammar : Grammar O) (input : Text) : Run O := Tree.value <$> grammar.parseTree input

def parseAll (grammar : Grammar O) (input : Text) : Run (List O) :=
  List.map Tree.value <$> grammar.parseTrees input

/-- The lines that a parse leaves behind, when the grammar is traced. -/
def traceOf {α : Type} (grammar : Grammar O) (run : Run α) : Option (List String) :=
  if grammar.traced then some (run.events.map Event.print) else none

end Grammar

end OpGrammar
