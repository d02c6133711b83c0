import OpGrammar.Grammar.Parse

/-!
# Precedence

The powers of a grammar say which trees an input may have. `Tree.Ordered` says it of a tree, with no
parse in sight; a parse gives exactly the one tree that is ordered and has the tokens of the input.
-/

namespace OpGrammar

variable {O : Type}

/-! ## Ordered trees -/

namespace Tree

/-- Every infix and postfix operator down the left side binds tighter than `power`. -/
def Exceeds : Tree O → Power → Prop
  | .infixOp token _ _ left _, power => power < token.power ∧ left.Exceeds power
  | .postfixOp token _ inner, power => power < token.power ∧ inner.Exceeds power
  | .operand .., _ | .prefixOp .., _ | .bracket .., _ => True

/-- Every infix and prefix operator down the right side reads its right operand with at least
`power`, so it leaves a token of that power to what is around it. -/
def YieldsTo : Tree O → Power → Prop
  | .infixOp _ p _ _ right, power => power ≤ p ∧ right.YieldsTo power
  | .prefixOp _ p _ inner, power => power ≤ p ∧ inner.YieldsTo power
  | .operand .., _ | .postfixOp .., _ | .bracket .., _ => True

/-- Each operand inside of the tree is the one that the powers allow. -/
def Ordered : Tree O → Prop
  | .operand _ _ => True
  | .prefixOp _ power _ inner => inner.Ordered ∧ inner.Exceeds power
  | .bracket _ _ _ inner => inner.Ordered ∧ inner.Exceeds 0
  | .infixOp token power _ left right =>
    (left.Ordered ∧ left.YieldsTo token.power) ∧ right.Ordered ∧ right.Exceeds power
  | .postfixOp token _ inner => inner.Ordered ∧ inner.YieldsTo token.power

end Tree

/-! ## The trees of a grammar -/

namespace Grammar

/-- The token is an infix operator that reads its right operand with `power`. -/
def Joins (grammar : Grammar O) (token : Token) (power : Power) (combine : O → O → O) : Prop :=
  grammar.follower? token.symbol = some (.infixLeft power combine) ∨
    ∃ p, grammar.follower? token.symbol = some (.infixRight p combine) ∧ power = p - 1

/-- Each token of the tree does what its symbol is for. -/
def Builds (grammar : Grammar O) : Tree O → Prop
  | .operand token make => grammar.starter? token.symbol = some (.operand make)
  | .prefixOp token power apply inner =>
    grammar.starter? token.symbol = some (.prefixOp power apply) ∧ grammar.Builds inner
  | .bracket opening closing wrap inner =>
    grammar.starter? opening.symbol = some (.bracket closing.symbol wrap) ∧ grammar.Builds inner
  | .infixOp token power combine left right =>
    grammar.Joins token power combine ∧ grammar.Builds left ∧ grammar.Builds right
  | .postfixOp token apply inner =>
    (∃ p, grammar.follower? token.symbol = some (.postfixOp p apply)) ∧ grammar.Builds inner

/-- The trees that the powers of the grammar allow. -/
def Allows (grammar : Grammar O) (tree : Tree O) : Prop :=
  grammar.Builds tree ∧ tree.Ordered ∧ tree.Exceeds 0

/-- Operators take more power than the surroundings of an expression have, and a closing bracket is
for nothing else. -/
structure Regular (grammar : Grammar O) : Prop where
  follower : ∀ id follower, grammar.follower? id = some follower → 1 ≤ follower.power
  prefixOp : ∀ id power apply, grammar.starter? id = some (.prefixOp power apply) → 0 ≤ power
  closing : ∀ id closing wrap, grammar.starter? id = some (.bracket closing wrap) →
    grammar.starter? closing = none ∧ grammar.follower? closing = none

variable {grammar : Grammar O}

def regularAt (grammar : Grammar O) (id : Nat) : Bool :=
  (grammar.follower? id).all (1 ≤ ·.power) &&
    match grammar.starter? id with
    | some (.prefixOp power _) => 0 ≤ power
    | some (.bracket closing _) =>
      (grammar.starter? closing).isNone && (grammar.follower? closing).isNone
    | _ => true

theorem role?_of_size_le (id : Nat) (h : grammar.symbols.size ≤ id) : grammar.role? id = none := by
  simp [role?, h]

theorem regular_iff : grammar.Regular ↔ ∀ id < grammar.symbols.size, grammar.regularAt id := by
  constructor
  · intro regular id _
    simp only [regularAt, Bool.and_eq_true, Option.all_eq_true, decide_eq_true_eq]
    refine ⟨regular.follower id, ?_⟩
    split
    · rename_i power apply found
      simpa using regular.prefixOp id power apply found
    · rename_i closing wrap found
      simpa using regular.closing id closing wrap found
    · rfl
  · intro test
    have all (id : Nat) : grammar.regularAt id := by
      by_cases inside : id < grammar.symbols.size
      · exact test id inside
      · have none := role?_of_size_le id (Nat.le_of_not_lt inside)
        simp [regularAt, follower?, starter?, none]
    simp only [regularAt, Bool.and_eq_true, Option.all_eq_true, decide_eq_true_eq] at all
    refine ⟨fun id => (all id).1, fun id power apply found => ?_, fun id closing wrap found => ?_⟩
    · simpa [found] using (all id).2
    · simpa [found] using (all id).2

instance : Decidable grammar.Regular := decidable_of_iff _ regular_iff.symm

/-- An operator grouped to the right reads its right operand with one power less, which is exact
above any power. -/
theorem toInt_sub_one {least p : Power} (above : least < p) : (p - 1).toInt = p.toInt - 1 := by
  have low := least.le_toInt
  have high := p.toInt_lt
  rw [Int32.lt_iff_toInt_lt] at above
  rw [Int32.toInt_sub, Int32.toInt_one]
  apply Int.bmod_eq_of_le
  · omega
  · omega

theorem Joins.nonneg {token : Token} {power : Power} {combine : O → O → O}
    (joins : grammar.Joins token power combine)
    (positive : ∀ follower, grammar.follower? token.symbol = some follower → 1 ≤ follower.power) :
    0 ≤ power := by
  rcases joins with follows | ⟨p, follows, rfl⟩
  · have bound : 1 ≤ power := positive _ follows
    exact Int32.le_trans (by decide) bound
  · have bound : 1 ≤ p := positive _ follows
    have low : 1 ≤ p.toInt := by simpa using Int32.le_iff_toInt_le.mp bound
    have above : 0 < p := Int32.lt_of_lt_of_le (by decide) bound
    rw [Int32.le_iff_toInt_le, toInt_sub_one above]
    simpa using low

/-! ## One step -/

@[simp] theorem fetch_finished (tokens : List Token) (place depth : Nat) :
    (fetch ⟨tokens, .finished place⟩ depth).result = .ok () := by
  cases tokens <;> rfl

variable {place : Nat}

theorem start_result (rest : List Token) (stack : List (Frame O)) (token : Token) :
    (grammar.start ⟨rest, .finished place⟩ stack token).result =
      match grammar.starter? token.symbol with
      | some (.operand make) => .ok (.operator stack (.operand token make))
      | some (.prefixOp power apply) => .ok (.operand (.prefixOp token power apply :: stack))
      | some (.bracket closing wrap) => .ok (.operand (.bracket token closing wrap :: stack))
      | none => .error (.startsNothing token.text token.start) := by
  rw [start, Run.result_bind, fetch_finished]
  rcases grammar.starter? token.symbol with _ | _ | _ | _ <;> rfl

theorem follow_result (rest : List Token) (stack : List (Frame O)) (tree : Tree O) (token : Token) :
    (grammar.follow ⟨rest, .finished place⟩ stack tree token).result =
      match grammar.follower? token.symbol with
      | some (.infixLeft power combine) =>
        .ok (.operand (.infixOp token power combine tree :: stack))
      | some (.infixRight power combine) =>
        .ok (.operand (.infixOp token (power - 1) combine tree :: stack))
      | some (.postfixOp _ apply) => .ok (.operator stack (.postfixOp token apply tree))
      | none => .error (.followsNothing token.text token.start) := by
  rw [follow, Run.result_bind, fetch_finished]
  rcases grammar.follower? token.symbol with _ | _ | _ | _ <;> rfl

theorem close_result (rest : List Token) (stack : List (Frame O)) (tree : Tree O) (opening : Token)
    (closing : Nat) (wrap : O → O) (token : Token) :
    (grammar.close ⟨rest, .finished place⟩ stack tree opening closing wrap token).result =
      if token.symbol = closing then .ok (.operator stack (.bracket opening token wrap tree))
      else .error (.expected (grammar.patternOf closing) token.text token.start) := by
  rw [close, Run.result_bind, fetch_finished]
  split <;> rfl

theorem goesOn_expression (power : Power) (token : Token) :
    grammar.goesOn false power token = decide (power < token.power) := by simp [goesOn]

theorem goesOn_of_le {power : Power} {token : Token} (h : token.power ≤ power) :
    grammar.goesOn false power token = false := by
  simpa [goesOn_expression, Int32.not_lt] using h

theorem resume_of_lt (left : Scan) (token : Token) (stack : List (Frame O)) (tree : Tree O)
    (lt : stackPower stack < token.power) :
    grammar.resume false left token stack tree = .more <$> grammar.follow left stack tree token := by
  have goes : grammar.goesOn false (stackPower stack) token = true := by
    simpa [goesOn_expression] using lt
  cases stack <;> simp_all [resume, stackPower]

theorem resume_prefixOp (left : Scan) (token op : Token) (power : Power) (apply : O → O)
    (stack : List (Frame O)) (tree : Tree O) (le : token.power ≤ power) :
    grammar.resume false left token (.prefixOp op power apply :: stack) tree =
      grammar.resume false left token stack (.prefixOp op power apply tree) := by
  rw [resume, Frame.power, goesOn_of_le le]
  rfl

theorem resume_infixOp (left : Scan) (token op : Token) (power : Power) (combine : O → O → O)
    (first : Tree O) (stack : List (Frame O)) (tree : Tree O) (le : token.power ≤ power) :
    grammar.resume false left token (.infixOp op power combine first :: stack) tree =
      grammar.resume false left token stack (.infixOp op power combine first tree) := by
  rw [resume, Frame.power, goesOn_of_le le]
  rfl

theorem resume_bracket (left : Scan) (token opening : Token) (closing : Nat) (wrap : O → O)
    (stack : List (Frame O)) (tree : Tree O) (le : token.power ≤ 0) :
    grammar.resume false left token (.bracket opening closing wrap :: stack) tree =
      .more <$> grammar.close left stack tree opening closing wrap token := by
  rw [resume, Frame.power, goesOn_of_le le]
  rfl

theorem follow_joins (rest : List Token) (stack : List (Frame O)) (tree : Tree O) (token : Token)
    (power : Power) (combine : O → O → O) (joins : grammar.Joins token power combine) :
    (grammar.follow ⟨rest, .finished place⟩ stack tree token).result =
      .ok (.operand (.infixOp token power combine tree :: stack)) := by
  rw [follow_result]
  rcases joins with h | ⟨p, h, rfl⟩ <;> rw [h]

end Grammar

/-! ## The stack that a tree leaves open

When the last token of a tree has been read, its right side still waits on the stack: the operators
down the right side are `frames`, and `core` is the expression at hand.
-/

namespace Tree

/-- The operators down the right side, the innermost first. -/
def frames : Tree O → List (Frame O)
  | .prefixOp token power apply inner => inner.frames ++ [.prefixOp token power apply]
  | .infixOp token power combine left right => right.frames ++ [.infixOp token power combine left]
  | .operand .. | .postfixOp .. | .bracket .. => []

def core : Tree O → Tree O
  | .prefixOp _ _ _ inner => inner.core
  | .infixOp _ _ _ _ right => right.core
  | .operand token make => .operand token make
  | .postfixOp token apply inner => .postfixOp token apply inner
  | .bracket opening closing wrap inner => .bracket opening closing wrap inner

end Tree

namespace Grammar

variable {grammar : Grammar O}

theorem resume_frames (left : Scan) (token : Token) (stack : List (Frame O)) (tree : Tree O)
    (yields : tree.YieldsTo token.power) :
    grammar.resume false left token (tree.frames ++ stack) tree.core =
      grammar.resume false left token stack tree := by
  induction tree generalizing stack with
  | operand | postfixOp | bracket => rfl
  | prefixOp op power apply inner ih =>
    rw [Tree.frames, Tree.core, List.append_assoc, ih _ yields.2]
    exact resume_prefixOp left token op power apply stack inner yields.1
  | infixOp op power combine first second _ ih =>
    rw [Tree.frames, Tree.core, List.append_assoc, ih _ yields.2]
    exact resume_infixOp left token op power combine first stack second yields.1

theorem finishTree_frames (place : Nat) (stack : List (Frame O)) (tree : Tree O) :
    grammar.finishTree place (tree.frames ++ stack) tree.core =
      grammar.finishTree place stack tree := by
  induction tree generalizing stack with
  | operand | postfixOp | bracket => rfl
  | prefixOp op power apply inner ih =>
    rw [Tree.frames, Tree.core, List.append_assoc, ih]
    simp [finishTree]
  | infixOp op power combine first second _ ih =>
    rw [Tree.frames, Tree.core, List.append_assoc, ih]
    simp [finishTree]

/-! ## Every tree that is allowed is found -/

variable {place : Nat}

/-- Reading some tokens leads from one stage to another. -/
inductive Takes (grammar : Grammar O) (place : Nat) : Stage O → List Token → Stage O → Prop
  | nil (stage : Stage O) : Takes grammar place stage [] stage
  | cons {stage next last : Stage O} {token : Token} {tokens : List Token}
    (step : ∀ rest, (grammar.step false ⟨rest, .finished place⟩ token stage).result =
      .ok (.more next))
    (more : Takes grammar place next tokens last) : Takes grammar place stage (token :: tokens) last

theorem Takes.single {stage next : Stage O} {token : Token}
    (step : ∀ rest, (grammar.step false ⟨rest, .finished place⟩ token stage).result =
      .ok (.more next)) : grammar.Takes place stage [token] next :=
  .cons step (.nil next)

theorem Takes.append {stage next last : Stage O} {tokens more : List Token}
    (h : grammar.Takes place stage tokens next) (h' : grammar.Takes place next more last) :
    grammar.Takes place stage (tokens ++ more) last := by
  induction h with
  | nil => exact h'
  | cons step _ ih => exact .cons step (ih h')

theorem readOne_of_takes (input : Text) {stage last : Stage O} {tokens : List Token}
    (h : grammar.Takes place stage tokens last) :
    (grammar.readOne input (.finished place) tokens stage).result =
      (grammar.finish place last).result := by
  induction h with
  | nil => rfl
  | cons step _ ih =>
    rw [readOne, Run.result_bind, step]
    exact ih

/-- The token binds as tightly as its symbol does. -/
def Carries (grammar : Grammar O) (token : Token) : Prop :=
  token.power = ((grammar.role? token.symbol).map Role.power).getD 0

theorem power_of_idle (token : Token) (carries : grammar.Carries token)
    (noStarter : grammar.starter? token.symbol = none)
    (noFollower : grammar.follower? token.symbol = none) : token.power = 0 := by
  rw [carries]
  unfold starter? at noStarter
  unfold follower? at noFollower
  cases h : grammar.role? token.symbol with
  | none => rfl
  | some role =>
    rw [h] at noStarter noFollower
    cases role with
    | aside => rfl
    | expression starter follower =>
      obtain rfl : starter = none := noStarter
      obtain rfl : follower = none := noFollower
      rfl

theorem power_of_follower {token : Token} {follower : Follower O}
    (carries : grammar.Carries token) (follows : grammar.follower? token.symbol = some follower) :
    token.power = follower.power := by
  rw [carries]
  unfold follower? at follows
  obtain ⟨role, found, follows⟩ := Option.bind_eq_some_iff.1 follows
  rw [found]
  cases role with
  | aside => cases follows
  | expression starter other =>
    obtain rfl : other = some follower := follows
    rfl

theorem Regular.yieldsTo_zero (regular : grammar.Regular) (tree : Tree O)
    (builds : grammar.Builds tree) : tree.YieldsTo 0 := by
  induction tree with
  | operand | postfixOp | bracket => trivial
  | prefixOp token power apply inner ih =>
    exact ⟨regular.prefixOp _ _ _ builds.1, ih builds.2⟩
  | infixOp token power combine left right _ ih =>
    exact ⟨builds.1.nonneg (regular.follower _), ih builds.2.2⟩

/-- Where the surroundings have less power than a tree, its tokens are read as this tree. -/
theorem Regular.takes_tree (regular : grammar.Regular) (tree : Tree O) (stack : List (Frame O))
    (builds : grammar.Builds tree) (ordered : tree.Ordered)
    (exceeds : tree.Exceeds (stackPower stack)) (carries : ∀ token ∈ tree.tokens, grammar.Carries token) :
    grammar.Takes place (.operand stack) tree.tokens
      (.operator (tree.frames ++ stack) tree.core) := by
  induction tree generalizing stack with
  | operand token make =>
    apply Takes.single
    intro rest
    rw [step, Run.result_map, start_result, builds]
    rfl
  | prefixOp token power apply inner ih =>
    have first : grammar.Takes place (.operand stack) [token]
        (.operand (.prefixOp token power apply :: stack)) := by
      apply Takes.single
      intro rest
      rw [step, Run.result_map, start_result, builds.1]
      rfl
    have later := ih (.prefixOp token power apply :: stack) builds.2 ordered.1 ordered.2
      fun t ht => carries t (by simp [Tree.tokens, ht])
    simpa [Tree.tokens, Tree.frames, Tree.core] using first.append later
  | bracket opening closing wrap inner ih =>
    have first : grammar.Takes place (.operand stack) [opening]
        (.operand (.bracket opening closing.symbol wrap :: stack)) := by
      apply Takes.single
      intro rest
      rw [step, Run.result_map, start_result, builds.1]
      rfl
    have within := ih (.bracket opening closing.symbol wrap :: stack) builds.2 ordered.1 ordered.2
      fun t ht => carries t (by simp [Tree.tokens, ht])
    have idle : closing.power = 0 := by
      obtain ⟨noStarter, noFollower⟩ := regular.closing _ _ _ builds.1
      exact power_of_idle closing (carries closing (by simp [Tree.tokens])) noStarter noFollower
    have last : grammar.Takes place
        (.operator (inner.frames ++ .bracket opening closing.symbol wrap :: stack) inner.core)
        [closing] (.operator stack (.bracket opening closing wrap inner)) := by
      apply Takes.single
      intro rest
      rw [step, resume_frames _ _ _ _ (idle ▸ regular.yieldsTo_zero inner builds.2),
        resume_bracket _ _ _ _ _ _ _ (by simp [idle]), Run.result_map, close_result, if_pos rfl]
      rfl
    simpa [Tree.tokens, Tree.frames, Tree.core] using (first.append within).append last
  | infixOp token power combine left right ihLeft ihRight =>
    obtain ⟨⟨orderedLeft, yields⟩, orderedRight, exceedsRight⟩ := ordered
    have before := ihLeft stack builds.2.1 orderedLeft exceeds.2
      fun t ht => carries t (by simp [Tree.tokens, ht])
    have between : grammar.Takes place (.operator (left.frames ++ stack) left.core) [token]
        (.operand (.infixOp token power combine left :: stack)) := by
      apply Takes.single
      intro rest
      rw [step, resume_frames _ _ _ _ yields, resume_of_lt _ _ _ _ exceeds.1, Run.result_map,
        follow_joins _ _ _ _ _ _ builds.1]
      rfl
    have after := ihRight (.infixOp token power combine left :: stack) builds.2.2 orderedRight
      exceedsRight fun t ht => carries t (by simp [Tree.tokens, ht])
    simpa [Tree.tokens, Tree.frames, Tree.core] using (before.append between).append after
  | postfixOp token apply inner ih =>
    obtain ⟨p, follows⟩ := builds.1
    have before := ih stack builds.2 ordered.1 exceeds.2
      fun t ht => carries t (by simp [Tree.tokens, ht])
    have last : grammar.Takes place (.operator (inner.frames ++ stack) inner.core) [token]
        (.operator stack (.postfixOp token apply inner)) := by
      apply Takes.single
      intro rest
      rw [step, resume_frames _ _ _ _ ordered.2, resume_of_lt _ _ _ _ exceeds.1, Run.result_map,
        follow_result, follows]
      rfl
    simpa [Tree.tokens, Tree.frames, Tree.core] using before.append last

/-! ## Every tree that is found is allowed -/

def stackTokens : List (Frame O) → List Token
  | [] => []
  | .prefixOp token _ _ :: stack => stackTokens stack ++ [token]
  | .infixOp token _ _ left :: stack => stackTokens stack ++ left.tokens ++ [token]
  | .bracket opening _ _ :: stack => stackTokens stack ++ [opening]

/-- The expression is one that may stand on top of a stack. -/
def Stands (grammar : Grammar O) (stack : List (Frame O)) (tree : Tree O) : Prop :=
  grammar.Builds tree ∧ tree.Ordered ∧ tree.Exceeds (stackPower stack)

/-- Whatever waits on the stack is part of an allowed tree, as far as it has been read. -/
def StackFits (grammar : Grammar O) : List (Frame O) → Prop
  | [] => True
  | .prefixOp token power apply :: stack =>
    grammar.starter? token.symbol = some (.prefixOp power apply) ∧ grammar.StackFits stack
  | .infixOp token power combine left :: stack =>
    (grammar.Joins token power combine ∧ stackPower stack < token.power ∧
      grammar.Stands stack left ∧ left.YieldsTo token.power) ∧ grammar.StackFits stack
  | .bracket opening closing wrap :: stack =>
    grammar.starter? opening.symbol = some (.bracket closing wrap) ∧ grammar.StackFits stack

/-- The stage of an allowed tree whose tokens start with the given ones. -/
def StageFits (grammar : Grammar O) (tokens : List Token) : Stage O → Prop
  | .operand stack => grammar.StackFits stack ∧ tokens = stackTokens stack
  | .operator stack tree =>
    grammar.StackFits stack ∧ grammar.Stands stack tree ∧ (∀ power, tree.YieldsTo power) ∧
      tokens = stackTokens stack ++ tree.tokens

theorem fits_of_start (rest : List Token) (stack : List (Frame O)) (token : Token) (stage : Stage O)
    (fits : grammar.StackFits stack)
    (h : (grammar.start ⟨rest, .finished place⟩ stack token).result = .ok stage) :
    grammar.StageFits (stackTokens stack ++ [token]) stage := by
  rw [start_result] at h
  split at h
  · rename_i make found
    obtain rfl := Except.ok.inj h
    exact ⟨fits, ⟨found, trivial, trivial⟩, fun _ => trivial, rfl⟩
  · rename_i power apply found
    obtain rfl := Except.ok.inj h
    exact ⟨⟨found, fits⟩, rfl⟩
  · rename_i closing wrap found
    obtain rfl := Except.ok.inj h
    exact ⟨⟨found, fits⟩, rfl⟩
  · cases h

theorem fits_of_follow (rest : List Token) (stack : List (Frame O)) (tree : Tree O) (token : Token)
    (stage : Stage O) (fits : grammar.StackFits stack) (stands : grammar.Stands stack tree)
    (yields : tree.YieldsTo token.power) (lt : stackPower stack < token.power)
    (h : (grammar.follow ⟨rest, .finished place⟩ stack tree token).result = .ok stage) :
    grammar.StageFits (stackTokens stack ++ tree.tokens ++ [token]) stage := by
  rw [follow_result] at h
  split at h
  · rename_i power combine found
    obtain rfl := Except.ok.inj h
    exact ⟨⟨⟨Or.inl found, lt, stands, yields⟩, fits⟩, rfl⟩
  · rename_i power combine found
    obtain rfl := Except.ok.inj h
    exact ⟨⟨⟨Or.inr ⟨power, found, rfl⟩, lt, stands, yields⟩, fits⟩, rfl⟩
  · rename_i power apply found
    obtain rfl := Except.ok.inj h
    obtain ⟨builds, ordered, exceeds⟩ := stands
    exact ⟨fits, ⟨⟨⟨power, found⟩, builds⟩, ⟨ordered, yields⟩, lt, exceeds⟩, fun _ => trivial,
      by simp [Tree.tokens]⟩
  · cases h

theorem eq_ok_of_map_more (result : Except ParseError (Stage O)) (stage : Stage O)
    (h : result.map Outcome.more = .ok (.more stage)) : result = .ok stage := by
  cases result with
  | error e => cases h
  | ok next => injection h with h; injection h with h; rw [h]

theorem stands_prefixOp (op : Token) (power : Power) (apply : O → O) (stack : List (Frame O))
    (tree : Tree O) (fits : grammar.StackFits (.prefixOp op power apply :: stack))
    (stands : grammar.Stands (.prefixOp op power apply :: stack) tree) :
    grammar.Stands stack (.prefixOp op power apply tree) :=
  ⟨⟨fits.1, stands.1⟩, stands.2, trivial⟩

theorem stands_infixOp (op : Token) (power : Power) (combine : O → O → O) (first : Tree O)
    (stack : List (Frame O)) (tree : Tree O)
    (fits : grammar.StackFits (.infixOp op power combine first :: stack))
    (stands : grammar.Stands (.infixOp op power combine first :: stack) tree) :
    grammar.Stands stack (.infixOp op power combine first tree) := by
  obtain ⟨joins, lt, ⟨builds, ordered, exceeds⟩, yields⟩ := fits.1
  exact ⟨⟨joins, builds, stands.1⟩, ⟨⟨ordered, yields⟩, stands.2⟩, lt, exceeds⟩

theorem fits_of_resume (rest : List Token) (stack : List (Frame O)) (tree : Tree O) (token : Token)
    (stage : Stage O) (fits : grammar.StackFits stack) (stands : grammar.Stands stack tree)
    (yields : tree.YieldsTo token.power)
    (h : (grammar.resume false ⟨rest, .finished place⟩ token stack tree).result =
      .ok (.more stage)) :
    grammar.StageFits (stackTokens stack ++ tree.tokens ++ [token]) stage := by
  induction stack generalizing tree with
  | nil =>
    rw [resume] at h
    split at h
    · rename_i goes
      rw [Run.result_map] at h
      exact fits_of_follow rest [] tree token stage fits stands yields
        (by simpa [goesOn_expression, stackPower] using goes) (eq_ok_of_map_more _ _ h)
    · cases h
  | cons frame stack ih =>
    by_cases lt : stackPower (frame :: stack) < token.power
    · rw [resume_of_lt _ _ _ _ lt, Run.result_map] at h
      exact fits_of_follow rest _ tree token stage fits stands yields lt (eq_ok_of_map_more _ _ h)
    · -- The token ends the operand of the innermost operator.
      cases frame with
      | prefixOp op power apply =>
        have le : token.power ≤ power := Int32.not_lt.mp lt
        rw [resume_prefixOp _ _ _ _ _ _ _ le] at h
        simpa [stackTokens, Tree.tokens] using ih (.prefixOp op power apply tree) fits.2
          (stands_prefixOp op power apply stack tree fits stands) ⟨le, yields⟩ h
      | infixOp op power combine first =>
        have le : token.power ≤ power := Int32.not_lt.mp lt
        rw [resume_infixOp _ _ _ _ _ _ _ _ le] at h
        simpa [stackTokens, Tree.tokens] using ih (.infixOp op power combine first tree) fits.2
          (stands_infixOp op power combine first stack tree fits stands) ⟨le, yields⟩ h
      | bracket opening closing wrap =>
        have le : token.power ≤ 0 := Int32.not_lt.mp lt
        rw [resume_bracket _ _ _ _ _ _ _ le, Run.result_map] at h
        have closed := eq_ok_of_map_more _ _ h
        rw [close_result] at closed
        split at closed
        · rename_i same
          obtain rfl := Except.ok.inj closed
          exact ⟨fits.2, ⟨⟨same ▸ fits.1, stands.1⟩, stands.2, trivial⟩, fun _ => trivial,
            by simp [stackTokens, Tree.tokens]⟩
        · cases closed

theorem fits_of_step (rest tokens : List Token) (token : Token) (stage next : Stage O)
    (fits : grammar.StageFits tokens stage)
    (h : (grammar.step false ⟨rest, .finished place⟩ token stage).result = .ok (.more next)) :
    grammar.StageFits (tokens ++ [token]) next := by
  cases stage with
  | operand stack =>
    obtain ⟨fits, rfl⟩ := fits
    rw [step, Run.result_map] at h
    exact fits_of_start rest stack token next fits (eq_ok_of_map_more _ _ h)
  | operator stack tree =>
    obtain ⟨fits, stands, yields, rfl⟩ := fits
    exact fits_of_resume rest stack tree token next fits stands (yields _) h

theorem allows_of_finishTree (stack : List (Frame O)) (tree result : Tree O)
    (fits : grammar.StackFits stack) (stands : grammar.Stands stack tree)
    (h : (grammar.finishTree place stack tree).result = .ok result) :
    grammar.Allows result ∧ result.tokens = stackTokens stack ++ tree.tokens := by
  induction stack generalizing tree with
  | nil =>
    obtain rfl : tree = result := Except.ok.inj h
    exact ⟨stands, rfl⟩
  | cons frame stack ih =>
    cases frame with
    | prefixOp op power apply =>
      simpa [stackTokens, Tree.tokens] using ih (.prefixOp op power apply tree) fits.2
        (stands_prefixOp op power apply stack tree fits stands) h
    | infixOp op power combine first =>
      simpa [stackTokens, Tree.tokens] using ih (.infixOp op power combine first tree) fits.2
        (stands_infixOp op power combine first stack tree fits stands) h
    | bracket opening closing wrap => cases h

theorem allows_of_readOne (input : Text) (rest tokens : List Token) (stage : Stage O)
    (tree : Tree O) (fits : grammar.StageFits tokens stage)
    (h : (grammar.readOne input (.finished place) rest stage).result = .ok tree) :
    grammar.Allows tree ∧ tree.tokens = tokens ++ rest := by
  induction rest generalizing tokens stage with
  | nil =>
    cases stage with
    | operand stack => cases h
    | operator stack left =>
      obtain ⟨fits, stands, -, rfl⟩ := fits
      simpa using allows_of_finishTree stack left tree fits stands h
  | cons token rest ih =>
    rw [readOne, Run.result_bind] at h
    cases stepped : (grammar.step false ⟨rest, .finished place⟩ token stage).result with
    | error e => rw [stepped] at h; cases h
    | ok outcome =>
      rw [stepped] at h
      cases outcome with
      | ended left => cases h
      | more next =>
        simpa using ih (tokens ++ [token]) next (fits_of_step rest tokens token stage next fits stepped) h

/-! ## The tokens of an input -/

theorem carries_of_nextToken (place : Nat) (text rest : Text) (token : Token)
    (h : grammar.nextToken place text = .token token rest) : grammar.Carries token := by
  fun_induction grammar.nextToken place text with
  | case1 => cases h
  | case2 => cases h
  | case3 => cases h
  | case4 _ _ _ _ _ _ _ _ _ _ _ _ ih => exact ih h
  | case5 =>
    obtain ⟨rfl, rfl⟩ := NextToken.token.inj h
    rfl

theorem nextToken_ne_repeated (place : Nat) (text : Text) (token : Token) :
    grammar.nextToken place text ≠ .ending (.repeated token) := by
  fun_induction grammar.nextToken place text with
  | case4 _ _ _ _ _ _ _ _ _ _ _ _ ih => exact ih
  | _ => intro eq; cases eq

theorem forall_scanFrom {holds : Token → Prop}
    (next : ∀ place text token rest, grammar.nextToken place text = .token token rest → holds token)
    (place : Nat) (text : Text) : (∀ token ∈ (grammar.scanFrom place text).tokens, holds token) ∧
      ∀ token, (grammar.scanFrom place text).ending = .repeated token → holds token := by
  fun_induction grammar.scanFrom place text with
  | case1 place text ending eq =>
    refine ⟨by simp, ?_⟩
    rintro token rfl
    exact absurd eq (nextToken_ne_repeated place text token)
  | case2 place text token rest eq =>
    refine ⟨by simp, ?_⟩
    rintro _ ⟨⟩
    exact next place text token rest eq
  | case3 place text token rest eq _ scan ih =>
    simp only [List.forall_mem_cons]
    exact ⟨⟨next place text token rest eq, ih.1⟩, ih.2⟩

theorem carries_of_scanFrom (place : Nat) (text : Text) :
    ∀ token ∈ (grammar.scanFrom place text).tokens, grammar.Carries token :=
  (forall_scanFrom (fun place text token rest => carries_of_nextToken place text rest token)
    place text).1

theorem scan_of_tokens (input : Text) (tokens : List Token) (h : grammar.tokens input = .ok tokens) :
    ∃ place, grammar.scan input = ⟨tokens, .finished place⟩ := by
  unfold Grammar.tokens at h
  cases hs : grammar.scan input with
  | mk found ending =>
    rw [hs] at h
    cases ending with
    | finished place => exact ⟨place, by rw [← Except.ok.inj h]⟩
    | unknown | repeated | skipping => cases h

theorem tokens_of_scan (input : Text) (tokens : List Token) (place : Nat)
    (h : grammar.scan input = ⟨tokens, .finished place⟩) : grammar.tokens input = .ok tokens := by
  rw [Grammar.tokens, h]

theorem parseTree_result (input : Text) (tokens : List Token) (place : Nat)
    (scanned : grammar.scan input = ⟨tokens, .finished place⟩) :
    (grammar.parseTree input).result =
      (grammar.readOne input (.finished place) tokens (.operand [])).result := by
  rw [parseTree, scanned, Run.result_bind]
  exact congrArg (· >>= _) (fetch_finished tokens place 0)

end Grammar

/-- An input that is divided into tokens is parsed as a tree exactly if the grammar allows this tree
and its tokens, from left to right, are those of the input. There is at most one such tree, and its
value is the result of the parse. -/
theorem parseTree_eq_ok_iff (grammar : Grammar O) (regular : grammar.Regular) (input : Text)
    (tokens : List Token) (divided : grammar.tokens input = .ok tokens) :
    (∀ tree, (grammar.parseTree input).result = .ok tree ↔
      grammar.Allows tree ∧ tree.tokens = tokens) ∧
    (∀ value, (grammar.parse input).result = .ok value ↔
      ∃ tree, grammar.Allows tree ∧ tree.tokens = tokens ∧ tree.value = value) ∧
    ∀ tree tree', grammar.Allows tree → grammar.Allows tree' →
      tree.tokens = tokens → tree'.tokens = tokens → tree = tree' := by
  obtain ⟨place, scanned⟩ := Grammar.scan_of_tokens input tokens divided
  have parsed := Grammar.parseTree_result input tokens place scanned
  have carries : ∀ token ∈ (grammar.scan input).tokens, grammar.Carries token :=
    Grammar.carries_of_scanFrom 0 input
  rw [scanned] at carries
  have found (tree : Tree O) : (grammar.parseTree input).result = .ok tree ↔
      grammar.Allows tree ∧ tree.tokens = tokens := by
    rw [parsed]
    constructor
    · exact Grammar.allows_of_readOne input tokens [] (.operand []) tree ⟨trivial, rfl⟩
    · rintro ⟨⟨builds, ordered, exceeds⟩, rfl⟩
      have takes : grammar.Takes place (.operand []) tree.tokens
          (.operator (tree.frames ++ []) tree.core) :=
        regular.takes_tree tree [] builds ordered exceeds carries
      rw [Grammar.readOne_of_takes input takes, Grammar.finish, Grammar.finishTree_frames]
      rfl
  refine ⟨found, fun value => ?_, fun tree tree' h h' same same' => ?_⟩
  · rw [Grammar.parse, Run.result_map]
    constructor
    · intro h
      cases tried : (grammar.parseTree input).result with
      | error e => rw [tried] at h; cases h
      | ok tree =>
        rw [tried] at h
        obtain ⟨allows, same⟩ := (found tree).1 tried
        exact ⟨tree, allows, same, Except.ok.inj h⟩
    · rintro ⟨tree, allows, same, rfl⟩
      rw [(found tree).2 ⟨allows, same⟩]
      rfl
  · have := ((found tree).2 ⟨h, same⟩).symm.trans ((found tree').2 ⟨h', same'⟩)
    exact Except.ok.inj this

/-- Digits with a sum, a power, a sign that binds weaker than a power, and brackets. -/
def sums : Grammar Text :=
  .ofRules [.operand ['[', '0', '-', '9', ']'] id, .infixLeft ['+'] 10 (· ++ '+' :: ·),
    .infixRight ['^'] 30 (· ++ '^' :: ·), .prefixOp ['-'] 20 ('-' :: ·),
    .brackets ['\\', '('] ['\\', ')'] id]

theorem parseTree_sums :
    sums.Regular ∧ ∃ tokens, sums.tokens ['-', '2', '^', '3', '+', '(', '1', ')'] = .ok tokens ∧
      ∀ tree, (sums.parseTree ['-', '2', '^', '3', '+', '(', '1', ')']).result = .ok tree ↔
        sums.Allows tree ∧ tree.tokens = tokens := by
  have regular : sums.Regular := by decide +kernel
  have scanned : sums.scan ['-', '2', '^', '3', '+', '(', '1', ')'] =
      ⟨[⟨3, ['-'], 0, 1, 20⟩, ⟨0, ['2'], 1, 2, 0⟩, ⟨2, ['^'], 2, 3, 30⟩, ⟨0, ['3'], 3, 4, 0⟩,
        ⟨1, ['+'], 4, 5, 10⟩, ⟨5, ['('], 5, 6, 0⟩, ⟨0, ['1'], 6, 7, 0⟩, ⟨4, [')'], 7, 8, 0⟩],
        .finished 8⟩ := by
    decide +kernel
  have divided := Grammar.tokens_of_scan _ _ _ scanned
  exact ⟨regular, _, divided, (parseTree_eq_ok_iff sums regular _ _ divided).1⟩

end OpGrammar
