import OpGrammar.Proofs.Statements

/-!
# Brackets

In brackets an expression is read as it is by itself: what waits below it changes no step. The ends
differ. Nothing goes on past the end of an input, but a closing bracket has the power 0, and an
operator that reads its operand with less takes it for a token that has to follow the operand.
-/

namespace OpGrammar

variable {O : Type} {grammar : Grammar O}

/-! ## What waits below -/

def Stage.over (base : List (Frame O)) : Stage O → Stage O
  | .operand stack => .operand (stack ++ base)
  | .operator stack tree => .operator (stack ++ base) tree

theorem Stage.started_over (base stack : List (Frame O)) (token : Token) (starter : Starter O) :
    (started stack token starter).over base = started (stack ++ base) token starter := by
  cases starter <;> rfl

theorem Stage.followed_over (base stack : List (Frame O)) (tree : Tree O) (token : Token)
    (follower : Follower O) :
    (followed stack tree token follower).over base =
      followed (stack ++ base) tree token follower := by
  cases follower <;> rfl

variable {base : List (Frame O)}

theorem stackPower_append (weak : stackPower base = 0) (stack : List (Frame O)) :
    stackPower (stack ++ base) = stackPower stack := by
  cases stack with
  | nil => exact weak
  | cons frame stack => rfl

namespace Grammar

variable {statements : Bool} {token : Token} {stage next last : Stage O} {tokens : List Token}

/-- Where the frames below have no more power than the surroundings of an input, a token does above
them what it does without them. -/
theorem Moves.over (moves : grammar.Moves statements token stage next)
    (weak : stackPower base = 0) :
    grammar.Moves statements token (stage.over base) (next.over base) := by
  induction moves with
  | start starts =>
    rw [Stage.started_over]
    exact .start starts
  | follow goes follows =>
    rw [Stage.followed_over]
    exact .follow (by rwa [stackPower_append weak]) follows
  | prefixOp stays _ ih => exact .prefixOp stays ih
  | infixOp stays _ ih => exact .infixOp stays ih
  | close stays => exact .close stays

theorem stageAfter?_over (weak : stackPower base = 0)
    (after : grammar.stageAfter? statements tokens stage = some last) :
    grammar.stageAfter? statements tokens (stage.over base) = some (last.over base) := by
  induction tokens generalizing stage with
  | nil =>
    obtain rfl := Option.some.inj after
    rfl
  | cons token tokens ih =>
    obtain ⟨next, moves, after⟩ := stageAfter?_cons.1 after
    exact stageAfter?_cons.2 ⟨next.over base, moves.over weak, ih after⟩

end Grammar

/-! ## The right side of a tree -/

theorem Tree.core_of_frames {tree : Tree O} (closed : tree.frames = []) : tree.core = tree := by
  cases tree with
  | operand | postfixOp | bracket => rfl
  | prefixOp | infixOp => simp [frames] at closed

theorem treeOf?_frames {stack : List (Frame O)} {tree whole : Tree O}
    (complete : treeOf? stack tree = some whole) :
    whole.frames = tree.frames ++ stack ∧ whole.core = tree.core := by
  induction stack generalizing tree with
  | nil =>
    obtain rfl := Option.some.inj complete
    exact ⟨(List.append_nil _).symm, rfl⟩
  | cons frame stack ih =>
    cases frame with
    | prefixOp operator power apply =>
      obtain ⟨frames, core⟩ := ih complete
      exact ⟨by rw [frames, Tree.frames, List.append_assoc, List.singleton_append], core⟩
    | infixOp operator power combine first =>
      obtain ⟨frames, core⟩ := ih complete
      exact ⟨by rw [frames, Tree.frames, List.append_assoc, List.singleton_append], core⟩
    | bracket opening closing wrap => cases complete

/-- No operator is open in the expression at hand, only below it. -/
def Stage.Settled : Stage O → Prop
  | .operand _ => True
  | .operator _ tree => tree.frames = []

theorem Stage.Settled.eq_operator {stage : Stage O} (settled : stage.Settled) {tree : Tree O}
    (finished : stage.finished? = some tree) : stage = .operator tree.frames tree.core := by
  cases stage with
  | operand stack => cases finished
  | operator stack left =>
    obtain ⟨frames, core⟩ := treeOf?_frames finished
    have closed : left.frames = [] := settled
    rw [frames, core, closed, Tree.core_of_frames closed]
    rfl

namespace Grammar

variable {statements : Bool} {token : Token} {stage next last : Stage O}
  {tokens tokens' : List Token} {tree : Tree O}

theorem Moves.settled (moves : grammar.Moves statements token stage next) : next.Settled := by
  induction moves with
  | @start stack starter _ => cases starter <;> trivial
  | @follow stack tree follower _ _ => cases follower <;> trivial
  | prefixOp _ _ ih => exact ih
  | infixOp _ _ ih => exact ih
  | close _ => rfl

theorem settled_of_stageAfter? (settled : stage.Settled)
    (after : grammar.stageAfter? statements tokens stage = some last) : last.Settled := by
  induction tokens generalizing stage with
  | nil =>
    obtain rfl := Option.some.inj after
    exact settled
  | cons token tokens ih =>
    obtain ⟨next, moves, after⟩ := stageAfter?_cons.1 after
    exact ih moves.settled after

theorem stageAfter?_of_tree (weak : stackPower base = 0)
    (read : (grammar.stageAfter? statements tokens (.operand [])).bind Stage.finished? =
      some tree) :
    grammar.stageAfter? statements tokens (.operand base) =
      some (.operator (tree.frames ++ base) tree.core) := by
  obtain ⟨last, after, finished⟩ := Option.bind_eq_some_iff.1 read
  have empty : (Stage.operand (O := O) []).Settled := trivial
  obtain rfl := (settled_of_stageAfter? empty after).eq_operator finished
  exact stageAfter?_over weak after

theorem exists_tree_of_unplaced (same : tokens'.map Token.unplaced = tokens.map Token.unplaced)
    (read : (grammar.stageAfter? statements tokens (.operand [])).bind Stage.finished? =
      some tree) :
    ∃ tree', (grammar.stageAfter? statements tokens' (.operand [])).bind Stage.finished? =
      some tree' ∧ tree'.unplaced = tree.unplaced := by
  have unplaced (tokens : List Token) :
      ((grammar.stageAfter? statements tokens (.operand [])).bind Stage.finished?).map
          Tree.unplaced =
        (grammar.stageAfter? statements (tokens.map Token.unplaced) (.operand [])).bind
          Stage.finished? := by
    have moved := grammar.stageAfter?_unplaced statements tokens (.operand [])
    rw [show (Stage.operand (O := O) []).unplaced = .operand [] from rfl] at moved
    rw [moved]
    cases grammar.stageAfter? statements tokens (.operand []) with
    | none => rfl
    | some last => exact last.finished?_unplaced.symm
  have found := unplaced tokens'
  rw [same, ← unplaced tokens, read] at found
  exact Option.map_eq_some_iff.1 found

end Grammar

theorem Tree.yieldsTo_unplaced (tree : Tree O) (power : Power) :
    tree.unplaced.YieldsTo power ↔ tree.YieldsTo power := by
  induction tree with
  | operand | postfixOp | bracket => rfl
  | prefixOp token p apply inner ih => exact and_congr_right fun _ => ih
  | infixOp token p combine left right _ ih => exact and_congr_right fun _ => ih

/-- Whether a tree leaves a token of a power to what is around it. -/
instance Tree.decidableYieldsTo :
    (tree : Tree O) → (power : Power) → Decidable (tree.YieldsTo power)
  | .operand .., _ | .postfixOp .., _ | .bracket .., _ => inferInstanceAs (Decidable True)
  | .prefixOp _ p _ inner, power =>
    have := inner.decidableYieldsTo power
    inferInstanceAs (Decidable (power ≤ p ∧ inner.YieldsTo power))
  | .infixOp _ p _ _ right, power =>
    have := right.decidableYieldsTo power
    inferInstanceAs (Decidable (power ≤ p ∧ right.YieldsTo power))

/-! ## The closing bracket -/

namespace Grammar

variable {statements : Bool} {token : Token} {place : Nat} {stage last : Stage O}
  {tokens : List Token}

theorem outcome?_frames (stops : ∀ power, grammar.goesOn statements power token = false)
    (stack : List (Frame O)) (tree : Tree O) :
    grammar.outcome? statements token (.operator (tree.frames ++ stack) tree.core) =
      grammar.outcome? statements token (.operator stack tree) := by
  induction tree generalizing stack with
  | operand | postfixOp | bracket => rfl
  | prefixOp operator power apply inner ih =>
    rw [Tree.frames, Tree.core, List.append_assoc, ih]
    exact outcome?_prefixOp (stops power)
  | infixOp operator power combine first second _ ih =>
    rw [Tree.frames, Tree.core, List.append_assoc, ih]
    exact outcome?_infixOp (stops power)

theorem resume_unyielding (noFollower : grammar.follower? token.symbol = none)
    (rest : List Token) (stack : List (Frame O)) (tree : Tree O)
    (holds : ¬tree.YieldsTo token.power) :
    (grammar.resume false ⟨rest, .finished place⟩ token (tree.frames ++ stack) tree.core).result =
      .error (.followsNothing token.text token.start) := by
  have refused (stack : List (Frame O)) (tree : Tree O) (lt : stackPower stack < token.power) :
      (grammar.resume false ⟨rest, .finished place⟩ token stack tree).result =
        .error (.followsNothing token.text token.start) := by
    rw [resume_of_lt _ _ _ _ lt, Run.result_map, follow_result, noFollower]
    rfl
  induction tree generalizing stack with
  | operand | postfixOp | bracket => exact absurd trivial holds
  | prefixOp operator power apply inner ih =>
    rw [Tree.frames, Tree.core, List.append_assoc]
    by_cases within : inner.YieldsTo token.power
    · rw [resume_frames _ _ _ _ within]
      exact refused _ _ (Int32.not_le.1 fun le => holds ⟨le, within⟩)
    · exact ih _ within
  | infixOp operator power combine first second _ ih =>
    rw [Tree.frames, Tree.core, List.append_assoc]
    by_cases within : second.YieldsTo token.power
    · rw [resume_frames _ _ _ _ within]
      exact refused _ _ (Int32.not_le.1 fun le => holds ⟨le, within⟩)
    · exact ih _ within

theorem readOne_of_stageAfter? (input : Text) (more : List Token)
    (after : grammar.stageAfter? false tokens stage = some last) :
    (grammar.readOne input (.finished place) (tokens ++ more) stage).result =
      (grammar.readOne input (.finished place) more last).result := by
  induction tokens generalizing stage with
  | nil =>
    obtain rfl := Option.some.inj after
    rfl
  | cons token tokens ih =>
    obtain ⟨next, moves, after⟩ := stageAfter?_cons.1 after
    have goes := outcome?_eq_more.2 moves
    rw [← step_value (tokens ++ more) place, Run.value?_eq_some] at goes
    rw [List.cons_append, readOne, Run.result_bind, goes]
    exact ih after

/-! ## Powers from 0 on -/

theorem one_le_of_lt {power : Power} (lt : 0 < power) : 1 ≤ power := by
  rw [Int32.le_iff_toInt_le]
  exact Int32.lt_iff_toInt_lt.1 lt

theorem yieldsTo_zero (nonneg : ∀ id power apply,
      grammar.starter? id = some (.prefixOp power apply) → 0 ≤ power)
    {power : Power} (tree : Tree O) (least : 0 ≤ power) (builds : grammar.Builds tree) (ordered : tree.Ordered)
    (exceeds : tree.Exceeds power) (carries : ∀ token ∈ tree.tokens, grammar.Carries token) :
    tree.YieldsTo 0 := by
  induction tree generalizing power with
  | operand | postfixOp | bracket => trivial
  | prefixOp token right apply inner ih =>
    have low := nonneg _ _ _ builds.1
    exact ⟨low, ih low builds.2 ordered.1 ordered.2
      fun t mem => carries t (by simp [Tree.tokens, mem])⟩
  | infixOp token right combine first second _ ih =>
    have carried := carries token (by simp [Tree.tokens])
    have low := builds.1.nonneg fun follower follows =>
      power_of_follower carried follows ▸ one_le_of_lt (Int32.lt_of_le_of_lt least exceeds.1)
    exact ⟨low, ih low builds.2.2 ordered.2.1 ordered.2.2
      fun t mem => carries t (by simp [Tree.tokens, mem])⟩

/-! ## An expression in brackets -/

/-- The tokens are an opening bracket and the closing one for it, which is for nothing else. -/
structure Encloses (grammar : Grammar O) (opening closing : Token) (wrap : O → O) : Prop where
  starts : grammar.starter? opening.symbol = some (.bracket closing.symbol wrap)
  noStarter : grammar.starter? closing.symbol = none
  noFollower : grammar.follower? closing.symbol = none

variable {opening closing : Token} {wrap : O → O} {tree : Tree O}

theorem Encloses.stageAfter? (encloses : grammar.Encloses opening closing wrap)
    (read : (grammar.stageAfter? false tokens (.operand [])).bind Stage.finished? = some tree) :
    grammar.stageAfter? false (opening :: tokens) (.operand []) =
      some (.operator (tree.frames ++ [.bracket opening closing.symbol wrap]) tree.core) := by
  exact stageAfter?_cons.2 ⟨_, .start encloses.starts, stageAfter?_of_tree rfl read⟩

theorem Encloses.readOne (encloses : grammar.Encloses opening closing wrap) (input : Text)
    (place : Nat) (weak : closing.power = 0)
    (read : (grammar.stageAfter? false tokens (.operand [])).bind Stage.finished? = some tree) :
    (tree.YieldsTo 0 →
      (grammar.readOne input (.finished place) (opening :: tokens ++ [closing])
        (.operand [])).result = .ok (.bracket opening closing wrap tree)) ∧
    (¬tree.YieldsTo 0 →
      (grammar.readOne input (.finished place) (opening :: tokens ++ [closing])
        (.operand [])).result = .error (.followsNothing closing.text closing.start)) := by
  rw [readOne_of_stageAfter? input [closing] (encloses.stageAfter? read), Grammar.readOne,
    Run.result_bind, step]
  constructor
  · intro yields
    rw [resume_frames _ _ _ _ (weak ▸ yields), resume_bracket _ _ _ _ _ _ _ (by simp [weak]),
      Run.result_map, close_result, if_pos rfl]
    rfl
  · intro holds
    rw [resume_unyielding encloses.noFollower _ _ _ (weak ▸ holds)]
    rfl

theorem Encloses.trees? (encloses : grammar.Encloses opening closing wrap)
    (read : (grammar.stageAfter? false tokens (.operand [])).bind Stage.finished? = some tree) :
    grammar.trees? (opening :: tokens ++ [closing]) none =
      some [.bracket opening closing wrap tree] := by
  have stops := goesOn_of_idle encloses.noFollower
  have closes : grammar.Moves true closing
      (.operator (tree.frames ++ [.bracket opening closing.symbol wrap]) tree.core)
      (.operator [] (.bracket opening closing wrap tree)) := by
    rw [← outcome?_eq_more, outcome?_frames stops, outcome?_eq_more]
    exact .close (stops 0)
  have inner : grammar.stageAfter? true tokens
      (.started [] opening (.bracket closing.symbol wrap)) = _ :=
    stageAfter?_statements (stageAfter?_of_tree rfl read)
  rw [List.cons_append, Grammar.trees?, begins?_of_starter encloses.starts, Option.bind_some,
    trees?_of_stageAfter? inner, trees?_of_moves closes]
  rfl

end Grammar

/-- An expression in brackets is one statement, whose value is that of the brackets. It is one
expression exactly if no open operator of it takes the closing bracket, as none does without a
prefix operator of negative power. -/
theorem parse_bracketed (grammar : Grammar O) (s t : Text) (opening closing : Token) (wrap : O → O)
    (tokens tokens' : List Token) (value : O) (encloses : grammar.Encloses opening closing wrap)
    (divided : grammar.tokens s = .ok tokens)
    (divided' : grammar.tokens t = .ok (opening :: tokens' ++ [closing]))
    (same : tokens'.map Token.unplaced = tokens.map Token.unplaced)
    (parsed : (grammar.parse s).result = .ok value) :
    (grammar.parseAll t).result = .ok [wrap value] ∧
    ((∀ id power apply, grammar.starter? id = some (.prefixOp power apply) → 0 ≤ power) →
      (grammar.parse t).result = .ok (wrap value)) ∧
    ∀ tree, (grammar.parseTree s).result = .ok tree →
      (tree.YieldsTo 0 → (grammar.parse t).result = .ok (wrap value)) ∧
      (¬tree.YieldsTo 0 →
        (grammar.parse t).result = .error (.followsNothing closing.text closing.start)) := by
  obtain ⟨tree, found, rfl⟩ := Run.exists_of_map parsed
  -- The tree of the tokens in brackets differs from that of the input by its places.
  have read := (Grammar.parseTree_value divided).symm.trans (Run.value?_eq_some.2 found)
  obtain ⟨tree', read', alike⟩ := Grammar.exists_tree_of_unplaced same read
  have sameValue : tree'.value = tree.value := by
    rw [← tree'.value_unplaced, alike, tree.value_unplaced]
  have sameYields : tree'.YieldsTo 0 ↔ tree.YieldsTo 0 := by
    rw [← tree'.yieldsTo_unplaced, alike, tree.yieldsTo_unplaced]
  obtain ⟨place, scanned⟩ := Grammar.scan_of_tokens _ _ divided'
  have weak : closing.power = 0 := by
    have carries := grammar.carries_of_scanFrom 0 t closing
    rw [← Grammar.scan, scanned] at carries
    exact Grammar.power_of_idle closing (carries (by simp)) encloses.noStarter encloses.noFollower
  obtain ⟨closes, refuses⟩ := encloses.readOne t place weak read'
  rw [← Grammar.parseTree_result t _ place scanned] at closes refuses
  have accepted (yields : tree.YieldsTo 0) :
      (grammar.parse t).result = .ok (wrap tree.value) := by
    rw [Grammar.parse, Run.result_map, closes (sameYields.2 yields), ← sameValue]
    rfl
  refine ⟨?_, fun nonneg => accepted ?_, fun other found' => ?_⟩
  · rw [← Run.value?_eq_some, Grammar.parseAll_value divided', encloses.trees? read', ← sameValue]
    rfl
  · obtain ⟨place, scanned⟩ := Grammar.scan_of_tokens _ _ divided
    have carries := grammar.carries_of_scanFrom 0 s
    rw [← Grammar.scan, scanned] at carries
    rw [Grammar.parseTree_result s _ place scanned] at found
    obtain ⟨⟨builds, ordered, exceeds⟩, rfl⟩ :=
      Grammar.allows_of_readOne s tokens [] (.operand []) tree ⟨trivial, rfl⟩ found
    exact Grammar.yieldsTo_zero nonneg tree (Int32.le_refl 0) builds ordered exceeds carries
  · obtain rfl := Except.ok.inj (found.symm.trans found')
    refine ⟨accepted, fun holds => ?_⟩
    rw [Grammar.parse, Run.result_map, refuses fun yields => holds (sameYields.1 yields)]
    rfl

theorem parse_bracketed_sign :
    (clauses.parse "-a".toList).result = .ok "-a".toList ∧
      (clauses.parseAll "(-a)".toList).result = .ok ["(-a)".toList] ∧
      (clauses.parse "(-a)".toList).result = .error (.followsNothing [')'] 3) := by
  have scanned : clauses.scan "-a".toList = ⟨[⟨2, ['-'], 0, 1, -5⟩, ⟨0, ['a'], 1, 2, 0⟩],
      .finished 2⟩ := by decide +kernel
  have scanned' : clauses.scan "(-a)".toList = ⟨⟨4, ['('], 0, 1, 0⟩ :: [⟨2, ['-'], 1, 2, -5⟩,
      ⟨0, ['a'], 2, 3, 0⟩] ++ [⟨3, [')'], 3, 4, 0⟩], .finished 4⟩ := by decide +kernel
  have parsed : (clauses.parse "-a".toList).result = .ok "-a".toList :=
    Run.value?_eq_some.1 (by decide +kernel)
  have encloses : clauses.Encloses ⟨4, ['('], 0, 1, 0⟩ ⟨3, [')'], 3, 4, 0⟩
      ('(' :: · ++ [')']) := by
    constructor <;> with_unfolding_all rfl
  have holds : ∀ tree ∈ (clauses.parseTree "-a".toList).value?, ¬tree.YieldsTo 0 := by
    decide +kernel
  obtain ⟨statements, -, refused⟩ := parse_bracketed clauses _ _ _ _ _ _ _ _ encloses
    (Grammar.tokens_of_scan _ _ _ scanned) (Grammar.tokens_of_scan _ _ _ scanned') rfl parsed
  obtain ⟨tree, found, -⟩ := Run.exists_of_map parsed
  exact ⟨parsed, statements, (refused tree found).2 (holds tree (Run.value?_eq_some.2 found))⟩

end OpGrammar
