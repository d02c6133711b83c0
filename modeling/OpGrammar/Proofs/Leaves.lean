import OpGrammar.Proofs.Precedence

/-!
# The tokens of a parse

Whatever the powers of a grammar are, what a parse has read of an expression and what it has left
are together the tokens of the input, in their order. So each token is in a tree, once, or it
separates statements.
-/

namespace OpGrammar

variable {O : Type} {grammar : Grammar O}

theorem Run.exists_of_bind {α β : Type} {run : Run α} {next : α → Run β} {b : β}
    (h : (run >>= next).result = .ok b) : ∃ a, run.result = .ok a ∧ (next a).result = .ok b := by
  rw [Run.result_bind] at h
  cases done : run.result with
  | error e =>
    rw [done] at h
    cases h
  | ok a =>
    rw [done] at h
    exact ⟨a, rfl, h⟩

theorem Run.exists_of_map {α β : Type} {run : Run α} {f : α → β} {b : β}
    (h : (f <$> run).result = .ok b) : ∃ a, run.result = .ok a ∧ f a = b := by
  rw [Run.result_map] at h
  cases done : run.result with
  | error e =>
    rw [done] at h
    cases h
  | ok a =>
    rw [done] at h
    exact ⟨a, rfl, Except.ok.inj h⟩

/-! ## What has been read -/

/-- The tokens of an expression, as far as it has been read. -/
def Stage.tokens : Stage O → List Token
  | .operand stack => Grammar.stackTokens stack
  | .operator stack left => Grammar.stackTokens stack ++ left.tokens

/-- The tokens of a statement that may have been begun. -/
def begun : Option (Stage O) → List Token
  | none => []
  | some stage => stage.tokens

/-- More tokens are left, or the input has been read to its end. -/
def Scan.Readable (left : Scan) : Prop :=
  left.tokens = [] → ∃ place, left.ending = .finished place

theorem readable_of_fetch {left : Scan} {depth : Nat} {u : Unit}
    (fetched : (fetch left depth).result = .ok u) : left.Readable := by
  obtain ⟨tokens, ending⟩ := left
  rintro rfl
  cases ending with
  | finished place => exact ⟨place, rfl⟩
  | unknown | repeated | skipping => cases fetched

theorem Scan.Readable.final {left : Scan} (readable : left.Readable)
    (last : left.tokens ≠ [] → ∃ place, left.ending = .finished place) :
    ∃ place, left.ending = .finished place := by
  by_cases none : left.tokens = []
  · exact readable none
  · exact last none

theorem unrolled_of_finished {scan : Scan}
    (final : ∃ place, scan.unrolled.ending = .finished place) :
    scan.unrolled = scan ∧ ∃ place, scan.ending = .finished place := by
  obtain ⟨tokens, ending⟩ := scan
  cases ending with
  | finished place => exact ⟨rfl, place, rfl⟩
  | unknown | repeated | skipping =>
    obtain ⟨place, eq⟩ := final
    cases eq

/-! ## One token -/

namespace Grammar

variable {left : Scan} {stack : List (Frame O)} {tree : Tree O} {token : Token} {stage : Stage O}

theorem start_uses (h : (grammar.start left stack token).result = .ok stage) :
    stage.tokens = stackTokens stack ++ [token] ∧ left.Readable := by
  obtain ⟨_, fetched, h⟩ := Run.exists_of_bind h
  refine ⟨?_, readable_of_fetch fetched⟩
  obtain ⟨_, _, h⟩ := Run.exists_of_bind h
  split at h <;> cases h <;> rfl

theorem follow_uses (h : (grammar.follow left stack tree token).result = .ok stage) :
    stage.tokens = stackTokens stack ++ tree.tokens ++ [token] ∧ left.Readable := by
  obtain ⟨_, fetched, h⟩ := Run.exists_of_bind h
  refine ⟨?_, readable_of_fetch fetched⟩
  obtain ⟨_, _, h⟩ := Run.exists_of_bind h
  split at h <;> cases h <;> simp [Stage.tokens, stackTokens, Tree.tokens]

theorem close_uses {opening : Token} {closing : Nat} {wrap : O → O}
    (h : (grammar.close left stack tree opening closing wrap token).result = .ok stage) :
    stage.tokens = stackTokens (.bracket opening closing wrap :: stack) ++ tree.tokens ++ [token] ∧
      left.Readable := by
  obtain ⟨_, fetched, h⟩ := Run.exists_of_bind h
  refine ⟨?_, readable_of_fetch fetched⟩
  split at h <;> cases h
  simp [Stage.tokens, stackTokens, Tree.tokens]

/-- The outcome has the tokens that were read before it, and the new one if that belongs to it. -/
def Uses (left : Scan) (token : Token) (before : List Token) : Outcome O → Prop
  | .more stage => stage.tokens = before ++ [token] ∧ left.Readable
  | .ended tree => tree.tokens = before

theorem resume_uses {statements : Bool} {outcome : Outcome O}
    (h : (grammar.resume statements left token stack tree).result = .ok outcome) :
    Uses left token (stackTokens stack ++ tree.tokens) outcome := by
  induction stack generalizing tree with
  | nil =>
    rw [resume] at h
    split at h
    · obtain ⟨stage, followed, rfl⟩ := Run.exists_of_map h
      exact follow_uses followed
    · cases h
      rfl
  | cons frame stack ih =>
    unfold resume at h
    split at h
    · obtain ⟨stage, followed, rfl⟩ := Run.exists_of_map h
      exact follow_uses followed
    · cases frame with
      | prefixOp operator power apply => simpa [stackTokens, Tree.tokens] using ih h
      | infixOp operator power combine first => simpa [stackTokens, Tree.tokens] using ih h
      | bracket opening closing wrap =>
        obtain ⟨stage, closed, rfl⟩ := Run.exists_of_map h
        exact close_uses closed

theorem step_uses {statements : Bool} {outcome : Outcome O}
    (h : (grammar.step statements left token stage).result = .ok outcome) :
    Uses left token stage.tokens outcome := by
  cases stage with
  | operand stack =>
    obtain ⟨stage, started, rfl⟩ := Run.exists_of_map h
    exact start_uses started
  | operator stack tree => exact resume_uses h

theorem finishTree_uses {place : Nat} {result : Tree O}
    (h : (grammar.finishTree place stack tree).result = .ok result) :
    result.tokens = stackTokens stack ++ tree.tokens := by
  induction stack generalizing tree with
  | nil =>
    cases h
    rfl
  | cons frame stack ih =>
    cases frame with
    | prefixOp operator power apply => simpa [stackTokens, Tree.tokens] using ih h
    | infixOp operator power combine first => simpa [stackTokens, Tree.tokens] using ih h
    | bracket opening closing wrap => cases h

theorem finish_uses {place : Nat} (h : (grammar.finish place stage).result = .ok tree) :
    tree.tokens = stage.tokens := by
  cases stage with
  | operand stack => cases h
  | operator stack left => exact finishTree_uses h

/-! ## All tokens -/

variable {ending : Ending} {tokens : List Token}

theorem readOne_uses {input : Text}
    (h : (grammar.readOne input ending tokens stage).result = .ok tree) :
    tree.tokens = stage.tokens ++ tokens ∧
      (tokens ≠ [] → ∃ place, ending = .finished place) := by
  induction tokens generalizing stage with
  | nil => exact ⟨by simpa using finish_uses h, fun some => absurd rfl some⟩
  | cons token tokens ih =>
    obtain ⟨outcome, stepped, h⟩ := Run.exists_of_bind h
    have reads := step_uses stepped
    cases outcome with
    | ended tree => cases h
    | more stage =>
      obtain ⟨same, readable⟩ := reads
      obtain ⟨all, last⟩ := ih h
      exact ⟨by simp [all, same], fun _ => readable.final last⟩

/-- The tokens are those of the trees, one after the other, with separators around them. -/
inductive Separates (grammar : Grammar O) : List (Tree O) → List Token → Prop
  | done : Separates grammar [] []
  | separator {trees : List (Tree O)} {tokens : List Token} (token : Token)
    (separates : grammar.isSeparator token.symbol) (rest : Separates grammar trees tokens) :
    Separates grammar trees (token :: tokens)
  | statement {trees : List (Tree O)} {tokens : List Token} (tree : Tree O)
    (rest : Separates grammar trees tokens) :
    Separates grammar (tree :: trees) (tree.tokens ++ tokens)

theorem startNext_uses {next : Option (Stage O)} {trees : List (Tree O)}
    (h : (grammar.startNext left token).result = .ok next)
    (rest : grammar.Separates trees (begun next ++ tokens)) :
    grammar.Separates trees (token :: tokens) ∧ left.Readable := by
  rw [startNext] at h
  split at h
  · rename_i separates
    obtain ⟨_, fetched, h⟩ := Run.exists_of_bind h
    cases h
    exact ⟨.separator token separates rest, readable_of_fetch fetched⟩
  · obtain ⟨stage, started, rfl⟩ := Run.exists_of_map h
    obtain ⟨same, readable⟩ := start_uses started
    refine ⟨?_, readable⟩
    rwa [begun, same] at rest

theorem readAll_uses {next : Option (Stage O)} {trees : List (Tree O)}
    (h : (grammar.readAll ending tokens next).result = .ok trees) :
    grammar.Separates trees (begun next ++ tokens) ∧
      (tokens ≠ [] → ∃ place, ending = .finished place) := by
  induction tokens generalizing next trees with
  | nil =>
    refine ⟨?_, fun some => absurd rfl some⟩
    cases next with
    | none =>
      cases h
      exact .done
    | some stage =>
      obtain ⟨tree, finished, rfl⟩ := Run.exists_of_map h
      rw [begun, ← finish_uses finished]
      exact .statement tree .done
  | cons token tokens ih =>
    cases next with
    | none =>
      obtain ⟨next, started, h⟩ := Run.exists_of_bind h
      obtain ⟨rest, last⟩ := ih h
      obtain ⟨separates, readable⟩ := startNext_uses started rest
      exact ⟨separates, fun _ => readable.final last⟩
    | some stage =>
      obtain ⟨outcome, stepped, h⟩ := Run.exists_of_bind h
      have reads := step_uses stepped
      cases outcome with
      | more stage' =>
        obtain ⟨same, readable⟩ := reads
        obtain ⟨rest, last⟩ := ih h
        refine ⟨?_, fun _ => readable.final last⟩
        simpa [begun, same] using rest
      | ended tree =>
        -- The token that ends a statement separates it from the next one or is the first of that.
        obtain ⟨next, started, h⟩ := Run.exists_of_bind h
        obtain ⟨more, read, rfl⟩ := Run.exists_of_map h
        obtain ⟨rest, last⟩ := ih read
        obtain ⟨separates, readable⟩ := startNext_uses started rest
        refine ⟨?_, fun _ => readable.final last⟩
        rw [begun, ← show tree.tokens = stage.tokens from reads]
        exact .statement tree separates

theorem tokens_of_unrolled {input : Text} {depth : Nat} {u : Unit}
    (fetched : (fetch (grammar.scan input).unrolled depth).result = .ok u)
    (last : (grammar.scan input).unrolled.tokens ≠ [] →
      ∃ place, (grammar.scan input).unrolled.ending = .finished place) :
    grammar.tokens input = .ok (grammar.scan input).unrolled.tokens := by
  obtain ⟨same, place, final⟩ :=
    unrolled_of_finished ((readable_of_fetch fetched).final last)
  rw [same]
  refine tokens_of_scan input _ place ?_
  rw [← final]

theorem parseTree_uses {input : Text} (h : (grammar.parseTree input).result = .ok tree) :
    grammar.tokens input = .ok tree.tokens := by
  obtain ⟨_, fetched, h⟩ := Run.exists_of_bind h
  obtain ⟨all, last⟩ := readOne_uses h
  rw [all]
  exact tokens_of_unrolled fetched last

theorem parseTrees_uses {input : Text} {trees : List (Tree O)}
    (h : (grammar.parseTrees input).result = .ok trees) :
    ∃ tokens, grammar.tokens input = .ok tokens ∧ grammar.Separates trees tokens := by
  obtain ⟨_, fetched, h⟩ := Run.exists_of_bind h
  obtain ⟨separates, last⟩ := readAll_uses h
  exact ⟨_, tokens_of_unrolled fetched last, separates⟩

end Grammar

end OpGrammar
