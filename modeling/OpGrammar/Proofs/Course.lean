import OpGrammar.Proofs.Allowed

/-!
# The course of a parse

A parse takes token by token, whether it succeeds or fails in the end. `Comes` says where it can be
on its way. What `Covers` the single steps, all that they record and the errors in which they fail,
holds of the parse as well.
-/

namespace OpGrammar

variable {O : Type} {grammar : Grammar O}

/-! ## What a run shows -/

/-- All events of the run are of one kind, and so is the error if it fails. -/
structure Run.Shows {α : Type} (event : Event → Prop) (error : ParseError → Prop) (run : Run α) :
    Prop where
  events : ∀ e ∈ run.events, event e
  error : ∀ e, run.result = .error e → error e

namespace Run

variable {α β : Type} {event : Event → Prop} {error : ParseError → Prop}

theorem shows_pure (a : α) : (pure a : Run α).Shows event error :=
  ⟨List.forall_mem_nil _, fun _ failed => nomatch failed⟩

theorem shows_emit {e : Event} (holds : event e) : (emit e).Shows event error :=
  ⟨fun _ mem => List.mem_singleton.1 mem ▸ holds, fun _ failed => nomatch failed⟩

theorem shows_fail {e : ParseError} (holds : error e) : (fail e : Run α).Shows event error :=
  ⟨List.forall_mem_nil _, fun _ failed => Except.error.inj failed ▸ holds⟩

theorem Shows.bind {run : Run α} {next : α → Run β} (first : run.Shows event error)
    (second : ∀ a, run.result = .ok a → (next a).Shows event error) :
    (run >>= next).Shows event error := by
  obtain ⟨events, e | a⟩ := run
  · exact ⟨first.events, fun e' failed => first.error e' (by cases failed; rfl)⟩
  · have later := second a rfl
    rw [ok_bind]
    refine ⟨fun e mem => ?_, later.error⟩
    exact (List.mem_append.1 mem).elim (first.events e) (later.events e)

theorem Shows.map {run : Run α} (first : run.Shows event error) (f : α → β) :
    (f <$> run).Shows event error := by
  obtain ⟨events, e | a⟩ := run
  · exact ⟨first.events, fun e' failed => first.error e' (by cases failed; rfl)⟩
  · exact ⟨first.events, fun e' failed => nomatch failed⟩

end Run

namespace Grammar

variable {statements : Bool} {left : Scan} {stack : List (Frame O)} {tree : Tree O} {token : Token}
  {stage : Stage O} {event : Event → Prop} {error : ParseError → Prop}

/-! ## One token -/

/-- Where the token goes on with an expression: in this stack, after this tree. The operators above
it in the stage have been closed. -/
inductive Follows (grammar : Grammar O) (statements : Bool) (token : Token) :
    Stage O → List (Frame O) → Tree O → Prop
  | here {stack : List (Frame O)} {tree : Tree O}
    (goes : grammar.goesOn statements (stackPower stack) token = true) :
    Follows grammar statements token (.operator stack tree) stack tree
  | prefixOp {operator : Token} {power : Power} {apply : O → O} {stack stack' : List (Frame O)}
    {tree tree' : Tree O} (stays : grammar.goesOn statements power token = false)
    (more : Follows grammar statements token
      (.operator stack (.prefixOp operator power apply tree)) stack' tree') :
    Follows grammar statements token (.operator (.prefixOp operator power apply :: stack) tree)
      stack' tree'
  | infixOp {operator : Token} {power : Power} {combine : O → O → O} {first : Tree O}
    {stack stack' : List (Frame O)} {tree tree' : Tree O}
    (stays : grammar.goesOn statements power token = false)
    (more : Follows grammar statements token
      (.operator stack (.infixOp operator power combine first tree)) stack' tree') :
    Follows grammar statements token
      (.operator (.infixOp operator power combine first :: stack) tree) stack' tree'

theorem Follows.step {stack' : List (Frame O)} {tree' : Tree O}
    (follows : grammar.Follows statements token stage stack' tree') (left : Scan) :
    grammar.step statements left token stage = .more <$> grammar.follow left stack' tree' token := by
  induction follows with
  | here goes => exact resume_of_goesOn goes
  | prefixOp stays _ ih =>
    rw [← ih, Grammar.step, resume.eq_def]
    simp only [Frame.power, stays]
    rfl
  | infixOp stays _ ih =>
    rw [← ih, Grammar.step, resume.eq_def]
    simp only [Frame.power, stays]
    rfl

theorem Follows.lt_power {stack' : List (Frame O)} {tree' : Tree O}
    (follows : grammar.Follows statements token stage stack' tree') :
    stackPower stack' < token.power := by
  induction follows with
  | here goes =>
    simp only [goesOn, Bool.and_eq_true, decide_eq_true_eq] at goes
    exact goes.1
  | prefixOp _ _ ih | infixOp _ _ ih => exact ih

theorem start_shows (fetched : ∀ depth, (fetch left depth).Shows event error)
    (starts : event ⟨.start, stack.length + 1, .token token⟩)
    (idle : grammar.starter? token.symbol = none → error (.startsNothing token.text token.start)) :
    (grammar.start left stack token).Shows event error := by
  unfold start
  refine (fetched _).bind fun _ _ => (Run.shows_emit starts).bind fun _ _ => ?_
  split
  · exact Run.shows_pure _
  · exact Run.shows_pure _
  · exact Run.shows_pure _
  · exact Run.shows_fail (idle ‹_›)

theorem follow_shows (fetched : ∀ depth, (fetch left depth).Shows event error)
    (follows : event ⟨.follow, stack.length + 1, .token token⟩)
    (idle : grammar.follower? token.symbol = none → error (.followsNothing token.text token.start)) :
    (grammar.follow left stack tree token).Shows event error := by
  unfold follow
  refine (fetched _).bind fun _ _ => (Run.shows_emit follows).bind fun _ _ => ?_
  split
  · exact Run.shows_pure _
  · exact Run.shows_pure _
  · exact Run.shows_pure _
  · exact Run.shows_fail (idle ‹_›)

theorem close_shows (fetched : ∀ depth, (fetch left depth).Shows event error) {opening : Token}
    {closing : Nat} {wrap : O → O} (other : token.symbol ≠ closing →
      error (.expected (grammar.patternOf closing) token.text token.start)) :
    (grammar.close left stack tree opening closing wrap token).Shows event error := by
  unfold close
  refine (fetched _).bind fun _ _ => ?_
  split
  · exact Run.shows_pure _
  · exact Run.shows_fail (other ‹_›)

theorem resume_shows (fetched : ∀ depth, (fetch left depth).Shows event error)
    (follows : ∀ stack' tree', grammar.Follows statements token (.operator stack tree) stack' tree' →
      event ⟨.follow, stack'.length + 1, .token token⟩ ∧ (grammar.follower? token.symbol = none →
        error (.followsNothing token.text token.start)))
    (other : ∀ opening closing wrap, .bracket opening closing wrap ∈ stack →
      token.symbol ≠ closing →
        error (.expected (grammar.patternOf closing) token.text token.start)) :
    (grammar.resume statements left token stack tree).Shows event error := by
  induction stack, tree using grammar.stack_induction statements token with
  | goesOn stack tree goes =>
    obtain ⟨event, error⟩ := follows stack tree (.here goes)
    rw [resume_of_goesOn goes]
    exact (follow_shows fetched event error).map _
  | ended tree stays =>
    rw [resume, stays]
    exact Run.shows_pure _
  | prefixOp operator power apply stack tree stays ih =>
    rw [resume, Frame.power, stays]
    refine ih (fun stack' tree' more => follows stack' tree' (.prefixOp stays more)) ?_
    exact fun opening closing wrap mem => other opening closing wrap (.tail _ mem)
  | infixOp operator power combine first stack tree stays ih =>
    rw [resume, Frame.power, stays]
    refine ih (fun stack' tree' more => follows stack' tree' (.infixOp stays more)) ?_
    exact fun opening closing wrap mem => other opening closing wrap (.tail _ mem)
  | bracket opening closing wrap stack tree stays =>
    rw [resume, Frame.power, stays]
    exact (close_shows fetched (other opening closing wrap List.mem_cons_self)).map _

theorem finish_shows {place : Nat}
    (fetched : ∀ depth, event ⟨.fetch, depth, .ending place⟩)
    (started : ∀ depth, event ⟨.start, depth, .ending place⟩) (ends : error (.inputEnds place))
    (open_ : ∀ opening closing wrap, .bracket opening closing wrap ∈ stage.stack →
      error (.expected (grammar.patternOf closing) [] place)) :
    (grammar.finish place stage).Shows event error := by
  cases stage with
  | operand stack =>
    exact (Run.shows_emit (fetched _)).bind fun _ _ => (Run.shows_emit (started _)).bind fun _ _ =>
      Run.shows_fail ends
  | operator stack tree =>
    show (grammar.finishTree place stack tree).Shows event error
    induction stack generalizing tree with
    | nil => exact Run.shows_pure _
    | cons frame stack ih =>
      cases frame with
      | prefixOp operator power apply =>
        exact ih _ fun opening closing wrap mem => open_ opening closing wrap (.tail _ mem)
      | infixOp operator power combine first =>
        exact ih _ fun opening closing wrap mem => open_ opening closing wrap (.tail _ mem)
      | bracket opening closing wrap =>
        exact (Run.shows_emit (fetched _)).bind fun _ _ =>
          Run.shows_fail (open_ opening closing wrap List.mem_cons_self)

/-! ## All tokens -/

/-- Where a parse of the tokens can come to: some tokens are left, and an expression may have been
begun. -/
inductive Comes (grammar : Grammar O) (scan : Scan) :
    Bool → List Token → Option (Stage O) → Prop
  | one (readable : scan.Readable) : Comes grammar scan false scan.tokens (some (.operand []))
  | all (readable : scan.Readable) : Comes grammar scan true scan.tokens none
  | more {statements : Bool} {token : Token} {tokens : List Token} {stage next : Stage O}
    (before : Comes grammar scan statements (token :: tokens) (some stage))
    (taken : (grammar.step statements ⟨tokens, scan.ending⟩ token stage).result =
      .ok (.more next)) : Comes grammar scan statements tokens (some next)
  | ended {token : Token} {tokens : List Token} {stage : Stage O} {tree : Tree O}
    (before : Comes grammar scan true (token :: tokens) (some stage))
    (ended : (grammar.step true ⟨tokens, scan.ending⟩ token stage).result = .ok (.ended tree)) :
    Comes grammar scan true (token :: tokens) none
  | next {token : Token} {tokens : List Token} {next : Option (Stage O)}
    (before : Comes grammar scan true (token :: tokens) none)
    (taken : (grammar.startNext ⟨tokens, scan.ending⟩ token).result = .ok next) :
    Comes grammar scan true tokens next

theorem start_moves {next : Stage O} (taken : (grammar.start left stack token).result = .ok next) :
    ∃ starter, grammar.starter? token.symbol = some starter ∧
      next = .started stack token starter := by
  obtain ⟨_, -, taken⟩ := Run.exists_of_bind taken
  obtain ⟨_, -, taken⟩ := Run.exists_of_bind taken
  split at taken <;> cases taken <;> exact ⟨_, ‹_›, rfl⟩

theorem follow_moves {next : Stage O}
    (taken : (grammar.follow left stack tree token).result = .ok next) :
    ∃ follower, grammar.follower? token.symbol = some follower ∧
      next = .followed stack tree token follower := by
  obtain ⟨_, -, taken⟩ := Run.exists_of_bind taken
  obtain ⟨_, -, taken⟩ := Run.exists_of_bind taken
  split at taken <;> cases taken <;> exact ⟨_, ‹_›, rfl⟩

theorem close_moves {opening : Token} {closing : Nat} {wrap : O → O} {next : Stage O}
    (taken : (grammar.close left stack tree opening closing wrap token).result = .ok next) :
    token.symbol = closing ∧ next = .operator stack (.bracket opening token wrap tree) := by
  obtain ⟨_, -, taken⟩ := Run.exists_of_bind taken
  split at taken <;> cases taken
  exact ⟨‹_›, rfl⟩

theorem step_moves {next : Stage O}
    (taken : (grammar.step statements left token stage).result = .ok (.more next)) :
    grammar.Moves statements token stage next := by
  cases stage with
  | operand stack =>
    obtain ⟨_, taken, ⟨⟩⟩ := Run.exists_of_map taken
    obtain ⟨starter, starts, rfl⟩ := start_moves taken
    exact .start starts
  | operator stack tree =>
    rw [step] at taken
    induction stack, tree using grammar.stack_induction statements token with
    | goesOn stack tree goes =>
      rw [resume_of_goesOn goes] at taken
      obtain ⟨_, taken, ⟨⟩⟩ := Run.exists_of_map taken
      obtain ⟨follower, follows, rfl⟩ := follow_moves taken
      exact .follow goes follows
    | ended tree stays =>
      rw [resume, stays] at taken
      cases taken
    | prefixOp operator power apply stack tree stays ih =>
      rw [resume, Frame.power, stays] at taken
      exact .prefixOp stays (ih taken)
    | infixOp operator power combine first stack tree stays ih =>
      rw [resume, Frame.power, stays] at taken
      exact .infixOp stays (ih taken)
    | bracket opening closing wrap stack tree stays =>
      rw [resume, Frame.power, stays] at taken
      obtain ⟨_, taken, ⟨⟩⟩ := Run.exists_of_map taken
      obtain ⟨rfl, rfl⟩ := close_moves taken
      exact .close stays

theorem startNext_moves {next : Option (Stage O)}
    (taken : (grammar.startNext left token).result = .ok next) :
    left.Readable ∧ ∀ stage ∈ next, grammar.StageFits [token] stage := by
  rw [startNext] at taken
  split at taken
  · obtain ⟨_, fetched, ⟨⟩⟩ := Run.exists_of_bind taken
    exact ⟨readable_of_fetch fetched, by simp⟩
  · obtain ⟨stage, started, rfl⟩ := Run.exists_of_map taken
    refine ⟨(start_uses started).2, fun stage' mem => Option.some.inj mem ▸ ?_⟩
    obtain ⟨starter, starts, rfl⟩ := start_moves started
    have empty : grammar.StackFits [] := trivial
    exact fits_started empty starts

variable {scan : Scan} {tokens : List Token} {next : Option (Stage O)} {input : Text}

theorem Comes.readable (comes : grammar.Comes scan statements tokens next) :
    Scan.Readable ⟨tokens, scan.ending⟩ := by
  cases comes with
  | one readable | all readable => exact readable
  | more _ taken => exact (step_uses taken).2
  | ended => exact fun none => nomatch none
  | next _ taken => exact (startNext_moves taken).1

theorem Comes.finished (comes : grammar.Comes scan statements [] next) :
    ∃ place, scan.ending = .finished place := comes.readable rfl

theorem Comes.fits (comes : grammar.Comes scan statements tokens next) :
    tokens ⊆ scan.tokens ∧
      ∀ stage ∈ next, ∃ read ⊆ scan.tokens, grammar.StageFits read stage := by
  induction comes with
  | one =>
    refine ⟨List.Subset.refl _, fun stage mem => Option.some.inj mem ▸ ?_⟩
    exact ⟨[], List.nil_subset _, trivial, rfl⟩
  | all => exact ⟨List.Subset.refl _, fun _ mem => nomatch mem⟩
  | more _ taken ih =>
    obtain ⟨present, fits⟩ := ih
    obtain ⟨first, rest⟩ := List.cons_subset.1 present
    obtain ⟨read, sub, fits⟩ := fits _ rfl
    refine ⟨rest, fun stage mem => Option.some.inj mem ▸ ?_⟩
    refine ⟨_, List.append_subset.2 ⟨sub, ?_⟩, (step_moves taken).fits fits⟩
    simpa using first
  | ended _ _ ih => exact ⟨ih.1, fun _ mem => nomatch mem⟩
  | next _ taken ih =>
    obtain ⟨first, rest⟩ := List.cons_subset.1 ih.1
    refine ⟨rest, fun stage mem => ⟨_, ?_, (startNext_moves taken).2 stage mem⟩⟩
    simpa using first

theorem StackFits.bracket (fits : grammar.StackFits stack) {opening : Token} {closing : Nat}
    {wrap : O → O} (mem : .bracket opening closing wrap ∈ stack) :
    opening ∈ stackTokens stack ∧
      grammar.starter? opening.symbol = some (.bracket closing wrap) := by
  induction stack with
  | nil => cases mem
  | cons frame stack ih =>
    cases mem with
    | head => exact ⟨by simp [stackTokens], fits.1⟩
    | tail _ mem =>
      have below : grammar.StackFits stack := by cases frame <;> exact fits.2
      obtain ⟨read, starts⟩ := ih below mem
      refine ⟨?_, starts⟩
      cases frame <;> simp [stackTokens, read]

theorem StageFits.bracket {read : List Token} (fits : grammar.StageFits read stage)
    {opening : Token} {closing : Nat} {wrap : O → O}
    (mem : .bracket opening closing wrap ∈ stage.stack) :
    opening ∈ read ∧ grammar.starter? opening.symbol = some (.bracket closing wrap) := by
  cases stage with
  | operand stack =>
    obtain ⟨fits, rfl⟩ := fits
    exact StackFits.bracket fits mem
  | operator stack tree =>
    obtain ⟨fits, -, -, rfl⟩ := fits
    exact (StackFits.bracket fits mem).imp_left (List.mem_append_left _)

theorem Comes.bracket (comes : grammar.Comes scan statements tokens (some stage)) {opening : Token}
    {closing : Nat} {wrap : O → O} (mem : .bracket opening closing wrap ∈ stage.stack) :
    opening ∈ scan.tokens ∧ grammar.starter? opening.symbol = some (.bracket closing wrap) := by
  obtain ⟨read, sub, fits⟩ := comes.fits.2 stage rfl
  exact (StageFits.bracket fits mem).imp_left fun opened => sub opened

/-- The two hold of all that a parse of the tokens can record, and of all errors in which it can
fail. -/
structure Covers (grammar : Grammar O) (input : Text) (scan : Scan) (event : Event → Prop)
    (error : ParseError → Prop) : Prop where
  fetch : ∀ depth sight, event ⟨.fetch, depth, sight⟩
  start : ∀ depth sight, event ⟨.start, depth, sight⟩
  follow : ∀ statements token tokens stage stack tree,
    grammar.Comes scan statements (token :: tokens) (some stage) →
    grammar.Follows statements token stage stack tree →
      event ⟨.follow, stack.length + 1, .token token⟩
  unknown : ∀ place rest, scan.ending = .unknown place rest → error (.unknownText place rest)
  repeated : ∀ token, scan.ending = .repeated token → error (.noProgress token.start)
  skipping : ∀ place, scan.ending = .skipping place → error (.noProgress place)
  inputEnds : ∀ place, scan.ending = .finished place → error (.inputEnds place)
  startsNothing : ∀ token ∈ scan.tokens, grammar.starter? token.symbol = none →
    error (.startsNothing token.text token.start)
  followsNothing : ∀ token ∈ scan.tokens, grammar.follower? token.symbol = none →
    error (.followsNothing token.text token.start)
  inputLeft : ∀ token ∈ scan.tokens,
    error (.inputLeft token.start (input.dropBytes token.start))
  other : ∀ opening ∈ scan.tokens, ∀ closing wrap,
    grammar.starter? opening.symbol = some (.bracket closing wrap) →
    ∀ token ∈ scan.tokens, token.symbol ≠ closing →
      error (.expected (grammar.patternOf closing) token.text token.start)
  unclosed : ∀ opening ∈ scan.tokens, ∀ closing wrap,
    grammar.starter? opening.symbol = some (.bracket closing wrap) →
    ∀ place, scan.ending = .finished place →
      error (.expected (grammar.patternOf closing) [] place)

namespace Covers

variable (covers : grammar.Covers input scan event error)

include covers

theorem fetch_shows (tokens : List Token) (depth : Nat) :
    (OpGrammar.fetch ⟨tokens, scan.ending⟩ depth).Shows event error := by
  cases tokens with
  | cons token tokens => exact Run.shows_emit (covers.fetch _ _)
  | nil =>
    cases ends : scan.ending with
    | finished place => exact Run.shows_emit (covers.fetch _ _)
    | unknown place rest => exact Run.shows_fail (covers.unknown _ _ ends)
    | repeated token => exact Run.shows_fail (covers.repeated _ ends)
    | skipping place => exact Run.shows_fail (covers.skipping _ ends)

theorem step_shows (comes : grammar.Comes scan statements (token :: tokens) (some stage)) :
    (grammar.step statements ⟨tokens, scan.ending⟩ token stage).Shows event error := by
  have present : token ∈ scan.tokens := comes.fits.1 List.mem_cons_self
  cases stage with
  | operand stack =>
    exact (start_shows (covers.fetch_shows tokens) (covers.start _ _)
      (covers.startsNothing token present)).map _
  | operator stack tree =>
    refine resume_shows (covers.fetch_shows tokens) (fun stack' tree' follows => ?_) ?_
    · exact ⟨covers.follow _ _ _ _ _ _ comes follows, covers.followsNothing token present⟩
    · intro opening closing wrap mem differs
      obtain ⟨opened, starts⟩ := comes.bracket mem
      exact covers.other opening opened closing wrap starts token present differs

theorem startNext_shows (comes : grammar.Comes scan statements (token :: tokens) none) :
    (grammar.startNext ⟨tokens, scan.ending⟩ token).Shows event error := by
  rw [startNext]
  split
  · exact (covers.fetch_shows tokens 0).bind fun _ _ => Run.shows_pure _
  · exact (start_shows (covers.fetch_shows tokens) (covers.start _ _)
      (covers.startsNothing token (comes.fits.1 List.mem_cons_self))).map _

theorem finish_shows (comes : grammar.Comes scan statements [] (some stage)) :
    (grammar.finish scan.ending.place stage).Shows event error := by
  obtain ⟨place, ends⟩ := comes.finished
  rw [ends]
  refine Grammar.finish_shows (fun _ => covers.fetch _ _) (fun _ => covers.start _ _)
    (covers.inputEnds place ends) fun opening closing wrap mem => ?_
  obtain ⟨opened, starts⟩ := comes.bracket mem
  exact covers.unclosed opening opened closing wrap starts place ends

theorem readOne_shows (comes : grammar.Comes scan false tokens (some stage)) :
    (grammar.readOne input scan.ending tokens stage).Shows event error := by
  induction tokens generalizing stage with
  | nil => exact covers.finish_shows comes
  | cons token tokens ih =>
    refine (covers.step_shows comes).bind fun outcome taken => ?_
    cases outcome with
    | more next => exact ih (.more comes taken)
    | ended tree =>
      exact Run.shows_fail (covers.inputLeft token (comes.fits.1 List.mem_cons_self))

theorem readAll_shows (comes : grammar.Comes scan true tokens next) :
    (grammar.readAll scan.ending tokens next).Shows event error := by
  induction tokens generalizing next with
  | nil =>
    cases next with
    | none => exact Run.shows_pure _
    | some stage => exact (covers.finish_shows comes).map _
  | cons token tokens ih =>
    cases next with
    | none =>
      exact (covers.startNext_shows comes).bind fun next taken => ih (.next comes taken)
    | some stage =>
      refine (covers.step_shows comes).bind fun outcome taken => ?_
      cases outcome with
      | more next => exact ih (.more comes taken)
      | ended tree =>
        have between : grammar.Comes scan true (token :: tokens) none := .ended comes taken
        exact (covers.startNext_shows between).bind fun next taken =>
          (ih (.next between taken)).map _

end Covers

/-- What covers the tokens of an input holds of its parse, whatever comes of it. -/
theorem Covers.parse_shows
    (covers : grammar.Covers input (grammar.scan input).unrolled event error) :
    (grammar.parse input).Shows event error := by
  refine Run.Shows.map ((covers.fetch_shows _ 0).bind fun _ fetched => ?_) _
  exact covers.readOne_shows (.one (readable_of_fetch fetched))

theorem Covers.parseAll_shows
    (covers : grammar.Covers input (grammar.scan input).unrolled event error) :
    (grammar.parseAll input).Shows event error := by
  refine Run.Shows.map ((covers.fetch_shows _ 0).bind fun _ fetched => ?_) _
  exact covers.readAll_shows (.all (readable_of_fetch fetched))

end Grammar

end OpGrammar
