import OpGrammar.Proofs.Allowed
import OpGrammar.Proofs.Faults

/-!
# The record of a parse

A parse is always one token ahead: it fetches the next token before it does anything with the one at
hand. Where it succeeds, every token has been fetched once and the end of the input after them, and
every token that started or followed an expression has been recorded once, in the order of the input.
Tokens that close brackets or separate statements are only fetched.
-/

namespace OpGrammar

variable {O : Type} {grammar : Grammar O}

/-! ## The parts of an expression -/

/-- What a token is for in its place. -/
inductive Part where
  | starts
  | follows
  | closes
  | separates
  deriving DecidableEq

/-- How the token is recorded when it is used, if it is. -/
def Part.act? : Part → Option Act
  | .starts => some .start
  | .follows => some .follow
  | .closes | .separates => none

/-- The tokens of an expression with what they are for. -/
def Tree.parts : Tree O → List (Part × Token)
  | .operand token _ => [(.starts, token)]
  | .prefixOp token _ _ inner => (.starts, token) :: inner.parts
  | .bracket opening closing _ inner => (.starts, opening) :: inner.parts ++ [(.closes, closing)]
  | .infixOp token _ _ left right => left.parts ++ (.follows, token) :: right.parts
  | .postfixOp token _ inner => inner.parts ++ [(.follows, token)]

theorem Tree.map_snd_parts (tree : Tree O) : tree.parts.map Prod.snd = tree.tokens := by
  induction tree <;> simp [parts, tokens, *]

namespace Grammar

def stackParts : List (Frame O) → List (Part × Token)
  | [] => []
  | .prefixOp token _ _ :: stack => stackParts stack ++ [(.starts, token)]
  | .infixOp token _ _ left :: stack => stackParts stack ++ left.parts ++ [(.follows, token)]
  | .bracket opening _ _ :: stack => stackParts stack ++ [(.starts, opening)]

/-- The parts of a statement that may have been begun. -/
def begunParts : Option (Stage O) → List (Part × Token)
  | none => []
  | some (.operand stack) => stackParts stack
  | some (.operator stack tree) => stackParts stack ++ tree.parts

/-- The parts are those of the trees, one after the other, with separators around them. -/
inductive Divides (grammar : Grammar O) : List (Tree O) → List (Part × Token) → Prop
  | done : Divides grammar [] []
  | separator {trees : List (Tree O)} {parts : List (Part × Token)} (token : Token)
    (separates : grammar.isSeparator token.symbol) (rest : Divides grammar trees parts) :
    Divides grammar trees ((.separates, token) :: parts)
  | statement {trees : List (Tree O)} {parts : List (Part × Token)} (tree : Tree O)
    (rest : Divides grammar trees parts) : Divides grammar (tree :: trees) (tree.parts ++ parts)

end Grammar

/-! ## What is recorded -/

/-- The tokens and the end of the input, as they come to be fetched. -/
def upcoming (left : Scan) : List Sight := left.tokens.map .token ++ [.ending left.ending.place]

def uses (parts : List (Part × Token)) : List (Act × Sight) :=
  parts.filterMap fun part => part.1.act?.map (·, .token part.2)

theorem uses_append (parts more : List (Part × Token)) :
    uses (parts ++ more) = uses parts ++ uses more :=
  List.filterMap_append

/-- The events are those of fetching the given tokens and of using the parts. Of the two kinds, each
is in its order. -/
structure Notes (events : List Event) (fetched : List Sight) (parts : List (Part × Token)) :
    Prop where
  fetched : (events.filter (·.act = .fetch)).map Event.sight = fetched
  used : (events.filter (·.act ≠ .fetch)).map (fun event => (event.act, event.sight)) = uses parts

theorem notes_nil : Notes [] [] [] := ⟨rfl, rfl⟩

theorem Notes.append {events later : List Event} {fetched fetched' : List Sight}
    {parts more : List (Part × Token)} (first : Notes events fetched parts)
    (second : Notes later fetched' more) :
    Notes (events ++ later) (fetched ++ fetched') (parts ++ more) := by
  refine ⟨?_, ?_⟩
  · rw [List.filter_append, List.map_append, first.fetched, second.fetched]
  · rw [List.filter_append, List.map_append, first.used, second.used, uses_append]

theorem notes_start (depth : Nat) (token : Token) :
    Notes [⟨.start, depth, .token token⟩] [] [(.starts, token)] := ⟨rfl, rfl⟩

theorem notes_follow (depth : Nat) (token : Token) :
    Notes [⟨.follow, depth, .token token⟩] [] [(.follows, token)] := ⟨rfl, rfl⟩

theorem notes_silent {part : Part} (silent : part.act? = none) (token : Token) :
    Notes [] [] [(part, token)] :=
  ⟨rfl, by simp [uses, silent]⟩

theorem notes_fetch {left : Scan} {depth : Nat} {u : Unit}
    (fetched : (fetch left depth).result = .ok u) :
    Notes (fetch left depth).events ((upcoming left).take 1) [] := by
  obtain ⟨_ | ⟨token, tokens⟩, ending⟩ := left
  · cases ending with
    | finished place => exact ⟨rfl, rfl⟩
    | unknown | repeated | skipping => cases fetched
  · exact ⟨rfl, rfl⟩

theorem Run.events_of_bind {α β : Type} {run : Run α} {a : α} (ok : run.result = .ok a)
    (next : α → Run β) : (run >>= next).events = run.events ++ (next a).events := by
  obtain ⟨events, result⟩ := run
  subst ok
  rfl

namespace Grammar

variable {left : Scan} {stack : List (Frame O)} {tree : Tree O} {token : Token}
  {stage next : Stage O} {statements : Bool}

/-! ## One token -/

theorem start_notes (taken : (grammar.start left stack token).result = .ok next) :
    begunParts (some next) = stackParts stack ++ [(.starts, token)] ∧
      Notes (grammar.start left stack token).events ((upcoming left).take 1) [(.starts, token)] := by
  unfold start at taken ⊢
  obtain ⟨_, fetched, taken⟩ := Run.exists_of_bind taken
  obtain ⟨_, emitted, taken⟩ := Run.exists_of_bind taken
  rw [Run.events_of_bind fetched, Run.events_of_bind emitted]
  have noted := (notes_fetch fetched).append (notes_start (stack.length + 1) token)
  split at taken <;> cases taken
  all_goals
    refine ⟨rfl, ?_⟩
    simpa [Run.emit] using noted

theorem follow_notes (taken : (grammar.follow left stack tree token).result = .ok next) :
    begunParts (some next) = stackParts stack ++ tree.parts ++ [(.follows, token)] ∧
      Notes (grammar.follow left stack tree token).events ((upcoming left).take 1)
        [(.follows, token)] := by
  unfold follow at taken ⊢
  obtain ⟨_, fetched, taken⟩ := Run.exists_of_bind taken
  obtain ⟨_, emitted, taken⟩ := Run.exists_of_bind taken
  rw [Run.events_of_bind fetched, Run.events_of_bind emitted]
  have noted := (notes_fetch fetched).append (notes_follow (stack.length + 1) token)
  split at taken <;> cases taken
  all_goals
    refine ⟨by simp [begunParts, stackParts, Tree.parts], ?_⟩
    simpa [Run.emit] using noted

theorem close_notes {opening : Token} {closing : Nat} {wrap : O → O}
    (taken : (grammar.close left stack tree opening closing wrap token).result = .ok next) :
    begunParts (some next) =
        stackParts (.bracket opening closing wrap :: stack) ++ tree.parts ++ [(.closes, token)] ∧
      Notes (grammar.close left stack tree opening closing wrap token).events
        ((upcoming left).take 1) [(.closes, token)] := by
  unfold close at taken ⊢
  obtain ⟨_, fetched, taken⟩ := Run.exists_of_bind taken
  rw [Run.events_of_bind fetched]
  have noted := (notes_fetch fetched).append (notes_silent (rfl : Part.closes.act? = none) token)
  split at taken <;> cases taken
  refine ⟨by simp [begunParts, stackParts, Tree.parts], ?_⟩
  rw [if_pos ‹_›]
  simpa using noted

/-- The outcome has the parts from before it, and the token if that belongs to it. A token that does
not leaves no record. -/
def NotesOutcome (left : Scan) (token : Token) (before : List (Part × Token))
    (events : List Event) : Outcome O → Prop
  | .more stage => ∃ part, begunParts (some stage) = before ++ [(part, token)] ∧
    Notes events ((upcoming left).take 1) [(part, token)]
  | .ended tree => tree.parts = before ∧ events = []

theorem resume_notes {outcome : Outcome O}
    (taken : (grammar.resume statements left token stack tree).result = .ok outcome) :
    NotesOutcome left token (stackParts stack ++ tree.parts)
      (grammar.resume statements left token stack tree).events outcome := by
  induction stack, tree using grammar.stack_induction statements token with
  | goesOn stack tree goes =>
    rw [resume_of_goesOn goes] at taken ⊢
    obtain ⟨stage, followed, rfl⟩ := Run.exists_of_map taken
    exact ⟨.follows, follow_notes followed⟩
  | ended tree stays =>
    rw [resume, stays] at taken ⊢
    cases taken
    exact ⟨rfl, rfl⟩
  | prefixOp operator power apply stack tree stays ih =>
    rw [resume, Frame.power, stays] at taken ⊢
    simpa [stackParts, Tree.parts] using ih taken
  | infixOp operator power combine first stack tree stays ih =>
    rw [resume, Frame.power, stays] at taken ⊢
    simpa [stackParts, Tree.parts] using ih taken
  | bracket opening closing wrap stack tree stays =>
    rw [resume, Frame.power, stays] at taken ⊢
    obtain ⟨stage, closed, rfl⟩ := Run.exists_of_map taken
    exact ⟨.closes, close_notes closed⟩

theorem step_notes {outcome : Outcome O}
    (taken : (grammar.step statements left token stage).result = .ok outcome) :
    NotesOutcome left token (begunParts (some stage))
      (grammar.step statements left token stage).events outcome := by
  cases stage with
  | operand stack =>
    obtain ⟨stage, started, rfl⟩ := Run.exists_of_map taken
    exact ⟨.starts, start_notes started⟩
  | operator stack tree => exact resume_notes taken

theorem finish_notes {place : Nat} (taken : (grammar.finish place stage).result = .ok tree) :
    tree.parts = begunParts (some stage) ∧ (grammar.finish place stage).events = [] := by
  cases stage with
  | operand stack => cases taken
  | operator stack left =>
    simp only [finish] at taken ⊢
    induction stack generalizing left with
    | nil =>
      cases taken
      exact ⟨rfl, rfl⟩
    | cons frame stack ih =>
      cases frame with
      | prefixOp operator power apply =>
        rw [finishTree] at taken ⊢
        simpa [begunParts, stackParts, Tree.parts] using ih _ taken
      | infixOp operator power combine first =>
        rw [finishTree] at taken ⊢
        simpa [begunParts, stackParts, Tree.parts] using ih _ taken
      | bracket opening closing wrap => cases taken

/-! ## All tokens -/

variable {tokens : List Token} {ending : Ending}

/-- The first of the tokens left has been fetched before. What is still to be fetched after the token
at hand is all that is upcoming behind it. -/
theorem take_append_drop_upcoming (token : Token) (tokens : List Token) (ending : Ending) :
    (upcoming ⟨tokens, ending⟩).take 1 ++ (upcoming ⟨tokens, ending⟩).drop 1 =
      (upcoming ⟨token :: tokens, ending⟩).drop 1 := by
  rw [List.take_append_drop]
  rfl

theorem readOne_notes {input : Text}
    (taken : (grammar.readOne input ending tokens stage).result = .ok tree) :
    ∃ parts, tree.parts = begunParts (some stage) ++ parts ∧
      Notes (grammar.readOne input ending tokens stage).events
        ((upcoming ⟨tokens, ending⟩).drop 1) parts := by
  induction tokens generalizing stage with
  | nil =>
    obtain ⟨same, nothing⟩ := finish_notes taken
    refine ⟨[], by simpa using same, ?_⟩
    rw [readOne, nothing]
    exact notes_nil
  | cons token tokens ih =>
    rw [readOne] at taken ⊢
    obtain ⟨outcome, stepped, taken⟩ := Run.exists_of_bind taken
    rw [Run.events_of_bind stepped]
    have noted := step_notes stepped
    cases outcome with
    | ended tree' => cases taken
    | more next =>
      obtain ⟨part, same, noted⟩ := noted
      obtain ⟨parts, all, later⟩ := ih taken
      refine ⟨(part, token) :: parts, by simp [all, same], ?_⟩
      rw [← take_append_drop_upcoming]
      exact noted.append later

theorem startNext_notes {begun : Option (Stage O)} {trees : List (Tree O)}
    {parts : List (Part × Token)} (taken : (grammar.startNext left token).result = .ok begun)
    (rest : grammar.Divides trees (begunParts begun ++ parts)) :
    ∃ part, grammar.Divides trees ((part, token) :: parts) ∧
      Notes (grammar.startNext left token).events ((upcoming left).take 1) [(part, token)] := by
  rw [startNext] at taken ⊢
  split at taken
  · rename_i separates
    obtain ⟨_, fetched, taken⟩ := Run.exists_of_bind taken
    cases taken
    rw [if_pos separates, Run.events_of_bind fetched]
    have unused : Part.separates.act? = none := rfl
    have noted := (notes_fetch fetched).append (notes_silent unused token)
    exact ⟨.separates, .separator token separates rest, by simpa using noted⟩
  · rename_i other
    obtain ⟨stage, started, rfl⟩ := Run.exists_of_map taken
    obtain ⟨same, noted⟩ := start_notes started
    rw [if_neg other]
    rw [same] at rest
    exact ⟨.starts, rest, noted⟩

theorem readAll_notes {begun : Option (Stage O)} {trees : List (Tree O)}
    (taken : (grammar.readAll ending tokens begun).result = .ok trees) :
    ∃ parts, parts.map Prod.snd = tokens ∧ grammar.Divides trees (begunParts begun ++ parts) ∧
      Notes (grammar.readAll ending tokens begun).events
        ((upcoming ⟨tokens, ending⟩).drop 1) parts := by
  induction tokens generalizing begun trees with
  | nil =>
    cases begun with
    | none =>
      cases taken
      exact ⟨[], rfl, .done, notes_nil⟩
    | some stage =>
      obtain ⟨tree, finished, rfl⟩ := Run.exists_of_map taken
      obtain ⟨same, nothing⟩ := finish_notes finished
      refine ⟨[], rfl, ?_, ?_⟩
      · rw [← same]
        exact .statement tree .done
      · rw [readAll, Run.map_eq, nothing]
        exact notes_nil
  | cons token tokens ih =>
    cases begun with
    | none =>
      rw [readAll] at taken ⊢
      obtain ⟨begun, started, taken⟩ := Run.exists_of_bind taken
      obtain ⟨parts, all, divides, later⟩ := ih taken
      obtain ⟨part, divides, noted⟩ := startNext_notes started divides
      rw [Run.events_of_bind started, ← take_append_drop_upcoming]
      exact ⟨(part, token) :: parts, by simp [all], divides, noted.append later⟩
    | some stage =>
      rw [readAll] at taken ⊢
      obtain ⟨outcome, stepped, taken⟩ := Run.exists_of_bind taken
      rw [Run.events_of_bind stepped, ← take_append_drop_upcoming]
      have noted := step_notes stepped
      cases outcome with
      | more next =>
        obtain ⟨part, same, noted⟩ := noted
        obtain ⟨parts, all, divides, later⟩ := ih taken
        rw [same] at divides
        exact ⟨(part, token) :: parts, by simp [all], by simpa using divides, noted.append later⟩
      | ended tree =>
        -- The token has left no record where it ended the statement, but does when it is taken up.
        obtain ⟨same, nothing⟩ := noted
        obtain ⟨begun, started, taken⟩ := Run.exists_of_bind taken
        obtain ⟨more, read, rfl⟩ := Run.exists_of_map taken
        obtain ⟨parts, all, divides, later⟩ := ih read
        obtain ⟨part, divides, noted⟩ := startNext_notes started divides
        refine ⟨(part, token) :: parts, by simp [all], same ▸ .statement tree divides, ?_⟩
        rw [nothing, Run.events_of_bind started, Run.map_eq, List.nil_append]
        exact noted.append later

end Grammar

/-! ## Lines -/

/-- The first word of a line, behind the spaces that it is set in by. -/
def wordOf (line : String) : String :=
  .ofList ((line.toList.dropWhile (· == ' ')).takeWhile (· != ' '))

theorem wordOf_print (event : Event) : wordOf event.print = event.act.print := by
  have spaces : ∀ c ∈ List.replicate (2 * event.depth) ' ', (c == ' ') = true := by simp
  unfold wordOf Event.print
  simp only [String.toList_append, String.toList_ofList, List.append_assoc]
  rw [List.dropWhile_append_of_pos spaces]
  cases event.act <;> simp [Act.print]

/-- Each line prints an act with what it is done to, at some depth. -/
def Tells (lines : List String) (told : List (Act × Sight)) : Prop :=
  List.Forall₂ (fun line what => ∃ depth, line = Event.print ⟨what.1, depth, what.2⟩) lines told

theorem tells_print (events : List Event) :
    Tells (events.map Event.print) (events.map fun event => (event.act, event.sight)) := by
  simp only [Tells, List.forall₂_map_left_iff, List.forall₂_map_right_iff, List.forall₂_same]
  exact fun event _ => ⟨event.depth, rfl⟩

/-- The lines that tell of fetching tell of the tokens of all parts and of the end of the input after
them. Those that tell of uses tell of the parts that start or follow an expression. -/
structure Traces (lines : List String) (parts : List (Part × Token)) (last : Nat) : Prop where
  fetched : Tells (lines.filter (wordOf · = "token"))
    (parts.map (fun part => (.fetch, .token part.2)) ++ [(.fetch, .ending last)])
  used : Tells (lines.filter fun line => wordOf line = "nud" ∨ wordOf line = "led") (uses parts)

theorem filter_lines (events : List Event) (word : String → Prop) [DecidablePred word]
    (act : Act → Prop) [DecidablePred act] (same : ∀ a, word a.print ↔ act a) :
    (events.map Event.print).filter (fun line => word (wordOf line)) =
      (events.filter (fun event => act event.act)).map Event.print := by
  rw [List.filter_map]
  refine congrArg _ (List.filter_congr fun event _ => decide_eq_decide.2 ?_)
  show word (wordOf event.print) ↔ act event.act
  rw [wordOf_print, same]

theorem Notes.traces {events : List Event} {scan : Scan} {parts : List (Part × Token)}
    (noted : Notes events (upcoming scan) parts) (same : parts.map Prod.snd = scan.tokens) :
    Traces (events.map Event.print) parts scan.ending.place := by
  have fetches : ∀ act : Act, act.print = "token" ↔ act = .fetch := by rintro (_ | _ | _) <;> decide
  have others : ∀ act : Act, act.print = "nud" ∨ act.print = "led" ↔ act ≠ .fetch := by
    rintro (_ | _ | _) <;> decide
  refine ⟨?_, ?_⟩
  · have told := tells_print (events.filter (·.act = .fetch))
    have named : (events.filter (·.act = .fetch)).map (fun event => (event.act, event.sight)) =
        (upcoming scan).map (.fetch, ·) := by
      rw [← noted.fetched, List.map_map]
      exact List.map_congr_left fun event mem => by simpa using (List.mem_filter.1 mem).2
    rw [named, upcoming, ← same] at told
    rw [filter_lines events (· = "token") (· = .fetch) fetches]
    simpa [Function.comp_def] using told
  · have told := tells_print (events.filter (·.act ≠ .fetch))
    rw [noted.used] at told
    rwa [filter_lines events (fun word => word = "nud" ∨ word = "led") (· ≠ .fetch) others]

namespace Grammar

theorem unrolled_of_tokens {input : Text} {tokens : List Token}
    (divided : grammar.tokens input = .ok tokens) :
    (grammar.scan input).unrolled = ⟨tokens, .finished (Text.byteSize input)⟩ := by
  obtain ⟨place, scanned⟩ := scan_of_tokens input tokens divided
  have ends : (grammar.scan input).unrolled.ending = .finished place := by
    rw [unrolled_ending, scanned]
  have stops : grammar.Stops input (.finished place) := ends_of_unrolled ends
  rw [scanned, Scan.unrolled, stops.finished]

theorem parseTree_traces {input : Text} {tree : Tree O}
    (parsed : (grammar.parseTree input).result = .ok tree) :
    Traces ((grammar.parseTree input).events.map Event.print) tree.parts (Text.byteSize input) := by
  have divided := unrolled_of_tokens (parseTree_uses parsed)
  unfold parseTree at parsed ⊢
  obtain ⟨_, fetched, parsed⟩ := Run.exists_of_bind parsed
  obtain ⟨parts, same, later⟩ := readOne_notes parsed
  have noted := (notes_fetch fetched).append later
  rw [List.take_append_drop, List.nil_append] at noted
  rw [Run.events_of_bind fetched, same]
  have traces := noted.traces (by rw [divided, ← Tree.map_snd_parts, same]; rfl)
  rwa [congrArg (·.ending.place) divided] at traces

theorem parseTrees_traces {input : Text} {trees : List (Tree O)}
    (parsed : (grammar.parseTrees input).result = .ok trees) :
    ∃ parts, grammar.Divides trees parts ∧ grammar.tokens input = .ok (parts.map Prod.snd) ∧
      Traces ((grammar.parseTrees input).events.map Event.print) parts (Text.byteSize input) := by
  obtain ⟨tokens, divided, -⟩ := parseTrees_uses parsed
  have scanned := unrolled_of_tokens divided
  unfold parseTrees at parsed ⊢
  obtain ⟨_, fetched, parsed⟩ := Run.exists_of_bind parsed
  obtain ⟨parts, all, divides, later⟩ := readAll_notes parsed
  have noted := (notes_fetch fetched).append later
  rw [List.take_append_drop, List.nil_append] at noted
  rw [Run.events_of_bind fetched]
  have traces := noted.traces all
  rw [congrArg (·.ending.place) scanned] at traces
  rw [scanned] at all
  exact ⟨parts, divides, all ▸ divided, traces⟩

end Grammar

end OpGrammar
