import OpGrammar.Proofs.Course
import OpGrammar.Proofs.Symbols
import OpGrammar.Proofs.Tiling

/-!
# Where errors point

Tokens are called for one after the other, each where the one before it stops. An error of a parse is
about a token that such a call gives, or about the place where no more are given, and it shows what
the input has there.
-/

namespace OpGrammar

variable {O : Type} {grammar : Grammar O}

/-- At a place, which counts bytes, the input goes on with a text to its end. -/
def Text.At (input : Text) (place : Nat) (rest : Text) : Prop :=
  ∃ before, input = before ++ rest ∧ place = Text.byteSize before

theorem Text.At.append {input text rest : Text} {place : Nat} (here : input.At place (text ++ rest)) :
    input.At (place + Text.byteSize text) rest := by
  obtain ⟨before, rfl, rfl⟩ := here
  exact ⟨before ++ text, by simp, by simp⟩

theorem Text.At.dropBytes {input rest : Text} {place : Nat} (here : input.At place rest) :
    input.dropBytes place = rest := by
  obtain ⟨before, rfl, rfl⟩ := here
  exact Text.dropBytes_byteSize_append before rest

theorem Text.At.ends {input : Text} {place : Nat} (here : input.At place []) :
    place = Text.byteSize input := by
  obtain ⟨before, rfl, rfl⟩ := here
  rw [List.append_nil]

namespace Grammar

variable {input text rest : Text} {place : Nat} {token : Token}

/-! ## Calls for tokens -/

/-- A call for the next token is made here: at the start of the input, and after each token. -/
inductive Calls (grammar : Grammar O) (input : Text) : Nat → Text → Prop
  | first : Calls grammar input 0 input
  | after {place : Nat} {text rest : Text} {token : Token} (call : Calls grammar input place text)
    (given : grammar.nextToken place text = .token token rest) :
    Calls grammar input token.stop rest

/-- A call gives the token with the text after it. -/
def Gives (grammar : Grammar O) (input : Text) (token : Token) (rest : Text) : Prop :=
  ∃ place text, grammar.Calls input place text ∧
    grammar.nextToken place text = .token token rest

/-- A call gives no token. -/
def Stops (grammar : Grammar O) (input : Text) (ending : Ending) : Prop :=
  ∃ place text, grammar.Calls input place text ∧ grammar.nextToken place text = .ending ending

theorem given_at (here : input.At place text)
    (given : grammar.nextToken place text = .token token rest) :
    input.At token.start (token.text ++ rest) ∧ input.At token.stop rest := by
  obtain ⟨gap, rfl, -, start, stands⟩ := nextToken_eq_token_iff.1 given
  have found : input.At token.start (token.text ++ rest) := start ▸ here.append
  exact ⟨found, stands.stop ▸ found.append⟩

theorem Calls.at (call : grammar.Calls input place text) : input.At place text := by
  induction call with
  | first => exact ⟨[], rfl, rfl⟩
  | after _ given ih => exact (given_at ih given).2

theorem Gives.at (gives : grammar.Gives input token rest) :
    input.At token.start (token.text ++ rest) := by
  obtain ⟨place, text, call, given⟩ := gives
  exact (given_at call.at given).1

theorem Stops.at {ending : Ending} (stops : grammar.Stops input ending) :
    ∃ rest, input.At ending.place rest ∧ grammar.Meets ending.place rest (.ending ending) := by
  obtain ⟨place, text, call, given⟩ := stops
  obtain ⟨gap, rest, rfl, -, meets⟩ := nextToken_eq_iff.1 given
  have here := call.at.append
  cases meets with
  | finished => exact ⟨[], here, .finished⟩
  | unknown visible unmatched => exact ⟨rest, here, .unknown visible unmatched⟩
  | skipping visible matched empty ignored =>
    exact ⟨rest, here, .skipping visible matched empty ignored⟩

theorem Stops.finished (stops : grammar.Stops input (.finished place)) :
    place = Text.byteSize input := by
  obtain ⟨rest, here, meets⟩ := stops.at
  cases meets
  exact here.ends

theorem Stops.unknown (stops : grammar.Stops input (.unknown place rest)) :
    input.At place rest ∧ rest.Visible ∧ grammar.lexicon.longest? rest = none := by
  obtain ⟨_, here, meets⟩ := stops.at
  cases meets with
  | unknown visible unmatched => exact ⟨here, visible, unmatched⟩

/-! ## The tokens of an input -/

/-- The calls come to this ending: one gives no token, or one that reads nothing and comes again. -/
def Ends (grammar : Grammar O) (input : Text) : Ending → Prop
  | .repeated token => token.text = [] ∧ ∃ rest, grammar.Gives input token rest
  | ending => grammar.Stops input ending

theorem Stops.ends {ending : Ending} (stops : grammar.Stops input ending) :
    grammar.Ends input ending := by
  cases ending with
  | finished | unknown | skipping => exact stops
  | repeated token =>
    obtain ⟨place, text, -, given⟩ := stops
    exact absurd given (nextToken_ne_repeated place text token)

theorem Calls.scan (call : grammar.Calls input place text) :
    (∀ token ∈ (grammar.scanFrom place text).tokens, ∃ rest, grammar.Gives input token rest) ∧
      grammar.Ends input (grammar.scanFrom place text).ending := by
  fun_induction grammar.scanFrom place text with
  | case1 place text ending given =>
    have stops : grammar.Stops input ending := ⟨place, text, call, given⟩
    exact ⟨List.forall_mem_nil _, stops.ends⟩
  | case2 place text token rest given empty =>
    exact ⟨List.forall_mem_nil _, empty, rest, place, text, call, given⟩
  | case3 place text token rest given some scan ih =>
    obtain ⟨tokens, ends⟩ := ih (.after call given)
    exact ⟨List.forall_mem_cons.2 ⟨⟨rest, place, text, call, given⟩, tokens⟩, ends⟩

theorem mem_unrolled {scan : Scan} (mem : token ∈ scan.unrolled.tokens) :
    token ∈ scan.tokens ∨ scan.ending = .repeated token := by
  unfold Scan.unrolled at mem
  split at mem
  · rename_i again ends
    refine (List.mem_append.1 mem).imp_right fun mem => ?_
    rw [ends, (List.mem_replicate.1 mem).2]
  · exact .inl mem

theorem unrolled_ending (scan : Scan) : scan.unrolled.ending = scan.ending := by
  unfold Scan.unrolled
  split <;> rfl

theorem gives_of_unrolled (mem : token ∈ (grammar.scan input).unrolled.tokens) :
    ∃ rest, grammar.Gives input token rest := by
  obtain ⟨tokens, ends⟩ := Calls.scan (.first : grammar.Calls input 0 input)
  rcases mem_unrolled mem with mem | again
  · exact tokens token mem
  · exact (again ▸ ends : grammar.Ends input (.repeated token)).2

theorem ends_of_unrolled {ending : Ending}
    (ends : (grammar.scan input).unrolled.ending = ending) : grammar.Ends input ending := by
  rw [unrolled_ending] at ends
  exact ends ▸ (Calls.scan .first).2

/-! ## Errors -/

/-- The error is about a token or a place of the input that is as the error says, and what it shows
stands there. -/
def PointsAt (grammar : Grammar O) (input : Text) : ParseError → Prop
  | .unknownText place rest =>
    input.At place rest ∧ rest.Visible ∧ grammar.lexicon.longest? rest = none
  | .startsNothing text place => ∃ token rest, grammar.Gives input token rest ∧
    token.text = text ∧ token.start = place ∧ grammar.starter? token.symbol = none
  | .followsNothing text place => ∃ token rest, grammar.Gives input token rest ∧
    token.text = text ∧ token.start = place ∧ grammar.follower? token.symbol = none
  | .inputEnds place =>
    place = Text.byteSize input ∧ grammar.Stops input (.finished place)
  | .inputLeft place left => input.At place left ∧ ∃ token rest,
    grammar.Gives input token rest ∧ token.start = place ∧ left = token.text ++ rest
  | .noProgress place => grammar.Stops input (.skipping place) ∨ ∃ token rest,
    grammar.Gives input token rest ∧ token.text = [] ∧ token.start = place
  | .expected pattern found place => ∃ opening rest closing wrap,
    grammar.Gives input opening rest ∧
    grammar.starter? opening.symbol = some (.bracket closing wrap) ∧
    pattern = grammar.patternOf closing ∧
    ((found = [] ∧ place = Text.byteSize input ∧ grammar.Stops input (.finished place)) ∨
      ∃ token rest, grammar.Gives input token rest ∧ token.text = found ∧ token.start = place ∧
        token.symbol ≠ closing)

theorem covers_pointsAt (grammar : Grammar O) (input : Text) :
    grammar.Covers input (grammar.scan input).unrolled (fun _ => True) (grammar.PointsAt input) where
  fetch _ _ := trivial
  start _ _ := trivial
  follow _ _ _ _ _ _ _ _ := trivial
  unknown place rest ends := Stops.unknown (ends_of_unrolled ends)
  repeated token ends := by
    obtain ⟨empty, rest, gives⟩ := ends_of_unrolled ends
    exact .inr ⟨token, rest, gives, empty, rfl⟩
  skipping place ends := .inl (ends_of_unrolled ends)
  inputEnds place ends := by
    have stops : grammar.Stops input (.finished place) := ends_of_unrolled ends
    exact ⟨stops.finished, stops⟩
  startsNothing token mem none := by
    obtain ⟨rest, gives⟩ := gives_of_unrolled mem
    exact ⟨token, rest, gives, rfl, rfl, none⟩
  followsNothing token mem none := by
    obtain ⟨rest, gives⟩ := gives_of_unrolled mem
    exact ⟨token, rest, gives, rfl, rfl, none⟩
  inputLeft token mem := by
    obtain ⟨rest, gives⟩ := gives_of_unrolled mem
    rw [gives.at.dropBytes]
    exact ⟨gives.at, token, rest, gives, rfl, rfl⟩
  other opening opened closing wrap starts token mem differs := by
    obtain ⟨rest, gives⟩ := gives_of_unrolled opened
    obtain ⟨rest', gives'⟩ := gives_of_unrolled mem
    exact ⟨opening, rest, closing, wrap, gives, starts, rfl,
      .inr ⟨token, rest', gives', rfl, rfl, differs⟩⟩
  unclosed opening opened closing wrap starts place ends := by
    obtain ⟨rest, gives⟩ := gives_of_unrolled opened
    have stops : grammar.Stops input (.finished place) := ends_of_unrolled ends
    exact ⟨opening, rest, closing, wrap, gives, starts, rfl, .inl ⟨rfl, stops.finished, stops⟩⟩

/-- Every error of a parse points at the token or the place that it is about. -/
theorem errors_point (grammar : Grammar O) (input : Text) (e : ParseError)
    (failed : (grammar.parse input).result = .error e ∨
      (grammar.parseAll input).result = .error e) : grammar.PointsAt input e := by
  have covers := covers_pointsAt grammar input
  exact failed.elim (covers.parse_shows.error e) (covers.parseAll_shows.error e)

/-- The dot takes two bytes. One input ends in a bracket, another goes on behind a comment with a
token that does not close it, and a statement stands before unknown text. -/
theorem errors_point_brackets :
    let grammar : Grammar Text := ofRules [.operand "[0-9]".toList id,
      .infixLeft "·".toList 20 (· ++ ·), .brackets "\\(".toList "\\)".toList id,
      .ignored "#[a-z]*;".toList]
    grammar.PointsAt " (1·2 ".toList (.expected "\\)".toList [] 7) ∧
      grammar.PointsAt "(1·2#xy; 3".toList (.expected "\\)".toList ['3'] 10) ∧
      grammar.PointsAt "1 2 ?".toList (.unknownText 4 ['?']) := by
  intro grammar
  have ends : (grammar.parse " (1·2 ".toList).result = .error (.expected "\\)".toList [] 7) := by
    decide +kernel
  have other : (grammar.parse "(1·2#xy; 3".toList).result =
      .error (.expected "\\)".toList ['3'] 10) := by
    decide +kernel
  have unknown : (grammar.parseAll "1 2 ?".toList).result = .error (.unknownText 4 ['?']) := by
    decide +kernel
  exact ⟨errors_point grammar _ _ (.inl ends), errors_point grammar _ _ (.inl other),
    errors_point grammar _ _ (.inr unknown)⟩

end Grammar

end OpGrammar
