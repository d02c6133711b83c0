import OpGrammar.Formula
import OpGrammar.Proofs.Boundaries
import OpGrammar.Proofs.Spellings
import OpGrammar.Proofs.Taken

/-!
# The words of formulas

What a word of a formula stands for can be read off the word alone: `images` lists the words that
do not stand for themselves. The lexicon of formulas is looked through for words that a rule makes
something else of, and there are none.
-/

namespace OpGrammar.Formula

/-! ## Raised characters -/

def lowered? : Char → Option Char
  | '⁰' => some '0'
  | '¹' => some '1'
  | '²' => some '2'
  | '³' => some '3'
  | '⁴' => some '4'
  | '⁵' => some '5'
  | '⁶' => some '6'
  | '⁷' => some '7'
  | '⁸' => some '8'
  | '⁹' => some '9'
  | '⁺' => some '+'
  | '⁻' => some '−'
  | '⁼' => some '='
  | 'ⁱ' => some 'i'
  | 'ⁿ' => some 'n'
  | _ => none

theorem lowered?_eq_some {c d : Char} : lowered? c = some d ↔ raised? d = some c := by
  constructor
  · intro h
    unfold lowered? at h
    split at h <;> cases h <;> rfl
  · intro h
    unfold raised? at h
    split at h <;> cases h <;> rfl

def isPlain (c : Char) : Bool := !isBlank c && (lowered? c).isNone

/-! ## Words -/

/-- The words that do not stand for themselves. One name of a letter has two spellings, which are
listed below the tables. -/
def images : List (String × String) :=
  greekLetters ++ relations ++
    [("eps", "ε"), ("epsilon", "ε"), ("oo", "∞"), ("inf", "∞"), ("infinity", "∞"), ("-", "−"),
      ("*", "⋅"), ("**", "∗"), ("//", "/")]

def image (word : Text) : Text :=
  ((images.find? (·.1.toList == word)).map (·.2.toList)).getD word

/-- What the rules put for the words of some patterns. -/
def signs : List (String × String) :=
  greekLetters ++ relations ++
    [("oo|inf(inity)?", "∞"), ("+", "+"), ("-", "−"), ("\\*", "⋅"), ("\\*\\*", "∗"), ("/", "/"),
      ("//", "/"), ("^", "^"), ("!", "!"), ("\\(", "("), ("\\)", ")")]

def sign (pattern word : Text) : Text :=
  ((signs.find? (·.1.toList == pattern)).map (·.2.toList)).getD word

/-! ## Words of the lexicon -/

def number : Text := "\x7bDIGIT\x7d+(.\x7bDIGIT\x7d+)?".toList

/-- Whether the word stands for what the rules put for it. -/
def isSpelling (pattern word : Text) : Bool := !word.isEmpty && image word == sign pattern word

/-- The word is plain and stands for what the rules put for it. -/
structure Spelling (pattern word : Text) : Prop where
  nonempty : word ≠ []
  plain : ∀ c ∈ word, isPlain c
  image_eq : image word = sign pattern word

def startsNumber (word : Text) : Bool := word.head?.any fun c => '0' ≤ c && c ≤ '9'

theorem image_of_startsNumber {word : Text} (starts : startsNumber word) : image word = word := by
  have other : ∀ pair ∈ images, startsNumber pair.1.toList = false := by decide +kernel
  have none : images.find? (·.1.toList == word) = none := by
    refine List.find?_eq_none.2 fun pair mem same => ?_
    have starts' := other pair mem
    rw [beq_iff_eq.1 same, starts] at starts'
    cases starts'
  simp [image, none]

/-- Whether all words in the lexicon of a grammar pass. Numbers are not followed to their ends. -/
def tested (grammar : Grammar Text) : Bool :=
  let { graph, .. } := grammar.lexicon
  let isNumber (id : Nat) : Bool := grammar.patternOf id == number
  graph.crisp isPlain && decide (graph.Settles isNumber) &&
    graph.passes 20 isNumber startsNumber (fun word id => isSpelling (grammar.patternOf id) word)
      0 []

section Tested

-- Not the grammar of formulas: it would be made again for each of the steps.
variable {grammar : Grammar Text}

theorem crisp_of_tested (test : tested grammar) : grammar.lexicon.graph.Crisp isPlain := by
  simp only [tested, Bool.and_eq_true] at test
  exact Graph.crisp_sound test.1.1

theorem spelling_of_tested (test : tested grammar) {text : Text} {found : Match Nat}
    (matched : grammar.lexicon.longest? text = some found) :
    Spelling (grammar.patternOf found.value) found.text := by
  have plain := Lexicon.reads_of_crisp (crisp_of_tested test) matched
  simp only [tested, Bool.and_eq_true, decide_eq_true_eq] at test
  obtain ⟨found, walked, rfl⟩ := Option.map_eq_some_iff.1 matched
  rcases Graph.passes_sound 20 test.1.2 test.2 walked with word | ⟨settled, first, part, starts⟩
  · simp only [isSpelling, List.nil_append, Bool.and_eq_true, Bool.not_eq_true', beq_iff_eq,
      List.isEmpty_eq_false_iff] at word
    exact ⟨word.1, plain, word.2⟩
  · have pattern : grammar.patternOf found.value = number := by simpa using settled
    have unsigned : signs.find? (·.1.toList == number) = none := by decide +kernel
    obtain ⟨c, first, rfl⟩ : ∃ c rest, first = c :: rest := by
      cases first with
      | nil => cases starts
      | cons c rest => exact ⟨c, rest, rfl⟩
    obtain ⟨rest, whole⟩ := part
    have whole : (found.toMatch text).text = c :: (first ++ rest) := whole.symm
    refine ⟨by simp [whole], plain, ?_⟩
    rw [image_of_startsNumber (by rw [whole]; exact starts)]
    simp [sign, Found.toMatch, pattern, unsigned]

end Tested

theorem taken_and_tested :
    Grammar.addAll (operandRules ++ operatorRules) .empty = .ok () grammar ∧ tested grammar := by
  have test : (match Grammar.addAll (operandRules ++ operatorRules) .empty with
      | .ok _ grammar => tested grammar
      | .error _ _ => false) = true := by
    decide +kernel
  cases taken : Grammar.addAll (operandRules ++ operatorRules) (.empty : Grammar Text) with
  | ok _ left =>
    rw [taken] at test
    obtain rfl : left = grammar := Grammar.eq_ofRules taken
    exact ⟨rfl, test⟩
  | error e left =>
    rw [taken] at test
    cases test

/-! ## Uses of the symbols -/

def signOf (id : Nat) (word : Text) : Text := sign (grammar.patternOf id) word

/-- The use of a symbol puts the sign for a word, and nothing but that and spaces, except that an
exponent may be raised instead. An operator that is grouped to the left binds less tight than that
of powers. -/
def Draws (id : Nat) : Use Text → Prop
  | .starter (.operand make) => ∀ word, make word = signOf id word
  | .starter (.prefixOp _ apply) => ∀ word inner, apply inner = signOf id word ++ inner
  | .starter (.bracket closing wrap) =>
    ∀ word word' inner, wrap inner = signOf id word ++ inner ++ signOf closing word'
  | .follower (.infixLeft power combine) =>
    power < 30 ∧ ∃ gap : Text, (∀ c ∈ gap, c = ' ') ∧
      ∀ word left right, combine left right = left ++ (gap ++ signOf id word ++ (gap ++ right))
  | .follower (.infixRight power combine) =>
    power = 30 ∧ combine = Formula.power ∧ ∀ word, signOf id word = ['^']
  | .follower (.postfixOp _ apply) => ∀ word inner, apply inner = inner ++ signOf id word
  | .aside _ => False

section Draws

variable {id : Nat} {power : Power} {rule : Rule Text} {use : Use Text}

theorem signOf_of_mem (name sign : String) (mem : (name, sign) ∈ signs)
    (pattern : grammar.patternOf id = name.toList) (word : Text) :
    signOf id word = sign.toList := by
  have first : ∀ pair ∈ signs, signs.find? (·.1.toList == pair.1.toList) = some pair := by
    decide +kernel
  simp [signOf, Formula.sign, pattern, first _ mem]

theorem draws_of_letter (name sign : String) (mem : (name, sign) ∈ signs)
    (puts : (Rule.operand name.toList fun _ => sign.toList).Puts grammar.symbolId?
      (grammar.patternOf id) use) : Draws id use := by
  obtain ⟨pattern, rfl⟩ := (Rule.puts_of_use? rfl _ _).1 puts
  exact fun word => (signOf_of_mem name sign mem pattern word).symm

theorem draws_of_word {pattern : Text} (unsigned : signs.find? (·.1.toList == pattern) = none)
    (puts : (Rule.operand pattern fun word => word).Puts grammar.symbolId? (grammar.patternOf id)
      use) : Draws id use := by
  obtain ⟨rfl, rfl⟩ := (Rule.puts_of_use? rfl _ _).1 puts
  intro word
  simp [signOf, Formula.sign, unsigned]

theorem draws_of_spaced (name sign : String) (mem : (name, sign) ∈ signs) (lt : power < 30)
    (puts : (Rule.infixLeft name.toList power (spaced sign)).Puts grammar.symbolId?
      (grammar.patternOf id) use) : Draws id use := by
  obtain ⟨pattern, rfl⟩ := (Rule.puts_of_use? rfl _ _).1 puts
  refine ⟨lt, [' '], by simp, fun word left right => ?_⟩
  simp [signOf_of_mem name sign mem pattern, spaced]

theorem draws_of_operand (mem : rule ∈ operandRules)
    (puts : rule.Puts grammar.symbolId? (grammar.patternOf id) use) : Draws id use := by
  simp only [operandRules, List.mem_append, List.mem_map, List.mem_cons, List.not_mem_nil,
    or_false] at mem
  rcases mem with ⟨⟨name, letter⟩, mem, rfl⟩ | rfl | rfl | rfl | rfl
  · have mem : (name, letter) ∈ signs := List.mem_append_left _ (List.mem_append_left _ mem)
    exact draws_of_letter name letter mem puts
  · rcases puts with uses | ⟨_, _, _, eq, -⟩
    · cases uses
    · cases eq
  · exact draws_of_word (by decide +kernel) puts
  · exact draws_of_word (by decide +kernel) puts
  · exact draws_of_letter "oo|inf(inity)?" "∞" (by simp [signs]) puts

theorem draws_of_operator (mem : rule ∈ operatorRules)
    (puts : rule.Puts grammar.symbolId? (grammar.patternOf id) use) : Draws id use := by
  simp only [operatorRules, List.mem_append, List.mem_map, List.mem_cons, List.not_mem_nil,
    or_false] at mem
  rcases mem with ⟨⟨name, sign⟩, mem, rfl⟩ | rfl | rfl | rfl | rfl | rfl | rfl | rfl | rfl | rfl |
    rfl
  · have mem : (name, sign) ∈ signs := List.mem_append_left _ (List.mem_append_right _ mem)
    exact draws_of_spaced name sign mem (by decide) puts
  · exact draws_of_spaced "+" "+" (by simp [signs]) (by decide) puts
  · exact draws_of_spaced "-" "−" (by simp [signs]) (by decide) puts
  · exact draws_of_spaced "\\*" "⋅" (by simp [signs]) (by decide) puts
  · exact draws_of_spaced "\\*\\*" "∗" (by simp [signs]) (by decide) puts
  · exact draws_of_spaced "/" "/" (by simp [signs]) (by decide) puts
  · obtain ⟨pattern, rfl⟩ := (Rule.puts_of_use? rfl _ _).1 puts
    refine ⟨by decide, [], by simp, fun word left right => ?_⟩
    simp [signOf_of_mem "//" "/" (by simp [signs]) pattern, tight]
  · obtain ⟨pattern, rfl⟩ := (Rule.puts_of_use? rfl _ _).1 puts
    exact ⟨rfl, rfl, signOf_of_mem "^" "^" (by simp [signs]) pattern⟩
  · obtain ⟨pattern, rfl⟩ := (Rule.puts_of_use? rfl _ _).1 puts
    intro word inner
    simp [signOf_of_mem "-" "−" (by simp [signs]) pattern]
  · obtain ⟨pattern, rfl⟩ := (Rule.puts_of_use? rfl _ _).1 puts
    intro word inner
    simp [signOf_of_mem "!" "!" (by simp [signs]) pattern]
  · rcases puts with uses | ⟨closing, wrap, closed, eq, known, rfl⟩
    · cases uses
    · obtain ⟨pattern, rfl, rfl⟩ := Rule.brackets.inj eq
      have pattern' := Grammar.patternOf_of_symbolId? known
      intro word word' inner
      simp [signOf_of_mem "\\(" "(" (by simp [signs]) pattern.symm,
        signOf_of_mem "\\)" ")" (by simp [signs]) pattern']

theorem draws_of_serves {role : Role Text} (present : grammar.role? id = some role)
    (serves : role.Serves use) : Draws id use := by
  obtain ⟨rule, mem, puts⟩ := Grammar.exists_puts_of_serves taken_and_tested.1 present serves
  exact (List.mem_append.1 mem).elim (draws_of_operand · puts) (draws_of_operator · puts)

theorem role?_ne_aside (kind : Aside) : grammar.role? id ≠ some (.aside kind) :=
  fun present =>
    have draws : Draws id (.aside kind) := draws_of_serves present rfl
    draws

theorem draws_of_starter? {starter : Starter Text} (starts : grammar.starter? id = some starter) :
    Draws id (.starter starter) := by
  obtain ⟨role, present, serves⟩ := Option.bind_eq_some_iff.1 starts
  exact draws_of_serves present serves

theorem draws_of_follower? {follower : Follower Text}
    (follows : grammar.follower? id = some follower) : Draws id (.follower follower) := by
  obtain ⟨role, present, eq⟩ := Option.bind_eq_some_iff.1 follows
  have serves : role.Serves (.follower follower) := eq
  exact draws_of_serves present serves

end Draws

/-! ## Tokens -/

theorem ignoresNothing : grammar.IgnoresNothing := fun _ => role?_ne_aside .ignored

theorem spelling_of_nextToken {place : Nat} {text after : Text} {token : Token}
    (next : grammar.nextToken place text = .token token after) :
    Spelling (grammar.patternOf token.symbol) token.text := by
  obtain ⟨found, -, matched, -, same⟩ := Grammar.match_of_nextToken ignoresNothing next
  have symbol : token.symbol = found.value := congrArg Token.symbol same
  have word : token.text = found.text := congrArg Token.text same
  rw [symbol, word]
  exact spelling_of_tested taken_and_tested.2 matched

theorem spelling_of_tokens {input : Text} {tokens : List Token}
    (divided : grammar.tokens input = .ok tokens) :
    ∀ token ∈ tokens, Spelling (grammar.patternOf token.symbol) token.text := by
  obtain ⟨last, scanned⟩ := Grammar.scan_of_tokens input tokens divided
  have all := (Grammar.forall_scanFrom (fun _ _ _ _ next => spelling_of_nextToken next) 0 input).1
  rwa [show grammar.scanFrom 0 input = _ from scanned] at all

/-! ## White space -/

/-- White space before, between and after the tokens of formulas changes neither the tokens, except
for their places, nor the text that the formulas are turned into. -/
theorem convert_respaced (s s' : Text) (tokens : List Token)
    (divided : grammar.tokens s = .ok tokens) (respaced : Respaced (tokens.map Token.text) s s') :
    (∃ tokens', grammar.tokens s' = .ok tokens' ∧
      tokens'.map Token.unplaced = tokens.map Token.unplaced) ∧
    ∀ r, (convert s').result = .ok r ↔ (convert s).result = .ok r := by
  have solid (c : Char) (blank : isBlank c) : isPlain c = false := by simp [isPlain, blank]
  obtain ⟨tokens', divided', same⟩ :=
    Grammar.tokens_respaced ignoresNothing (crisp_of_tested taken_and_tested.2) solid divided
      respaced
  refine ⟨⟨tokens', divided', same⟩, fun r => ?_⟩
  rw [← Run.value?_eq_some, ← Run.value?_eq_some, convert, convert, convertBy, convertBy,
    Run.value?_map, Run.value?_map, Grammar.parseAll_of_unplaced divided divided' same]

/-- The `i` could be the start of the end of `epsilon`. -/
theorem convert_respaced_gaps :
    let s : Text := ['e', 'p', 's', 'i', '<', '=', '2']
    let s' : Text := [' ', 'e', 'p', 's', '\t', ' ', 'i', '<', '=', '\u3000', '2', '\n']
    ∃ tokens, grammar.tokens s = .ok tokens ∧ Respaced (tokens.map Token.text) s s' ∧
      (convert s).result = .ok ['ε', ' ', 'i', ' ', '≤', ' ', '2'] ∧
      (convert s').result = .ok ['ε', ' ', 'i', ' ', '≤', ' ', '2'] := by
  intro s s'
  have run : grammar.scan s = ⟨[⟨5, ['e', 'p', 's'], 0, 3, 0⟩, ⟨34, ['i'], 3, 4, 0⟩,
      ⟨40, ['<', '='], 4, 6, 5⟩, ⟨33, ['2'], 6, 7, 0⟩], .finished 7⟩ ∧
      (convert s).result = .ok ['ε', ' ', 'i', ' ', '≤', ' ', '2'] := by
    decide +kernel
  have divided := Grammar.tokens_of_scan _ _ _ run.1
  have blank : [' ', '\t', '\u3000', '\n'].all isBlank := by decide +kernel
  rw [List.all_eq_true] at blank
  have before (gap : Text) {word rest rest' : Text} {words : List Text}
      (white : gap ⊆ [' ', '\t', '\u3000', '\n']) (others : Respaced words rest rest') :
      Respaced (word :: words) (word ++ rest) (gap ++ (word ++ rest')) :=
    .word (fun c mem => blank c (white mem)) (List.nil_sublist gap) others
  have respaced : Respaced [['e', 'p', 's'], ['i'], ['<', '='], ['2']] s s' := by
    have none : Respaced [] [] ['\n'] :=
      .last (List.forall_mem_singleton.2 (blank '\n' (by simp))) (List.nil_sublist _)
    have two : Respaced [['2']] ['2'] ['\u3000', '2', '\n'] := before ['\u3000'] (by simp) none
    have sign : Respaced [['<', '='], ['2']] ['<', '=', '2'] ['<', '=', '\u3000', '2', '\n'] :=
      before [] (by simp) two
    have letter : Respaced [['i'], ['<', '='], ['2']] ['i', '<', '=', '2']
        ['\t', ' ', 'i', '<', '=', '\u3000', '2', '\n'] := before ['\t', ' '] (by simp) sign
    exact before [' '] (by simp) letter
  exact ⟨_, divided, respaced, run.2, ((convert_respaced s s' _ divided respaced).2 _).2 run.2⟩

end OpGrammar.Formula
