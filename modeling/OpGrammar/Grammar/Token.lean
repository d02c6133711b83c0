import OpGrammar.Grammar.Basic
import OpGrammar.Grammar.Error
import OpGrammar.Text.Blank

/-!
# Tokens

An input is divided into tokens from left to right: white space and ignored symbols are skipped, and
a token is what the lexicon reads at its place. A pattern may read nothing where a group in it reads
nothing. Such a token is found at its place again and again, and such a symbol, when it is ignored,
is skipped for ever; both are endings of the tokens.
-/

namespace OpGrammar

/-- A piece of the input that a symbol was found in. Places count bytes. -/
structure Token where
  symbol : Nat
  text : Text
  start : Nat
  stop : Nat
  /-- How tightly it binds to an expression before it. -/
  power : Power
  deriving DecidableEq, Repr

inductive Ending where
  /-- The input was read to its end. -/
  | finished (place : Nat)
  /-- Nothing is known that the rest starts with. -/
  | unknown (place : Nat) (rest : Text)
  /-- A token that reads nothing comes again and again. -/
  | repeated (token : Token)
  /-- A symbol that reads nothing is skipped for ever. -/
  | skipping (place : Nat)
  deriving DecidableEq, Repr

def Ending.place : Ending → Nat
  | .finished place | .unknown place _ | .skipping place => place
  | .repeated token => token.start

/-- The next token with the text after it, if there is one. -/
inductive NextToken where
  | token (token : Token) (rest : Text)
  | ending (ending : Ending)
  deriving DecidableEq, Repr

structure Scan where
  tokens : List Token
  ending : Ending
  deriving DecidableEq, Repr

namespace Grammar

variable {O : Type}

theorem length_drop_lt {text : Text} {found : Match Nat} (reads : found.text ≠ [])
    (nonempty : text ≠ []) : (text.drop found.text.length).length < text.length := by
  have := List.length_pos_iff.2 reads
  have := List.length_pos_iff.2 nonempty
  simp only [List.length_drop]
  omega

theorem length_le_of_dropWhile {text rest : Text} {p : Char → Bool}
    (h : text.dropWhile p = rest) : rest.length ≤ text.length :=
  h ▸ (List.dropWhile_sublist p).length_le

/-- The next token of a text that starts at a place of the input. -/
def nextToken (grammar : Grammar O) (place : Nat) (text : Text) : NextToken :=
  let start := place + Text.byteSize (text.takeWhile isBlank)
  match _ : text.dropWhile isBlank with
  | [] => .ending (.finished start)
  | c :: rest =>
    match grammar.lexicon.longest? (c :: rest) with
    | none => .ending (.unknown start (c :: rest))
    | some found =>
      let stop := start + Text.byteSize found.text
      let after := (c :: rest).drop found.text.length
      match grammar.role? found.value with
      | some (.aside .ignored) =>
        if _ : found.text = [] then .ending (.skipping start)
        else grammar.nextToken stop after
      | role? =>
        let power := (role?.map Role.power).getD 0
        .token ⟨found.value, found.text, start, stop, power⟩ after
termination_by text.length
decreasing_by
  rename_i left reads
  exact Nat.lt_of_lt_of_le (length_drop_lt reads (List.cons_ne_nil _ _))
    (length_le_of_dropWhile left)

theorem length_of_nextToken {grammar : Grammar O} {place : Nat} {text : Text} {token : Token}
    {rest : Text} (h : grammar.nextToken place text = .token token rest)
    (reads : token.text ≠ []) : rest.length < text.length := by
  fun_induction grammar.nextToken place text with
  | case1 => cases h
  | case2 => cases h
  | case3 => cases h
  | case4 place text _ c tail left found _ _ after _ reads' ih =>
    exact Nat.lt_trans (ih h) (Nat.lt_of_lt_of_le (length_drop_lt reads' (List.cons_ne_nil _ _))
      (length_le_of_dropWhile left))
  | case5 place text _ c tail left found _ _ after =>
    obtain ⟨rfl, rfl⟩ := NextToken.token.inj h
    exact Nat.lt_of_lt_of_le (length_drop_lt reads (List.cons_ne_nil _ _))
      (length_le_of_dropWhile left)

/-- The tokens of a text that starts at a place of the input. -/
def scanFrom (grammar : Grammar O) (place : Nat) (text : Text) : Scan :=
  match _ : grammar.nextToken place text with
  | .ending ending => ⟨[], ending⟩
  | .token token rest =>
    if _ : token.text = [] then ⟨[], .repeated token⟩
    else
      let scan := grammar.scanFrom token.stop rest
      ⟨token :: scan.tokens, scan.ending⟩
termination_by text.length
decreasing_by exact length_of_nextToken (by assumption) (by assumption)

def scan (grammar : Grammar O) (input : Text) : Scan := grammar.scanFrom 0 input

/-- The tokens of an input, if there is an end to them. -/
def tokens (grammar : Grammar O) (input : Text) : Except ParseError (List Token) :=
  let scan := grammar.scan input
  match scan.ending with
  | .finished _ => .ok scan.tokens
  | .unknown place rest => .error (.unknownText place rest)
  | .repeated token => .error (.noProgress token.start)
  | .skipping place => .error (.noProgress place)

end Grammar

/-- The tokens as a parse takes them. Each use of a token that comes again and again closes a
bracket, starts or follows an expression, or ends it. A parse that has not stopped after one use for
every token before and four more does the same things over and over. -/
def Scan.unrolled (scan : Scan) : Scan :=
  match scan.ending with
  | .repeated token =>
    { scan with tokens := scan.tokens ++ List.replicate (scan.tokens.length + 4) token }
  | _ => scan

end OpGrammar
