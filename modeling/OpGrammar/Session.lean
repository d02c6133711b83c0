import OpGrammar.Grammar.Parse

/-!
# Sessions

A lexicon or a grammar is used by calls, one after the other. Each call is answered and may change
what comes after it. One that is refused is answered with the reason, and the session goes on.
-/

namespace OpGrammar

def answered {ε σ α : Type} : EStateM.Result ε σ α → Except ε α × σ
  | .ok a state => (.ok a, state)
  | .error e state => (.error e, state)

section Session

variable {σ κ α : Type} (run : κ → σ → α × σ)

def stateAfter (state : σ) (calls : List κ) : σ :=
  calls.foldl (fun state call => (run call state).2) state

/-- The answers to some calls, each made to what the call before it has left. -/
def answers (state : σ) : List κ → List α
  | [] => []
  | call :: calls => (run call state).1 :: answers (run call state).2 calls

theorem length_answers (state : σ) (calls : List κ) :
    (answers run state calls).length = calls.length := by
  induction calls generalizing state with
  | nil => rfl
  | cons call calls ih => simp [answers, ih]

theorem answers_append (state : σ) (calls more : List κ) :
    answers run state (calls ++ more) =
      answers run state calls ++ answers run (stateAfter run state calls) more := by
  induction calls generalizing state with
  | nil => rfl
  | cons call calls ih => simp [answers, stateAfter, ih]

end Session

namespace Lexicon

variable {ν : Type}

inductive Call (ν : Type) where
  | enter (entry : Entry ν)
  | knows (name : Text)
  | longest (input : Text)
  deriving DecidableEq, Repr

inductive Answer (ν : Type) where
  | entered (result : Except LexiconError Unit)
  | known (known : Bool)
  | longest (found : Option (Match ν))

def Call.run : Call ν → Lexicon ν → Answer ν × Lexicon ν
  | .enter entry, lexicon =>
    let (result, lexicon) := answered (Lexicon.enter entry lexicon)
    (.entered result, lexicon)
  | .knows name, lexicon => (.known (lexicon.knows name), lexicon)
  | .longest input, lexicon => (.longest (lexicon.longest? input), lexicon)

end Lexicon

namespace Grammar

variable {O : Type}

inductive Call (O : Type) where
  | add (rule : Rule O)
  | setTrace (on : Bool)
  | tokens (input : Text)
  | parse (input : Text)
  | parseAll (input : Text)

/-- The answer to a call to a grammar. A parse leaves a trace if the grammar is traced. -/
inductive Answer (O : Type) where
  | added (result : Except RuleError Unit)
  | traceSet
  | tokens (result : Except ParseError (List Token))
  | parse (result : Except ParseError O) (trace : Option (List String))
  | parseAll (result : Except ParseError (List O)) (trace : Option (List String))

def Call.run : Call O → Grammar O → Answer O × Grammar O
  | .add rule, grammar =>
    let (result, grammar) := answered (Grammar.add rule grammar)
    (.added result, grammar)
  | .setTrace on, grammar => (.traceSet, { grammar with traced := on })
  | .tokens input, grammar => (.tokens (grammar.tokens input), grammar)
  | .parse input, grammar =>
    let run := grammar.parse input
    (.parse run.result (grammar.traceOf run), grammar)
  | .parseAll input, grammar =>
    let run := grammar.parseAll input
    (.parseAll run.result (grammar.traceOf run), grammar)

end Grammar

end OpGrammar
