import OpGrammar.Grammar.Token
import OpGrammar.Text.Quoted

/-!
# Traces

A parse is recorded step by step: each token as it is fetched, and as it starts or follows an
expression. The record is there also when the parse fails.
-/

namespace OpGrammar

/-- What is done with a token. -/
inductive Act where
  /-- It becomes the next token. -/
  | fetch
  /-- It starts an expression. -/
  | start
  /-- It follows an expression. -/
  | follow
  deriving DecidableEq, Repr

/-- A token, or the end of the input at its place. -/
inductive Sight where
  | token (token : Token)
  | ending (place : Nat)
  deriving DecidableEq, Repr

/-- A step of a parse, inside of `depth` expressions. -/
structure Event where
  act : Act
  depth : Nat
  sight : Sight
  deriving DecidableEq, Repr

def Act.print : Act → String
  | .fetch => "token"
  | .start => "nud"
  | .follow => "led"

def Sight.print : Sight → String
  | .token t =>
    String.ofList t.text.quoted ++ " @" ++ t.start.repr ++ ".." ++ t.stop.repr ++
      " bp=" ++ t.power.toInt.repr
  | .ending place => "<end> @" ++ place.repr

/-- An event as a line, set in by two spaces for each expression around it. -/
def Event.print (event : Event) : String :=
  String.ofList (List.replicate (2 * event.depth) ' ') ++ event.act.print ++ " " ++
    event.sight.print

structure Run (α : Type) where
  events : List Event
  result : Except ParseError α

namespace Run

variable {α β : Type}

/-- The steps of the first run, then those of a second that goes on from its result. -/
protected def bind (run : Run α) (next : α → Run β) : Run β :=
  match run.result with
  | .ok a => ⟨run.events ++ (next a).events, (next a).result⟩
  | .error e => ⟨run.events, .error e⟩

instance : Monad Run where
  pure a := ⟨[], .ok a⟩
  bind := Run.bind
  map f run := ⟨run.events, run.result.map f⟩

def emit (event : Event) : Run Unit := ⟨[event], .ok ()⟩

def fail (e : ParseError) : Run α := ⟨[], .error e⟩

@[simp]
theorem pure_eq (a : α) : (pure a : Run α) = ⟨[], .ok a⟩ := rfl

@[simp]
theorem map_eq (f : α → β) (run : Run α) : f <$> run = ⟨run.events, run.result.map f⟩ := rfl

@[simp]
theorem ok_bind (events : List Event) (a : α) (next : α → Run β) :
    ((⟨events, .ok a⟩ : Run α) >>= next) = ⟨events ++ (next a).events, (next a).result⟩ := rfl

@[simp]
theorem error_bind (events : List Event) (e : ParseError) (next : α → Run β) :
    ((⟨events, .error e⟩ : Run α) >>= next) = ⟨events, .error e⟩ := rfl

@[simp]
theorem result_bind (run : Run α) (next : α → Run β) :
    (run >>= next).result = run.result >>= fun a => (next a).result := by
  obtain ⟨events, e | a⟩ := run <;> rfl

theorem result_map (f : α → β) (run : Run α) : (f <$> run).result = run.result.map f := rfl

instance : LawfulMonad Run :=
  LawfulMonad.mk' Run
    (fun run => by obtain ⟨events, e | a⟩ := run <;> simp [Except.map])
    (fun a next => by simp)
    (fun run next next' => by
      obtain ⟨events, e | a⟩ := run
      · rfl
      · simp only [ok_bind]
        cases h : (next a).result <;> simp [Bind.bind, Run.bind, h])
    (fun a run => rfl)
    (fun run next => rfl)
    (fun run next => rfl)
    (fun f run => by obtain ⟨events, e | a⟩ := run <;> simp [Except.map])

end Run

end OpGrammar
