import OpGrammar.Proofs.Course
import OpGrammar.Proofs.Symbols

/-!
# No power underflows

An operator that groups to the right reads its right operand with one power less than its own. It
only goes on with an expression if it binds more tightly than what waits there, so its power is not
the least one, whatever powers the rules have.
-/

namespace OpGrammar

variable {O : Type} {grammar : Grammar O}

namespace Grammar

variable {token : Token} {stack : List (Frame O)} {input : Text} {event : Event}

theorem goesOn_least (statements : Bool) (power : Power) (least : token.power = Int32.minValue) :
    grammar.goesOn statements power token = false := by
  have stays : ¬power < token.power := Int32.not_lt.2 (least ▸ Int32.minValue_le power)
  simp [goesOn, stays]

theorem finish_follows_nothing (place : Nat) (stage : Stage O) :
    ∀ event ∈ (grammar.finish place stage).events, event.act ≠ .follow := by
  have shows : (grammar.finish place stage).Shows (·.act ≠ .follow) fun _ => True :=
    finish_shows (fun _ => by simp) (fun _ => by simp) trivial fun _ _ _ _ => trivial
  exact shows.events

theorem exact_of_exceeds (carries : grammar.Carries token) (exceeds : stackPower stack < token.power)
    {power : Power} {combine : O → O → O}
    (right : grammar.follower? token.symbol = some (.infixRight power combine)) :
    stackPower stack < power ∧ Int32.minValue < power ∧
      (power - 1).toInt = power.toInt - 1 := by
  have binds : token.power = power := power_of_follower carries right
  rw [binds] at exceeds
  exact ⟨exceeds, Int32.lt_of_le_of_lt (Int32.minValue_le _) exceeds, toInt_sub_one exceeds⟩

/-- The event records that a parse of the input comes to a token with which the next step goes on
with an expression, and that what waits for it is this stack. -/
def Continues (grammar : Grammar O) (input : Text) (event : Event) (token : Token)
    (stack : List (Frame O)) : Prop :=
  let scan := (grammar.scan input).unrolled
  event = ⟨.follow, stack.length + 1, .token token⟩ ∧ ∃ statements tokens stage tree,
    grammar.Comes scan statements (token :: tokens) (some stage) ∧
    grammar.step statements ⟨tokens, scan.ending⟩ token stage =
      .more <$> grammar.follow ⟨tokens, scan.ending⟩ stack tree token

theorem Continues.carries (continues : grammar.Continues input event token stack) :
    grammar.Carries token := by
  obtain ⟨_, _, _, _, _, comes, _⟩ := continues
  exact forall_unrolled (fun place text token rest => carries_of_nextToken place text rest token) 0
    input token (comes.fits.1 List.mem_cons_self)

theorem covers_continues (grammar : Grammar O) (input : Text) :
    grammar.Covers input (grammar.scan input).unrolled
      (fun event => event.act = .follow → ∃ token stack,
        grammar.Continues input event token stack ∧ stackPower stack < token.power)
      fun _ => True := by
  constructor
  case follow =>
    intro statements token tokens stage stack tree comes follows _
    exact ⟨token, stack, ⟨rfl, statements, tokens, stage, tree, comes, follows.step _⟩,
      follows.lt_power⟩
  all_goals simp

/-- Whenever a parse goes on with an expression, it does so with a token of the input that binds
more tightly than what waits for the expression. If that is an operator that groups to the right,
its power is above the least one, and one less is no underflow. Nothing goes on with a token of the
least power, or at the end of the input. -/
theorem follow_exact (grammar : Grammar O) (input : Text) :
    (∀ event ∈ (grammar.parse input).events ++ (grammar.parseAll input).events,
      event.act = .follow → ∃ token stack, grammar.Continues input event token stack ∧
        stackPower stack < token.power ∧
        ∀ power combine, grammar.follower? token.symbol = some (.infixRight power combine) →
          stackPower stack < power ∧ Int32.minValue < power ∧
            (power - 1).toInt = power.toInt - 1) ∧
    (∀ statements power (token : Token), token.power = Int32.minValue →
      grammar.goesOn statements power token = false) ∧
    ∀ place (stage : Stage O), ∀ event ∈ (grammar.finish place stage).events,
      event.act ≠ .follow := by
  refine ⟨fun event mem follows => ?_, fun statements power token => goesOn_least statements power,
    finish_follows_nothing⟩
  have covers := covers_continues grammar input
  have recorded : ∃ token stack, grammar.Continues input event token stack ∧
      stackPower stack < token.power := by
    rcases List.mem_append.1 mem with mem | mem
    · exact covers.parse_shows.events event mem follows
    · exact covers.parseAll_shows.events event mem follows
  obtain ⟨token, stack, continues, exceeds⟩ := recorded
  exact ⟨token, stack, continues, exceeds, fun _ _ => exact_of_exceeds continues.carries exceeds⟩

theorem follow_exact_sign :
    let grammar : Grammar Text := ofRules [.operand "[0-9]".toList id,
      .prefixOp ['-'] Int32.minValue ('-' :: ·),
      .infixRight ['^'] (Int32.minValue + 1) (· ++ '^' :: ·)]
    let token : Token := ⟨2, ['^'], 2, 3, Int32.minValue + 1⟩
    let event : Event := ⟨.follow, 2, .token token⟩
    event ∈ (grammar.parse "-2^3".toList).events ∧
      (∃ stack, grammar.Continues "-2^3".toList event token stack ∧
        stackPower stack < Int32.minValue + 1 ∧
        (Int32.minValue + 1 - 1).toInt = (Int32.minValue + 1).toInt - 1) ∧
      grammar.goesOn false Int32.minValue { token with power := Int32.minValue } = false := by
  intro grammar token event
  have mem : event ∈ (grammar.parse "-2^3".toList).events := by decide +kernel
  have right : grammar.follower? 2 =
      some (.infixRight (Int32.minValue + 1) (· ++ '^' :: ·)) := by with_unfolding_all rfl
  obtain ⟨follows, least, -⟩ := follow_exact grammar "-2^3".toList
  obtain ⟨token', stack, continues, -, room⟩ := follows event (List.mem_append_left _ mem) rfl
  obtain rfl : token = token' := Sight.token.inj (congrArg Event.sight continues.1)
  obtain ⟨exceeds, -, less⟩ := room _ _ right
  exact ⟨mem, ⟨stack, continues, exceeds, less⟩, least _ _ _ rfl⟩

end Grammar

end OpGrammar
