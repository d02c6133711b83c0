import OpGrammar.Proofs.RefusedRule
import OpGrammar.Proofs.Stages
import OpGrammar.Proofs.Symbols

/-!
# Other numbers and other powers

A parse looks at the number of a symbol only to find its role and its pattern and to know a closing
bracket again, and at a power only to compare it with another. So a grammar with other numbers, and
with other powers in the same order, gives the same answers.
-/

namespace OpGrammar

variable {O α β γ δ : Type}

/-- Other numbers for the symbols, and other powers. -/
structure Renaming where
  symbol : Nat → Nat
  power : Power → Power

section Rename

variable (r : Renaming)

def Starter.rename : Starter O → Starter O
  | .operand make => .operand make
  | .prefixOp power apply => .prefixOp (r.power power) apply
  | .bracket closing wrap => .bracket (r.symbol closing) wrap

def Follower.rename : Follower O → Follower O
  | .infixLeft power combine => .infixLeft (r.power power) combine
  | .infixRight power combine => .infixRight (r.power power) combine
  | .postfixOp power apply => .postfixOp (r.power power) apply

def Role.rename : Role O → Role O
  | .expression starter follower => .expression (starter.map (·.rename r)) (follower.map (·.rename r))
  | .aside kind => .aside kind

def Use.rename : Use O → Use O
  | .starter begins => .starter (begins.rename r)
  | .follower goesOn => .follower (goesOn.rename r)
  | .aside kind => .aside kind

def Token.rename (token : Token) : Token :=
  { token with symbol := r.symbol token.symbol, power := r.power token.power }

def Ending.rename : Ending → Ending
  | .repeated token => .repeated (token.rename r)
  | ending => ending

def NextToken.rename : NextToken → NextToken
  | .token found rest => .token (found.rename r) rest
  | .ending last => .ending (last.rename r)

def Scan.rename (scan : Scan) : Scan := ⟨scan.tokens.map (·.rename r), scan.ending.rename r⟩

variable {r}

@[simp] theorem Role.starter?_rename (role : Role O) :
    (role.rename r).starter? = role.starter?.map (·.rename r) := by
  cases role <;> rfl

@[simp] theorem Role.follower?_rename (role : Role O) :
    (role.rename r).follower? = role.follower?.map (·.rename r) := by
  cases role <;> rfl

@[simp] theorem Follower.power_rename (follower : Follower O) :
    (follower.rename r).power = r.power follower.power := by
  cases follower <;> rfl

theorem Role.power_rename (zero : r.power 0 = 0) (role : Role O) :
    (role.rename r).power = r.power role.power := by
  rcases role with ⟨_ | _ | _ | _, _ | follower⟩ | kind <;>
    simp [Role.rename, Role.power, Starter.rename, zero]

theorem Scan.unrolled_rename (scan : Scan) : (scan.rename r).unrolled = scan.unrolled.rename r := by
  obtain ⟨tokens, _ | _ | _ | _⟩ := scan <;>
    simp [Scan.rename, Scan.unrolled, Ending.rename]

theorem Ending.place_rename (ending : Ending) : (ending.rename r).place = ending.place := by
  cases ending <;> rfl

end Rename

/-! ## Two runs -/

/-- Both runs fail for the same reason, or both pass, with results that are related. -/
inductive Run.Both (related : α → β → Prop) : Run α → Run β → Prop
  | passed (events events' : List Event) (a : α) (b : β) (h : related a b) :
    Both related ⟨events, .ok a⟩ ⟨events', .ok b⟩
  | failed (events events' : List Event) (e : ParseError) :
    Both related ⟨events, .error e⟩ ⟨events', .error e⟩

namespace Run.Both

variable {related : α → β → Prop} {related' : γ → δ → Prop} {run : Run α} {run' : Run β}

theorem ok {a : α} {b : β} (h : related a b) : Both related (pure a) (pure b) := .passed _ _ a b h

theorem fail (e : ParseError) : Both related (Run.fail e) (Run.fail e) := .failed _ _ e

theorem emit (event event' : Event) : Both (fun _ _ => True) (Run.emit event) (Run.emit event') :=
  .passed _ _ _ _ trivial

theorem bind {next : α → Run γ} {next' : β → Run δ} (both : Both related run run')
    (rest : ∀ a b, related a b → Both related' (next a) (next' b)) :
    Both related' (run >>= next) (run' >>= next') := by
  cases both with
  | failed => exact .failed _ _ _
  | passed events events' a b h =>
    have both := rest a b h
    rw [ok_bind, ok_bind]
    generalize next a = run at both
    generalize next' b = run' at both
    cases both with
    | passed _ _ c d h => exact .passed _ _ c d h
    | failed => exact .failed _ _ _

theorem map {f : α → γ} {g : β → δ} (both : Both related run run')
    (rest : ∀ a b, related a b → related' (f a) (g b)) : Both related' (f <$> run) (g <$> run') := by
  cases both with
  | failed => exact .failed _ _ _
  | passed _ _ a b h => exact .passed _ _ _ _ (rest a b h)

theorem result_eq {run run' : Run α} (both : Both Eq run run') : run.result = run'.result := by
  cases both with
  | failed => rfl
  | passed _ _ a b h => exact congrArg Except.ok h

end Run.Both

theorem fetch_rename {r : Renaming} (left : Scan) (depth depth' : Nat) :
    Run.Both (fun _ _ => True) (fetch left depth) (fetch (left.rename r) depth') := by
  obtain ⟨_ | _, _ | _ | _ | _⟩ := left <;> first | exact .emit _ _ | exact .fail _

/-! ## Powers -/

/-- The power is one of those that the role is given. -/
def Role.Has (role : Role O) (power : Power) : Prop :=
  (∃ apply, role.starter? = some (.prefixOp power apply)) ∨
    ∃ follower, role.follower? = some follower ∧ follower.power = power

theorem Role.has_power (role : Role O) : role.power = 0 ∨ role.Has role.power := by
  rcases role with ⟨_ | _ | _ | _, _ | follower⟩ | kind <;>
    simp [Role.power, Role.Has, Role.starter?, Role.follower?]

theorem sub_one_lt_iff {least p : Power} (above : least < p) (q : Power) : p - 1 < q ↔ ¬q < p := by
  rw [Int32.lt_iff_toInt_lt, Int32.lt_iff_toInt_lt, Grammar.toInt_sub_one above]
  omega

namespace Grammar

variable {r : Renaming} {grammar grammar' : Grammar O}

/-- The power is one that tokens are compared with. -/
def HasPower (grammar : Grammar O) (power : Power) : Prop :=
  power = 0 ∨ ∃ id role, grammar.role? id = some role ∧ role.Has power

/-- The second grammar is the first one with other numbers, and with other powers in the same
order. -/
structure Renames (r : Renaming) (grammar grammar' : Grammar O) : Prop where
  consistent : grammar.Consistent
  pattern : ∀ id < grammar.symbols.size, grammar'.pattern? (r.symbol id) = grammar.pattern? id
  role : ∀ id < grammar.symbols.size,
    grammar'.role? (r.symbol id) = (grammar.role? id).map (·.rename r)
  injective : ∀ id < grammar.symbols.size, ∀ id' < grammar.symbols.size,
    r.symbol id = r.symbol id' → id = id'
  longest : ∀ text, (grammar'.lexicon.longest? text).map (fun found => (found.text, found.value)) =
    (grammar.lexicon.longest? text).map fun found => (found.text, r.symbol found.value)
  order : ∀ p q, grammar.HasPower p → grammar.HasPower q → (r.power p < r.power q ↔ p < q)
  zero : r.power 0 = 0

structure Occurs (grammar : Grammar O) (token : Token) : Prop where
  symbol : token.symbol < grammar.symbols.size
  carries : grammar.Carries token

theorem Consistent.occurs (consistent : grammar.Consistent) (input : Text) :
    ∀ token ∈ (grammar.scan input).unrolled.tokens, grammar.Occurs token := by
  intro token mem
  refine ⟨consistent.tokens input token mem, ?_⟩
  exact forall_unrolled (fun place text token rest => carries_of_nextToken place text rest token) 0
    input token mem

theorem Occurs.hasPower {token : Token} (occurs : grammar.Occurs token) :
    grammar.HasPower token.power := by
  rw [show token.power = _ from occurs.carries]
  cases present : grammar.role? token.symbol with
  | none => exact .inl rfl
  | some role => exact role.has_power.imp_right fun has => ⟨_, role, present, has⟩

namespace Renames

variable (renames : Renames r grammar grammar')

include renames

theorem starter? {id : Nat} (inside : id < grammar.symbols.size) :
    grammar'.starter? (r.symbol id) = (grammar.starter? id).map (·.rename r) := by
  rw [Grammar.starter?, Grammar.starter?, renames.role id inside]
  cases grammar.role? id <;> simp

theorem follower? {id : Nat} (inside : id < grammar.symbols.size) :
    grammar'.follower? (r.symbol id) = (grammar.follower? id).map (·.rename r) := by
  rw [Grammar.follower?, Grammar.follower?, renames.role id inside]
  cases grammar.role? id <;> simp

theorem isSeparator {id : Nat} (inside : id < grammar.symbols.size) :
    grammar'.isSeparator (r.symbol id) = grammar.isSeparator id := by
  rw [Grammar.isSeparator, Grammar.isSeparator, renames.role id inside]
  rcases grammar.role? id with _ | _ | _ | _ <;> rfl

theorem patternOf {id : Nat} (inside : id < grammar.symbols.size) :
    grammar'.patternOf (r.symbol id) = grammar.patternOf id :=
  congrArg (·.getD []) (renames.pattern id inside)

/-! ## Tokens -/

theorem exists_match {text : Text} {found : Match Nat}
    (matched : grammar.lexicon.longest? text = some found) :
    ∃ found', grammar'.lexicon.longest? text = some found' ∧ found'.text = found.text ∧
      found'.value = r.symbol found.value ∧
      grammar'.role? (r.symbol found.value) = (grammar.role? found.value).map (·.rename r) := by
  have same := renames.longest text
  rw [matched, Option.map_some, Option.map_eq_some_iff] at same
  obtain ⟨found', matched', same⟩ := same
  obtain ⟨text', value'⟩ := Prod.mk.inj same
  exact ⟨found', matched', text', value',
    renames.role _ (renames.consistent.found text found matched)⟩

theorem nextToken (place : Nat) (text : Text) :
    grammar'.nextToken place text = (grammar.nextToken place text).rename r := by
  fun_induction grammar.nextToken place text with
  | case1 place text start left =>
    rw [nextToken_eq, left]
    rfl
  | case2 place text start c rest left unknown =>
    have unknown' := renames.longest (c :: rest)
    rw [unknown, Option.map_none, Option.map_eq_none_iff] at unknown'
    rw [nextToken_eq, left]
    simp only [unknown', start]
    rfl
  | case3 place text start c rest left found matched role none =>
    obtain ⟨found', matched', text', value', role'⟩ := renames.exists_match matched
    rw [nextToken_eq, left]
    simp only [matched', value', role', role, text', none, Option.map_some, Role.rename, if_true]
    rfl
  | case4 place text start c rest left found matched stop after role some ih =>
    obtain ⟨found', matched', text', value', role'⟩ := renames.exists_match matched
    rw [nextToken_eq, left]
    simp only [matched', value', role', role, text', some, Option.map_some, Role.rename, if_false]
    exact ih
  | case5 place text start c rest left found matched stop after other power =>
    obtain ⟨found', matched', text', value', role'⟩ := renames.exists_match matched
    rw [nextToken_eq, left]
    simp only [matched', text', value', role']
    have binds : power = ((grammar.role? found.value).map Role.power).getD 0 := rfl
    rcases role : grammar.role? found.value with _ | ⟨starter, follower⟩ | _ | _
    case some.aside.ignored => exact absurd role other
    all_goals
      rw [role] at binds
      simp only [Option.map_none, Option.map_some, Option.getD_none, Option.getD_some] at binds ⊢
      rw [binds]
      simp only [NextToken.rename, Token.rename, ← Role.power_rename renames.zero, renames.zero]
      rfl

theorem scanFrom (place : Nat) (text : Text) :
    grammar'.scanFrom place text = (grammar.scanFrom place text).rename r := by
  fun_induction grammar.scanFrom place text with
  | case1 place text ending next =>
    rw [scanFrom_eq, renames.nextToken, next]
    rfl
  | case2 place text token rest next none =>
    rw [scanFrom_eq, renames.nextToken, next]
    simp [NextToken.rename, Token.rename, none, Scan.rename, Ending.rename]
  | case3 place text token rest next some scan ih =>
    rw [scanFrom_eq, renames.nextToken, next]
    simp only [NextToken.rename, Token.rename, some, if_false]
    rw [ih]
    rfl

end Renames

/-! ## Stages -/

def Compares (r : Renaming) (grammar : Grammar O) (power power' : Power) : Prop :=
  ∀ q, grammar.HasPower q → (power' < r.power q ↔ power < q)

theorem Compares.lt_of_goesOn {token : Token} {power power' : Power} {statements : Bool}
    (compares : grammar.Compares r power power') (occurs : grammar.Occurs token)
    (goes : grammar.goesOn statements power token = true) :
    power < token.power ∧ power' < r.power token.power := by
  rw [goesOn, Bool.and_eq_true, decide_eq_true_eq] at goes
  exact ⟨goes.1, (compares token.power occurs.hasPower).2 goes.1⟩

end Grammar

inductive Frame.Agrees (r : Renaming) (grammar : Grammar O) : Frame O → Frame O → Prop
  | prefixOp (token token' : Token) (power power' : Power) (apply : O → O)
    (compares : grammar.Compares r power power') :
    Agrees r grammar (.prefixOp token power apply) (.prefixOp token' power' apply)
  | infixOp (token token' : Token) (power power' : Power) (combine : O → O → O) (left left' : Tree O)
    (compares : grammar.Compares r power power') (same : left.value = left'.value) :
    Agrees r grammar (.infixOp token power combine left) (.infixOp token' power' combine left')
  | bracket (opening opening' : Token) (closing : Nat) (wrap : O → O)
    (inside : closing < grammar.symbols.size) :
    Agrees r grammar (.bracket opening closing wrap) (.bracket opening' (r.symbol closing) wrap)

inductive Stage.Agrees (r : Renaming) (grammar : Grammar O) : Stage O → Stage O → Prop
  | operand (stack stack' : List (Frame O))
    (agrees : List.Forall₂ (Frame.Agrees r grammar) stack stack') :
    Agrees r grammar (.operand stack) (.operand stack')
  | operator (stack stack' : List (Frame O)) (left left' : Tree O)
    (agrees : List.Forall₂ (Frame.Agrees r grammar) stack stack') (same : left.value = left'.value) :
    Agrees r grammar (.operator stack left) (.operator stack' left')

inductive Outcome.Agrees (r : Renaming) (grammar : Grammar O) : Outcome O → Outcome O → Prop
  | more (stage stage' : Stage O) (agrees : stage.Agrees r grammar stage') :
    Agrees r grammar (.more stage) (.more stage')
  | ended (tree tree' : Tree O) (same : tree.value = tree'.value) :
    Agrees r grammar (.ended tree) (.ended tree')

namespace Grammar.Renames

variable {r : Renaming} {grammar grammar' : Grammar O} (renames : Renames r grammar grammar')
  {stack stack' : List (Frame O)} {tree tree' : Tree O} {token : Token} {power power' : Power}
  {statements : Bool} {left : Scan}

include renames

theorem compares_rename {power : Power} (has : grammar.HasPower power) :
    grammar.Compares r power (r.power power) :=
  fun q has' => renames.order power q has has'

theorem compares_sub_one {power least least' : Power} (has : grammar.HasPower power)
    (above : least < power) (above' : least' < r.power power) :
    grammar.Compares r (power - 1) (r.power power - 1) := by
  intro q has'
  rw [sub_one_lt_iff above, sub_one_lt_iff above', renames.order q power has' has]

theorem compares_frame {frame frame' : Frame O} (agrees : frame.Agrees r grammar frame') :
    grammar.Compares r frame.power frame'.power := by
  cases agrees with
  | prefixOp _ _ _ _ _ compares => exact compares
  | infixOp _ _ _ _ _ _ _ compares => exact compares
  | bracket =>
    have zero := renames.compares_rename (.inl rfl)
    rwa [renames.zero] at zero

theorem compares_stack (agrees : List.Forall₂ (Frame.Agrees r grammar) stack stack') :
    grammar.Compares r (stackPower stack) (stackPower stack') := by
  cases agrees with
  | nil =>
    have zero := renames.compares_rename (.inl rfl)
    rwa [renames.zero] at zero
  | cons agrees => exact renames.compares_frame agrees

theorem goesOn (compares : grammar.Compares r power power') (occurs : grammar.Occurs token) :
    grammar'.goesOn statements power' (token.rename r) = grammar.goesOn statements power token := by
  have lt : power' < (token.rename r).power ↔ power < token.power :=
    compares token.power occurs.hasPower
  have follows : (grammar'.follower? (token.rename r).symbol).isSome =
      (grammar.follower? token.symbol).isSome := by
    rw [show (token.rename r).symbol = r.symbol token.symbol from rfl,
      renames.follower? occurs.symbol, Option.isSome_map]
  rw [Grammar.goesOn, Grammar.goesOn, follows]
  simp only [lt]

theorem start (agrees : List.Forall₂ (Frame.Agrees r grammar) stack stack')
    (occurs : grammar.Occurs token) :
    Run.Both (Stage.Agrees r grammar) (grammar.start left stack token)
      (grammar'.start (left.rename r) stack' (token.rename r)) := by
  unfold Grammar.start
  refine (fetch_rename left _ _).bind fun _ _ _ => (Run.Both.emit _ _).bind fun _ _ _ => ?_
  have starts : grammar'.starter? (token.rename r).symbol =
      (grammar.starter? token.symbol).map (·.rename r) := renames.starter? occurs.symbol
  rw [starts]
  rcases found : grammar.starter? token.symbol with _ | make | ⟨power, apply⟩ | ⟨closing, wrap⟩
  · exact .fail _
  · exact .ok (.operator _ _ _ _ agrees rfl)
  · refine .ok (.operand _ _ (.cons (.prefixOp _ _ _ _ _ (renames.compares_rename ?_)) agrees))
    obtain ⟨role, present, starts⟩ := Option.bind_eq_some_iff.1 found
    exact .inr ⟨_, role, present, .inl ⟨apply, starts⟩⟩
  · exact .ok (.operand _ _ (.cons (.bracket _ _ _ _ (renames.consistent.closes _ _ _ found)) agrees))

theorem follow (agrees : List.Forall₂ (Frame.Agrees r grammar) stack stack')
    (same : tree.value = tree'.value) (occurs : grammar.Occurs token)
    (above : power < token.power) (above' : power' < r.power token.power) :
    Run.Both (Stage.Agrees r grammar) (grammar.follow left stack tree token)
      (grammar'.follow (left.rename r) stack' tree' (token.rename r)) := by
  unfold Grammar.follow
  refine (fetch_rename left _ _).bind fun _ _ _ => (Run.Both.emit _ _).bind fun _ _ _ => ?_
  have follows : grammar'.follower? (token.rename r).symbol =
      (grammar.follower? token.symbol).map (·.rename r) := renames.follower? occurs.symbol
  rw [follows]
  cases found : grammar.follower? token.symbol with
  | none => exact .fail _
  | some follower =>
    have binds := power_of_follower occurs.carries found
    have has := binds ▸ occurs.hasPower
    rw [binds] at above above'
    cases follower with
    | infixLeft power combine =>
      exact .ok (.operand _ _ (.cons (.infixOp _ _ _ _ _ _ _ (renames.compares_rename has) same) agrees))
    | infixRight power combine =>
      exact .ok (.operand _ _
        (.cons (.infixOp _ _ _ _ _ _ _ (renames.compares_sub_one has above above') same) agrees))
    | postfixOp power apply =>
      exact .ok (.operator _ _ _ _ agrees (congrArg apply same))

theorem close {opening opening' : Token} {closing : Nat} {wrap : O → O}
    (agrees : List.Forall₂ (Frame.Agrees r grammar) stack stack')
    (same : tree.value = tree'.value) (inside : closing < grammar.symbols.size)
    (occurs : grammar.Occurs token) :
    Run.Both (Stage.Agrees r grammar) (grammar.close left stack tree opening closing wrap token)
      (grammar'.close (left.rename r) stack' tree' opening' (r.symbol closing) wrap
        (token.rename r)) := by
  unfold Grammar.close
  refine (fetch_rename left _ _).bind fun _ _ _ => ?_
  have closes : (token.rename r).symbol = r.symbol closing ↔ token.symbol = closing :=
    ⟨renames.injective _ occurs.symbol _ inside, congrArg r.symbol⟩
  simp only [closes, renames.patternOf inside]
  split
  · exact .ok (.operator _ _ _ _ agrees (congrArg wrap same))
  · exact .fail _

theorem resume_of_goesOn (agrees : List.Forall₂ (Frame.Agrees r grammar) stack stack')
    (same : tree.value = tree'.value) (occurs : grammar.Occurs token)
    (goes : grammar.goesOn statements (stackPower stack) token = true) :
    Run.Both (Outcome.Agrees r grammar) (grammar.resume statements left token stack tree)
      (grammar'.resume statements (left.rename r) (token.rename r) stack' tree') := by
  have compares := renames.compares_stack agrees
  have goes' := (renames.goesOn compares occurs).trans goes
  obtain ⟨above, above'⟩ := compares.lt_of_goesOn occurs goes
  rw [Grammar.resume_of_goesOn goes, Grammar.resume_of_goesOn goes']
  exact (renames.follow agrees same occurs above above').map fun _ _ agrees => .more _ _ agrees

theorem resume (agrees : List.Forall₂ (Frame.Agrees r grammar) stack stack')
    (same : tree.value = tree'.value) (occurs : grammar.Occurs token) :
    Run.Both (Outcome.Agrees r grammar) (grammar.resume statements left token stack tree)
      (grammar'.resume statements (left.rename r) (token.rename r) stack' tree') := by
  induction agrees generalizing tree tree' with
  | nil =>
    by_cases goes : grammar.goesOn statements (stackPower ([] : List (Frame O))) token = true
    · exact renames.resume_of_goesOn .nil same occurs goes
    have stops := goes
    rw [← renames.goesOn (renames.compares_stack .nil) occurs] at stops
    rw [stackPower] at goes stops
    rw [Grammar.resume, Grammar.resume, if_neg goes, if_neg stops]
    exact .ok (.ended _ _ same)
  | @cons frame frame' stack stack' first rest ih =>
    by_cases goes : grammar.goesOn statements (stackPower (frame :: stack)) token = true
    · exact renames.resume_of_goesOn (.cons first rest) same occurs goes
    have stops := goes
    rw [← renames.goesOn (renames.compares_stack (.cons first rest)) occurs] at stops
    rw [stackPower] at goes stops
    unfold Grammar.resume
    rw [if_neg goes, if_neg stops]
    cases first with
    | prefixOp operator operator' power power' apply => exact ih (congrArg apply same)
    | infixOp operator operator' power power' combine left left' _ same' =>
      exact ih (congrArg₂ combine same' same)
    | bracket opening opening' closing wrap inside =>
      exact (renames.close rest same inside occurs).map fun _ _ agrees => .more _ _ agrees

theorem step {stage stage' : Stage O} (agrees : stage.Agrees r grammar stage')
    (occurs : grammar.Occurs token) :
    Run.Both (Outcome.Agrees r grammar) (grammar.step statements left token stage)
      (grammar'.step statements (left.rename r) (token.rename r) stage') := by
  cases agrees with
  | operand _ _ agrees =>
    exact (renames.start agrees occurs).map fun _ _ agrees => .more _ _ agrees
  | operator _ _ _ _ agrees same => exact renames.resume agrees same occurs

theorem finishTree (place : Nat) (agrees : List.Forall₂ (Frame.Agrees r grammar) stack stack')
    (same : tree.value = tree'.value) :
    Run.Both (fun tree tree' => tree.value = tree'.value) (grammar.finishTree place stack tree)
      (grammar'.finishTree place stack' tree') := by
  induction agrees generalizing tree tree' with
  | nil => exact .ok same
  | cons first rest ih =>
    cases first with
    | prefixOp operator operator' power power' apply => exact ih (congrArg apply same)
    | infixOp operator operator' power power' combine left left' _ same' =>
      exact ih (congrArg₂ combine same' same)
    | bracket opening opening' closing wrap inside =>
      rw [Grammar.finishTree, Grammar.finishTree, renames.patternOf inside]
      exact (Run.Both.emit _ _).bind fun _ _ _ => .fail _

theorem finish (place : Nat) {stage stage' : Stage O} (agrees : stage.Agrees r grammar stage') :
    Run.Both (fun tree tree' => tree.value = tree'.value) (grammar.finish place stage)
      (grammar'.finish place stage') := by
  cases agrees with
  | operand =>
    exact (Run.Both.emit _ _).bind fun _ _ _ => (Run.Both.emit _ _).bind fun _ _ _ => .fail _
  | operator _ _ _ _ agrees same => exact renames.finishTree place agrees same

/-! ## All tokens -/

theorem readOne (input : Text) (ending : Ending) (tokens : List Token)
    (occur : ∀ token ∈ tokens, grammar.Occurs token) {stage stage' : Stage O}
    (agrees : stage.Agrees r grammar stage') :
    Run.Both (fun tree tree' => tree.value = tree'.value) (grammar.readOne input ending tokens stage)
      (grammar'.readOne input (ending.rename r) (tokens.map (·.rename r)) stage') := by
  induction tokens generalizing stage stage' with
  | nil =>
    rw [List.map_nil, Grammar.readOne, Grammar.readOne, ending.place_rename]
    exact renames.finish ending.place agrees
  | cons token tokens ih =>
    rw [List.forall_mem_cons] at occur
    rw [List.map_cons, Grammar.readOne, Grammar.readOne]
    refine (renames.step agrees occur.1).bind fun outcome outcome' agrees => ?_
    cases agrees with
    | more stage stage' agrees => exact ih occur.2 agrees
    | ended => exact .fail _

theorem startNext (occurs : grammar.Occurs token) :
    Run.Both (Option.Rel (Stage.Agrees r grammar)) (grammar.startNext left token)
      (grammar'.startNext (left.rename r) (token.rename r)) := by
  have separates : grammar'.isSeparator (token.rename r).symbol = grammar.isSeparator token.symbol :=
    renames.isSeparator occurs.symbol
  rw [Grammar.startNext, Grammar.startNext, separates]
  split
  · exact (fetch_rename left _ _).bind fun _ _ _ => .ok .none
  · exact (renames.start .nil occurs).map fun _ _ agrees => .some agrees

theorem readAll (ending : Ending) (tokens : List Token)
    (occur : ∀ token ∈ tokens, grammar.Occurs token) {next next' : Option (Stage O)}
    (agrees : Option.Rel (Stage.Agrees r grammar) next next') :
    Run.Both (List.Forall₂ fun tree tree' => tree.value = tree'.value)
      (grammar.readAll ending tokens next)
      (grammar'.readAll (ending.rename r) (tokens.map (·.rename r)) next') := by
  induction tokens generalizing next next' with
  | nil =>
    cases agrees with
    | none => exact .ok .nil
    | some agrees =>
      rw [List.map_nil, Grammar.readAll, Grammar.readAll, ending.place_rename]
      exact (renames.finish ending.place agrees).map fun _ _ same => .cons same .nil
  | cons token tokens ih =>
    rw [List.forall_mem_cons] at occur
    rw [List.map_cons]
    cases agrees with
    | none =>
      rw [Grammar.readAll, Grammar.readAll]
      exact (renames.startNext occur.1).bind fun _ _ agrees => ih occur.2 agrees
    | some agrees =>
      rw [Grammar.readAll, Grammar.readAll]
      refine (renames.step agrees occur.1).bind fun outcome outcome' agrees => ?_
      cases agrees with
      | more stage stage' agrees => exact ih occur.2 (.some agrees)
      | ended tree tree' same =>
        exact (renames.startNext occur.1).bind fun _ _ agrees =>
          (ih occur.2 agrees).map fun _ _ rest => .cons same rest

theorem scan (input : Text) : (grammar'.scan input).unrolled = (grammar.scan input).unrolled.rename r := by
  rw [Grammar.scan, Grammar.scan, renames.scanFrom, Scan.unrolled_rename]

theorem parse (input : Text) : (grammar.parse input).result = (grammar'.parse input).result := by
  have trees : Run.Both (fun tree tree' => tree.value = tree'.value) (grammar.parseTree input)
      (grammar'.parseTree input) := by
    unfold parseTree
    rw [renames.scan input]
    exact (fetch_rename _ _ _).bind fun _ _ _ =>
      renames.readOne input _ _ (renames.consistent.occurs input) (.operand [] [] .nil)
  exact (trees.map fun _ _ same => same).result_eq

theorem parseAll (input : Text) :
    (grammar.parseAll input).result = (grammar'.parseAll input).result := by
  have trees : Run.Both (List.Forall₂ fun tree tree' => tree.value = tree'.value)
      (grammar.parseTrees input) (grammar'.parseTrees input) := by
    unfold parseTrees
    rw [renames.scan input]
    exact (fetch_rename _ _ _).bind fun _ _ _ =>
      renames.readAll _ _ (renames.consistent.occurs input) .none
  refine (trees.map fun rows rows' same => ?_).result_eq
  induction same with
  | nil => rfl
  | cons first _ ih => rw [List.map_cons, List.map_cons, first, ih]

end Grammar.Renames

end OpGrammar
