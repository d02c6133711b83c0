import Mathlib.Logic.Relation
import OpGrammar.Grammar.Basic
import OpGrammar.Proofs.History

/-!
# What a rule does to a grammar

A rule asks for the symbols of its patterns and gives one of them a use. `Step` says all that can
become of a grammar on the way, and a rule is a chain of such steps, also one that is refused. So
the lexicon of a grammar is one that entries make.
-/

namespace OpGrammar

variable {O : Type}

/-- The patterns for which a rule may make symbols. -/
def Rule.patterns : Rule O → List Text
  | .name _ _ => []
  | .brackets opening closing _ => [opening, closing]
  | .operand pattern _ | .infixLeft pattern _ _ | .infixRight pattern _ _ | .prefixOp pattern _ _
  | .postfixOp pattern _ _ | .separator pattern | .ignored pattern => [pattern]

def Rule.Enters (rule : Rule O) : Entry Nat → Prop
  | .meaning known text => ∃ pattern, rule = .name known pattern ∧ text = pattern
  | .pattern text _ => text ∈ rule.patterns

/-! ## Uses of a symbol -/

/-- What the tokens of a symbol come to be used for. -/
inductive Use (O : Type) where
  | starter (starter : Starter O)
  | follower (follower : Follower O)
  | aside (kind : Aside)

/-- The role with one more use, if it leaves room for that. -/
def Role.gain? : Role O → Use O → Option (Role O)
  | .expression none follower, .starter starter => some (.expression (some starter) follower)
  | .expression starter none, .follower follower => some (.expression starter (some follower))
  | .expression none none, .aside kind => some (.aside kind)
  | .aside kind, .aside kind' => if kind = kind' then some (.aside kind) else none
  | _, _ => none

namespace Grammar

variable {grammar : Grammar O} {pattern : Text} {use : Use O} {role : Role O} {id : Nat}

/-- The state that a change leaves, also one that is refused. -/
def resultState {ε σ α : Type} : EStateM.Result ε σ α → σ
  | .ok _ s | .error _ s => s

/-- The role that the symbol of a pattern has, or would have if it were made. -/
def roleAt (grammar : Grammar O) (pattern : Text) : Role O :=
  (grammar.roleOf? pattern).getD (.expression none none)

/-- The grammar with a symbol more, which has no use yet. -/
def withSymbol (grammar : Grammar O) (pattern : Text) : Grammar O :=
  { grammar with
    lexicon := grammar.lexicon.extend (.pattern pattern grammar.symbols.size)
    symbols := grammar.symbols.push ⟨pattern, .expression none none⟩ }

def withRole (grammar : Grammar O) (id : Nat) (role : Role O) : Grammar O :=
  { grammar with symbols := grammar.symbols.modify id ({ · with role }) }

theorem setRole_apply : setRole id role grammar = .ok () (grammar.withRole id role) := rfl

def pattern? (grammar : Grammar O) (id : Nat) : Option Text := grammar.symbols[id]?.map (·.pattern)

theorem symbolId?_eq_some : grammar.symbolId? pattern = some id ↔
    grammar.pattern? id = some pattern ∧ ∀ j < id, grammar.pattern? j ≠ some pattern := by
  unfold symbolId? pattern?
  rw [Array.findIdx?_eq_some_iff_getElem]
  constructor
  · rintro ⟨inside, same, first⟩
    refine ⟨by simpa [inside] using same, fun j before found => ?_⟩
    have inside' := Nat.lt_trans before inside
    exact first j before (by simpa [inside'] using found)
  · rintro ⟨found, first⟩
    obtain ⟨symbol, present, same⟩ := Option.map_eq_some_iff.1 found
    obtain ⟨inside, rfl⟩ := Array.getElem?_eq_some_iff.1 present
    refine ⟨inside, by simpa using same, fun j before same' => first j before ?_⟩
    have inside' := Nat.lt_trans before inside
    simpa [inside'] using same'

theorem symbolId?_eq_none : grammar.symbolId? pattern = none ↔
    ∀ id, grammar.pattern? id ≠ some pattern := by
  simp only [symbolId?, pattern?, Array.findIdx?_eq_none_iff]
  constructor
  · intro none id found
    obtain ⟨symbol, present, same⟩ := Option.map_eq_some_iff.1 found
    simpa [same] using none symbol (Array.mem_of_getElem? present)
  · intro none symbol mem
    obtain ⟨id, inside, rfl⟩ := Array.mem_iff_getElem.1 mem
    simpa [inside] using none id

theorem symbolId?_congr {grammar' : Grammar O} (same : grammar'.pattern? = grammar.pattern?) :
    grammar'.symbolId? pattern = grammar.symbolId? pattern :=
  Option.ext fun id => by simp only [symbolId?_eq_some, same]

theorem pattern?_isSome : (grammar.pattern? id).isSome ↔ id < grammar.symbols.size := by
  simp [pattern?]

@[simp]
theorem pattern?_withSymbol (id : Nat) : (grammar.withSymbol pattern).pattern? id =
    if id = grammar.symbols.size then some pattern else grammar.pattern? id := by
  simp only [pattern?, withSymbol, Array.getElem?_push]
  split <;> rfl

@[simp]
theorem role?_withSymbol (id : Nat) : (grammar.withSymbol pattern).role? id =
    if id = grammar.symbols.size then some (.expression none none) else grammar.role? id := by
  simp only [role?, withSymbol, Array.getElem?_push]
  split <;> rfl

@[simp]
theorem pattern?_withRole (id' : Nat) :
    (grammar.withRole id role).pattern? id' = grammar.pattern? id' := by
  simp only [pattern?, withRole, Array.getElem?_modify]
  split <;> simp [Function.comp_def]

@[simp]
theorem role?_withRole (id' : Nat) : (grammar.withRole id role).role? id' =
    if id = id' then (grammar.role? id').map fun _ => role else grammar.role? id' := by
  simp only [role?, withRole, Array.getElem?_modify]
  split <;> simp [Function.comp_def]

@[simp] theorem size_withSymbol :
    (grammar.withSymbol pattern).symbols.size = grammar.symbols.size + 1 := by
  simp [withSymbol]

@[simp] theorem size_withRole :
    (grammar.withRole id role).symbols.size = grammar.symbols.size := by
  simp [withRole]

theorem withRole_self (has : grammar.role? id = some role) :
    grammar.withRole id role = grammar := by
  refine congrArg (Grammar.mk · grammar.lexicon grammar.traced) (Array.ext_getElem? fun other => ?_)
  rw [Array.getElem?_modify]
  split
  · rename_i here
    obtain ⟨symbol, present, rfl⟩ := Option.map_eq_some_iff.1 has
    rw [← here, present, Option.map_some]
  · rfl

theorem role?_isSome : (grammar.role? id).isSome ↔ id < grammar.symbols.size := by
  simp [role?]

theorem lt_of_symbolId? (known : grammar.symbolId? pattern = some id) :
    id < grammar.symbols.size :=
  pattern?_isSome.1 (Option.isSome_of_eq_some (symbolId?_eq_some.1 known).1)

theorem role?_of_symbolId? (known : grammar.symbolId? pattern = some id) :
    grammar.role? id = some (grammar.roleAt pattern) := by
  obtain ⟨had, present⟩ := Option.isSome_iff_exists.1 (role?_isSome.2 (lt_of_symbolId? known))
  simp [roleAt, roleOf?, known, present]

theorem symbolId?_withSymbol (unknown : grammar.symbolId? pattern = none) (other : Text) :
    (grammar.withSymbol pattern).symbolId? other =
      if other = pattern then some grammar.symbols.size else grammar.symbolId? other := by
  unfold symbolId? at unknown ⊢
  rw [withSymbol, Array.findIdx?_push]
  by_cases same : other = pattern
  · subst same
    simp [unknown]
  · have other' : ¬pattern = other := fun eq => same eq.symm
    simp [same, other']

@[simp] theorem symbolId?_withRole (role : Role O) (other : Text) :
    (grammar.withRole id role).symbolId? other = grammar.symbolId? other :=
  symbolId?_congr (funext pattern?_withRole)

theorem roleAt_withSymbol (unknown : grammar.symbolId? pattern = none) (other : Text) :
    (grammar.withSymbol pattern).roleAt other = grammar.roleAt other := by
  unfold roleAt roleOf?
  rw [symbolId?_withSymbol unknown]
  by_cases same : other = pattern
  · subst same
    simp [unknown]
  · simp only [same, if_false]
    cases known : grammar.symbolId? other with
    | none => rfl
    | some id => simp [Nat.ne_of_lt (lt_of_symbolId? known)]

theorem roleAt_withRole (known : grammar.symbolId? pattern = some id) (role : Role O)
    (other : Text) : (grammar.withRole id role).roleAt other =
      if other = pattern then role else grammar.roleAt other := by
  unfold roleAt roleOf?
  rw [symbolId?_withRole]
  by_cases same : other = pattern
  · subst same
    simp [known, role?_of_symbolId? known]
  · simp only [same, if_false]
    cases known' : grammar.symbolId? other with
    | none => rfl
    | some id' =>
      have apart : id ≠ id' := by
        rintro rfl
        have found := (symbolId?_eq_some.1 known).1
        exact same (Option.some.inj ((symbolId?_eq_some.1 known').1.symm.trans found))
      simp [apart]

/-! ## A pattern gets a number -/

theorem addSymbol_old (known : grammar.symbolId? pattern = some id) :
    addSymbol pattern grammar = .ok id grammar := by
  simp only [addSymbol, bind_apply, get_apply, known, pure_apply]

theorem addSymbol_new (unknown : grammar.symbolId? pattern = none) {lexicon : Lexicon Nat}
    (taken : Lexicon.insert pattern grammar.symbols.size grammar.lexicon = .ok () lexicon) :
    addSymbol pattern grammar = .ok grammar.symbols.size
      { grammar with
        lexicon
        symbols := grammar.symbols.push ⟨pattern, .expression none none⟩ } := by
  simp only [addSymbol, bind_apply, get_apply, unknown, changeLexicon, taken, modify_apply,
    pure_apply]

theorem addSymbol_refused (unknown : grammar.symbolId? pattern = none) {e : LexiconError}
    {lexicon : Lexicon Nat}
    (refused : Lexicon.insert pattern grammar.symbols.size grammar.lexicon = .error e lexicon) :
    addSymbol pattern grammar = .error (.refused e) { grammar with lexicon } := by
  simp only [addSymbol, bind_apply, get_apply, unknown, changeLexicon, refused]

/-- What becomes of a grammar that is asked for the symbol of a pattern. -/
inductive Numbers (grammar : Grammar O) (pattern : Text) :
    EStateM.Result RuleError (Grammar O) Nat → Prop
  | old (id : Nat) (known : grammar.symbolId? pattern = some id) :
    Numbers grammar pattern (.ok id grammar)
  | new (unknown : grammar.symbolId? pattern = none)
    (accepts : grammar.lexicon.Accepts (.pattern pattern grammar.symbols.size)) :
    Numbers grammar pattern (.ok grammar.symbols.size (grammar.withSymbol pattern))
  | refused (e : LexiconError) (unknown : grammar.symbolId? pattern = none)
    (refuses : ¬grammar.lexicon.Accepts (.pattern pattern grammar.symbols.size)) :
    Numbers grammar pattern (.error (.refused e) { grammar with
      lexicon := grammar.lexicon.extend (.pattern pattern grammar.symbols.size) })

theorem addSymbol_numbers (grammar : Grammar O) (pattern : Text) :
    grammar.Numbers pattern (addSymbol pattern grammar) := by
  cases known : grammar.symbolId? pattern with
  | some id =>
    rw [addSymbol_old known]
    exact .old id known
  | none =>
    cases taken : Lexicon.insert pattern grammar.symbols.size grammar.lexicon with
    | ok _ lexicon =>
      have numbers := Numbers.new known ⟨lexicon, taken⟩
      rw [withSymbol, Lexicon.extend_pattern, taken] at numbers
      rwa [addSymbol_new known taken]
    | error e lexicon =>
      have refuses : ¬grammar.lexicon.Accepts (.pattern pattern grammar.symbols.size) := by
        rintro ⟨lexicon', taken'⟩
        cases taken.symm.trans taken'
      have numbers := Numbers.refused e known refuses
      rw [Lexicon.extend_pattern, taken] at numbers
      rwa [addSymbol_refused known taken]

theorem numbers_of_eq {result : EStateM.Result RuleError (Grammar O) Nat}
    (numbered : addSymbol pattern grammar = result) : grammar.Numbers pattern result :=
  numbered ▸ addSymbol_numbers grammar pattern

theorem Numbers.role?_left {left : Grammar O} (numbers : grammar.Numbers pattern (.ok id left)) :
    left.role? id = some (grammar.roleAt pattern) := by
  cases numbers with
  | old _ known => exact role?_of_symbolId? known
  | new unknown => simp [roleAt, roleOf?, unknown]

theorem Numbers.symbolId?_left {left : Grammar O} (numbers : grammar.Numbers pattern (.ok id left))
    (other : Text) :
    left.symbolId? other = if other = pattern then some id else grammar.symbolId? other := by
  cases numbers with
  | old _ known =>
    split
    · rename_i same
      exact same ▸ known
    · rfl
  | new unknown => exact symbolId?_withSymbol unknown other

theorem Numbers.roleAt_left {left : Grammar O} (numbers : grammar.Numbers pattern (.ok id left))
    (other : Text) : left.roleAt other = grammar.roleAt other := by
  cases numbers with
  | old => rfl
  | new unknown => exact roleAt_withSymbol unknown other

/-! ## A pattern gets a use -/

/-- What becomes of a grammar when a pattern is given a use. -/
inductive AddsUse (grammar : Grammar O) (pattern : Text) (use : Use O) :
    EStateM.Result RuleError (Grammar O) Unit → Prop
  /-- The symbol has a use that leaves no room for this one. -/
  | taken (e : RuleError) (full : (grammar.roleAt pattern).gain? use = none) :
    AddsUse grammar pattern use (.error e grammar)
  /-- The lexicon refuses the pattern. -/
  | refused (e : RuleError) (left : Grammar O) (role : Role O)
    (gains : (grammar.roleAt pattern).gain? use = some role)
    (numbered : addSymbol pattern grammar = .error e left) :
    AddsUse grammar pattern use (.error e left)
  | added (id : Nat) (left : Grammar O) (role : Role O)
    (gains : (grammar.roleAt pattern).gain? use = some role)
    (numbered : addSymbol pattern grammar = .ok id left) :
    AddsUse grammar pattern use (.ok () (left.withRole id role))

section Uses

variable {check : Change O Unit} {next : Nat → Change O Unit}

theorem addsUse_of_error (full : (grammar.roleAt pattern).gain? use = none)
    (refuses : ∃ e, check grammar = .error e grammar) :
    grammar.AddsUse pattern use ((check >>= fun _ => addSymbol pattern >>= next) grammar) := by
  obtain ⟨e, refuses⟩ := refuses
  rw [bind_apply, refuses]
  exact .taken e full

theorem addsUse_of_ok (gains : (grammar.roleAt pattern).gain? use = some role)
    (passes : check grammar = .ok () grammar)
    (sets : ∀ id left, left.role? id = some (grammar.roleAt pattern) →
      next id left = .ok () (left.withRole id role)) :
    grammar.AddsUse pattern use ((check >>= fun _ => addSymbol pattern >>= next) grammar) := by
  rw [bind_apply, passes]
  dsimp only
  rw [bind_apply]
  cases numbered : addSymbol pattern grammar with
  | error e left => exact .refused e left role gains numbered
  | ok id left =>
    dsimp only
    rw [sets id left (numbers_of_eq numbered).role?_left]
    exact .added id left role gains numbered

end Uses

theorem addStarter_uses (grammar : Grammar O) (pattern : Text) (starter : Starter O) :
    grammar.AddsUse pattern (.starter starter) (addStarter pattern starter grammar) := by
  have free (follower : Option (Follower O))
      (room : grammar.roleAt pattern = .expression none follower)
      (passes : requireNoStarter pattern grammar = .ok () grammar) :
      grammar.AddsUse pattern (.starter starter) (addStarter pattern starter grammar) := by
    have gains : (grammar.roleAt pattern).gain? (.starter starter) =
        some (.expression (some starter) follower) := by rw [room, Role.gain?]
    exact addsUse_of_ok gains passes fun id left had => by
      simp [had, room, setRole_apply, Role.follower?]
  rcases has : grammar.roleOf? pattern with _ | ⟨_ | _, follower⟩ | _
  case none => exact free none (by simp [roleAt, has]) (by simp [requireNoStarter, has])
  case some.expression.none =>
    exact free follower (by simp [roleAt, has]) (by simp [requireNoStarter, has])
  all_goals
    exact addsUse_of_error (by simp [roleAt, has, Role.gain?]) (by simp [requireNoStarter, has])

theorem addFollower_uses (grammar : Grammar O) (pattern : Text) (follower : Follower O) :
    grammar.AddsUse pattern (.follower follower) (addFollower pattern follower grammar) := by
  have free (starter : Option (Starter O))
      (room : grammar.roleAt pattern = .expression starter none)
      (passes : requireNoFollower pattern grammar = .ok () grammar) :
      grammar.AddsUse pattern (.follower follower) (addFollower pattern follower grammar) := by
    have gains : (grammar.roleAt pattern).gain? (.follower follower) =
        some (.expression starter (some follower)) := by rw [room, Role.gain?]
    exact addsUse_of_ok gains passes fun id left had => by
      simp [had, room, setRole_apply, Role.starter?]
  rcases has : grammar.roleOf? pattern with _ | ⟨starter, _ | _⟩ | _
  case none => exact free none (by simp [roleAt, has]) (by simp [requireNoFollower, has])
  case some.expression.none =>
    exact free starter (by simp [roleAt, has]) (by simp [requireNoFollower, has])
  all_goals
    exact addsUse_of_error (by simp [roleAt, has, Role.gain?]) (by simp [requireNoFollower, has])

theorem addAside_uses (grammar : Grammar O) (pattern : Text) (kind : Aside) :
    grammar.AddsUse pattern (.aside kind) (addAside pattern kind grammar) := by
  have free (gains : (grammar.roleAt pattern).gain? (.aside kind) = some (.aside kind))
      (passes : requireAside pattern kind grammar = .ok () grammar) :
      grammar.AddsUse pattern (.aside kind) (addAside pattern kind grammar) :=
    addsUse_of_ok gains passes fun id left _ => rfl
  rcases has : grammar.roleOf? pattern with _ | ⟨_ | _, _ | _⟩ | kind'
  case none | some.expression.none.none =>
    exact free (by simp [roleAt, has, Role.gain?]) (by simp [requireAside, has])
  case some.aside =>
    by_cases same : kind' = kind
    · exact free (by simp [roleAt, has, Role.gain?, same]) (by simp [requireAside, has, same])
    · exact addsUse_of_error (by simp [roleAt, has, Role.gain?, same])
        (by simp [requireAside, has, same])
  all_goals
    exact addsUse_of_error (by simp [roleAt, has, Role.gain?]) (by simp [requireAside, has])

end Grammar

/-- The pattern that a rule gives a use, and which. Brackets have to find their closing one first. -/
def Rule.use? : Rule O → Option (Text × Use O)
  | .operand pattern make => some (pattern, .starter (.operand make))
  | .prefixOp pattern power apply => some (pattern, .starter (.prefixOp power apply))
  | .infixLeft pattern power combine => some (pattern, .follower (.infixLeft power combine))
  | .infixRight pattern power combine => some (pattern, .follower (.infixRight power combine))
  | .postfixOp pattern power apply => some (pattern, .follower (.postfixOp power apply))
  | .separator pattern => some (pattern, .aside .separator)
  | .ignored pattern => some (pattern, .aside .ignored)
  | .name _ _ | .brackets _ _ _ => none

def Rule.Gives (rule : Rule O) : Use O → Prop
  | .starter (.bracket _ wrap) => ∃ opening closing, rule = .brackets opening closing wrap
  | use => ∃ pattern, rule.use? = some (pattern, use)

theorem Rule.gives_of_use? {rule : Rule O} {pattern : Text} {use : Use O}
    (uses : rule.use? = some (pattern, use)) : rule.Gives use := by
  cases rule <;> cases uses <;> exact ⟨pattern, rfl⟩

namespace Grammar

variable {grammar : Grammar O} {pattern : Text} {use : Use O} {role : Role O} {id : Nat}

theorem add_uses {rule : Rule O} (uses : rule.use? = some (pattern, use)) :
    grammar.AddsUse pattern use (add rule grammar) := by
  cases rule with
  | operand | prefixOp =>
    cases uses
    exact addStarter_uses ..
  | infixLeft | infixRight | postfixOp =>
    cases uses
    exact addFollower_uses ..
  | separator | ignored =>
    cases uses
    exact addAside_uses ..
  | name | brackets => cases uses

/-- What becomes of a grammar when brackets are added. -/
inductive AddsBrackets (grammar : Grammar O) (opening closing : Text) (wrap : O → O) :
    EStateM.Result RuleError (Grammar O) Unit → Prop
  | taken (e : RuleError) (full : ∀ starter, (grammar.roleAt opening).gain? (.starter starter) = none) :
    AddsBrackets grammar opening closing wrap (.error e grammar)
  | refused (e : RuleError) (left : Grammar O)
    (free : ∀ starter, ∃ role, (grammar.roleAt opening).gain? (.starter starter) = some role)
    (numbered : addSymbol closing grammar = .error e left) :
    AddsBrackets grammar opening closing wrap (.error e left)
  | closes (id : Nat) (half : Grammar O) (result : EStateM.Result RuleError (Grammar O) Unit)
    (free : ∀ starter, ∃ role, (grammar.roleAt opening).gain? (.starter starter) = some role)
    (numbered : addSymbol closing grammar = .ok id half)
    (opens : half.AddsUse opening (.starter (.bracket id wrap)) result) :
    AddsBrackets grammar opening closing wrap result

theorem add_brackets (grammar : Grammar O) (opening closing : Text) (wrap : O → O) :
    grammar.AddsBrackets opening closing wrap (add (.brackets opening closing wrap) grammar) := by
  have free (room : ∀ starter, ∃ role, (grammar.roleAt opening).gain? (.starter starter) = some role)
      (passes : requireNoStarter opening grammar = .ok () grammar) :
      grammar.AddsBrackets opening closing wrap (add (.brackets opening closing wrap) grammar) := by
    rw [add, bind_apply, passes]
    dsimp only
    rw [bind_apply]
    cases numbered : addSymbol closing grammar with
    | error e left => exact .refused e left room numbered
    | ok id half => exact .closes id half _ room numbered (addStarter_uses half opening _)
  rcases has : grammar.roleOf? opening with _ | ⟨_ | _, _⟩ | _
  case none | some.expression.none =>
    exact free (by simp [roleAt, has, Role.gain?]) (by simp [requireNoStarter, has])
  all_goals
    have full (starter : Starter O) : (grammar.roleAt opening).gain? (.starter starter) = none := by
      simp [roleAt, has, Role.gain?]
    simp only [add, bind_apply, requireNoStarter, get_apply, has, throw_apply]
    exact .taken _ full

/-! ## Steps -/

/-- What can become of a grammar on the way through a rule. -/
inductive Step (rule : Rule O) (grammar : Grammar O) : Grammar O → Prop
  /-- A name gets a meaning, or the lexicon refuses a pattern. -/
  | entered (entry : Entry Nat) (enters : rule.Enters entry)
    (refuses : ∀ text value, entry = .pattern text value → ¬grammar.lexicon.Accepts entry) :
    Step rule grammar { grammar with lexicon := grammar.lexicon.extend entry }
  | numbered (pattern : Text) (enters : rule.Enters (.pattern pattern grammar.symbols.size))
    (unknown : grammar.symbolId? pattern = none)
    (accepts : grammar.lexicon.Accepts (.pattern pattern grammar.symbols.size)) :
    Step rule grammar (grammar.withSymbol pattern)
  | gained (id : Nat) (had role : Role O) (use : Use O) (present : grammar.role? id = some had)
    (gives : rule.Gives use) (gains : had.gain? use = some role)
    (closes : ∀ closing wrap, use = .starter (.bracket closing wrap) →
      closing < grammar.symbols.size) :
    Step rule grammar (grammar.withRole id role)

/-- What can become of a grammar by some steps. -/
def Evolves (rule : Rule O) : Grammar O → Grammar O → Prop :=
  Relation.ReflTransGen (Step rule)

section Evolves

variable {rule : Rule O}

theorem Step.evolves {left : Grammar O} (step : Step rule grammar left) :
    Evolves rule grammar left :=
  .single step

theorem Numbers.evolves {result : EStateM.Result RuleError (Grammar O) Nat}
    (numbers : grammar.Numbers pattern result) (mem : pattern ∈ rule.patterns) :
    Evolves rule grammar (resultState result) := by
  cases numbers with
  | old id known => exact .refl
  | new unknown accepts => exact (Step.numbered pattern mem unknown accepts).evolves
  | refused e unknown refuses => exact (Step.entered (.pattern _ _) mem fun _ _ _ => refuses).evolves

theorem Numbers.size_le {left : Grammar O} (numbers : grammar.Numbers pattern (.ok id left)) :
    id < left.symbols.size ∧ grammar.symbols.size ≤ left.symbols.size := by
  cases numbers with
  | old _ known => exact ⟨lt_of_symbolId? known, Nat.le_refl _⟩
  | new => simp

theorem AddsUse.evolves {result : EStateM.Result RuleError (Grammar O) Unit}
    (adds : grammar.AddsUse pattern use result) (mem : pattern ∈ rule.patterns)
    (gives : rule.Gives use)
    (closes : ∀ closing wrap, use = .starter (.bracket closing wrap) →
      closing < grammar.symbols.size) : Evolves rule grammar (resultState result) := by
  cases adds with
  | taken => exact .refl
  | refused e left role gains numbered => exact (numbers_of_eq numbered).evolves mem
  | added id left role gains numbered =>
    have numbers := numbers_of_eq numbered
    refine (numbers.evolves mem).trans
      (Step.gained id _ role use numbers.role?_left gives gains ?_).evolves
    exact fun closing wrap eq => Nat.lt_of_lt_of_le (closes closing wrap eq) numbers.size_le.2

theorem AddsBrackets.evolves {opening closing : Text} {wrap : O → O}
    {result : EStateM.Result RuleError (Grammar O) Unit}
    (adds : grammar.AddsBrackets opening closing wrap result) :
    Evolves (.brackets opening closing wrap) grammar (resultState result) := by
  have first : closing ∈ (Rule.brackets opening closing wrap).patterns := by simp [Rule.patterns]
  have last : opening ∈ (Rule.brackets opening closing wrap).patterns := by simp [Rule.patterns]
  cases adds with
  | taken => exact .refl
  | refused e left _ numbered => exact (numbers_of_eq numbered).evolves first
  | closes id half result _ numbered opens =>
    have numbers := numbers_of_eq numbered
    refine (numbers.evolves first).trans (opens.evolves last ⟨opening, closing, rfl⟩ ?_)
    rintro _ _ ⟨⟩
    exact numbers.size_le.1

theorem evolves_add (grammar : Grammar O) (rule : Rule O) :
    Evolves rule grammar (resultState (add rule grammar)) := by
  cases rule with
  | name name pattern =>
    have entered : Step (.name name pattern) grammar _ :=
      .entered (.meaning name pattern) ⟨pattern, rfl, rfl⟩ fun _ _ eq => nomatch eq
    have left : resultState (add (.name name pattern) grammar) =
        { grammar with lexicon := grammar.lexicon.extend (.meaning name pattern) } := by
      rw [add, changeLexicon, Lexicon.extend_meaning]
      cases Lexicon.setMeaning name pattern grammar.lexicon <;> rfl
    exact left ▸ entered.evolves
  | brackets opening closing wrap => exact (grammar.add_brackets opening closing wrap).evolves
  | _ => exact (add_uses rfl).evolves (by simp [Rule.patterns]) (Rule.gives_of_use? rfl) (by simp)

end Evolves

/-! ## All rules -/

theorem extend_eq (grammar : Grammar O) (rule : Rule O) :
    grammar.extend rule = resultState (add rule grammar) := by
  unfold extend
  cases add rule grammar <;> rfl

theorem ofRules_append (rules more : List (Rule O)) :
    ofRules (rules ++ more) = more.foldl extend (ofRules rules) := by
  simp [ofRules]

theorem ofRules_induction {motive : List (Entry Nat) → Grammar O → Prop}
    (start : motive [] empty)
    (entered : ∀ entries grammar entry, motive entries grammar →
      (∀ text value, entry = .pattern text value → ¬grammar.lexicon.Accepts entry) →
      motive (entries ++ [entry]) { grammar with lexicon := grammar.lexicon.extend entry })
    (numbered : ∀ entries grammar pattern, motive entries grammar →
      grammar.symbolId? pattern = none →
      grammar.lexicon.Accepts (.pattern pattern grammar.symbols.size) →
      motive (entries ++ [.pattern pattern grammar.symbols.size]) (grammar.withSymbol pattern))
    (gained : ∀ entries grammar id had role use, motive entries grammar →
      grammar.role? id = some had → had.gain? use = some role →
      (∀ closing wrap, use = .starter (.bracket closing wrap) → closing < grammar.symbols.size) →
      motive entries (grammar.withRole id role))
    (rules : List (Rule O)) :
    ∃ entries, motive entries (ofRules rules) ∧
      ∀ entry ∈ entries, ∃ rule ∈ rules, rule.Enters entry := by
  induction rules using List.reverseRecOn with
  | nil => exact ⟨[], start, by simp⟩
  | append_singleton rules rule ih =>
    rw [ofRules_append, List.foldl_cons, List.foldl_nil, extend_eq]
    have evolves := (ofRules rules).evolves_add rule
    generalize resultState (add rule (ofRules rules)) = left at evolves
    -- The entries of the last rule come one by one along its steps.
    induction evolves with
    | refl =>
      obtain ⟨entries, holds, made⟩ := ih
      exact ⟨entries, holds, fun entry mem => by
        obtain ⟨rule', mem', enters⟩ := made entry mem
        exact ⟨rule', List.mem_append_left _ mem', enters⟩⟩
    | tail _ step ih =>
      obtain ⟨entries, holds, made⟩ := ih
      have more (entry : Entry Nat) (enters : rule.Enters entry) :
          ∀ e ∈ entries ++ [entry], ∃ rule' ∈ rules ++ [rule], rule'.Enters e := by
        intro e mem
        rcases List.mem_append.1 mem with mem | mem
        · exact made e mem
        · exact ⟨rule, by simp, List.mem_singleton.1 mem ▸ enters⟩
      cases step with
      | entered entry enters refuses =>
        exact ⟨_, entered entries _ entry holds refuses, more entry enters⟩
      | numbered pattern enters unknown accepts =>
        exact ⟨_, numbered entries _ pattern holds unknown accepts, more _ enters⟩
      | gained id had role use present _ gains closes =>
        exact ⟨entries, gained entries _ id had role use holds present gains closes, made⟩

theorem lexicon_ofRules (rules : List (Rule O)) :
    ∃ entries, (ofRules rules).lexicon = Lexicon.ofEntries entries ∧
      ∀ entry ∈ entries, ∃ rule ∈ rules, rule.Enters entry := by
  refine ofRules_induction (motive := fun entries grammar =>
    grammar.lexicon = Lexicon.ofEntries entries) rfl ?_ ?_ ?_ rules
  · intro entries grammar entry made _
    simp [Lexicon.ofEntries_concat, made]
  · intro entries grammar pattern made _ _
    simp [Lexicon.ofEntries_concat, withSymbol, made]
  · exact fun entries grammar id had role use made _ _ _ => made

end Grammar

end OpGrammar
