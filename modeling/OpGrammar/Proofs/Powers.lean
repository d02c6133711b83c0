import OpGrammar.Proofs.Renaming

/-!
# The order of the powers

Only the order of the powers matters, with 0 among them. Rules with other powers in the same order
make the same grammar with these powers, which gives the same answers.
-/

namespace OpGrammar

variable {O : Type} {f : Power → Power}

def Rule.power? : Rule O → Option Power
  | .infixLeft _ power _ | .infixRight _ power _ | .prefixOp _ power _ | .postfixOp _ power _ =>
    some power
  | _ => none

def Rule.mapPower (f : Power → Power) : Rule O → Rule O
  | .infixLeft pattern power combine => .infixLeft pattern (f power) combine
  | .infixRight pattern power combine => .infixRight pattern (f power) combine
  | .prefixOp pattern power apply => .prefixOp pattern (f power) apply
  | .postfixOp pattern power apply => .postfixOp pattern (f power) apply
  | rule => rule

def PowerOf (rules : List (Rule O)) (power : Power) : Prop :=
  power = 0 ∨ ∃ rule ∈ rules, rule.power? = some power

def Renaming.powers (f : Power → Power) : Renaming := ⟨id, f⟩

/-! ## Uses -/

def Use.power? : Use O → Option Power
  | .starter (.prefixOp power _) => some power
  | .follower goesOn => some goesOn.power
  | _ => none

theorem Role.gain?_rename (r : Renaming) (role : Role O) (use : Use O) :
    (role.rename r).gain? (use.rename r) = (role.gain? use).map (·.rename r) := by
  rcases role with ⟨_ | _, _ | _⟩ | kind <;> rcases use with _ | _ | kind' <;> try rfl
  simp only [Role.rename, Use.rename, Role.gain?]
  split <;> rfl

theorem Rule.use?_mapPower (f : Power → Power) (rule : Rule O) : (rule.mapPower f).use? =
    rule.use?.map fun (pattern, use) => (pattern, use.rename (.powers f)) := by
  cases rule <;> rfl

theorem Role.has_of_gain? {had role : Role O} {use : Use O} {power : Power}
    (gains : had.gain? use = some role) (has : role.Has power) :
    had.Has power ∨ use.power? = some power := by
  rcases has with ⟨apply, starts⟩ | ⟨follower, follows, rfl⟩
  · rcases Role.starter?_of_gain? gains with same | ⟨-, starter, rfl, new⟩
    · exact .inl (.inl ⟨apply, same ▸ starts⟩)
    · obtain rfl := Option.some.inj (new.symm.trans starts)
      exact .inr rfl
  · rcases Role.follower?_of_gain? gains with same | ⟨-, follower', rfl, new⟩
    · exact .inl (.inr ⟨follower, same ▸ follows, rfl⟩)
    · obtain rfl := Option.some.inj (new.symm.trans follows)
      exact .inr rfl

theorem Rule.power?_of_gives {rule : Rule O} {use : Use O} {power : Power} (gives : rule.Gives use)
    (has : use.power? = some power) : rule.power? = some power := by
  have given (pattern : Text) (uses : rule.use? = some (pattern, use)) :
      rule.power? = some power := by
    cases rule <;> cases uses <;> exact has
  unfold Gives at gives
  split at gives
  · cases has
  · obtain ⟨pattern, uses⟩ := gives
    exact given pattern uses

namespace Grammar

variable {grammar grammar' : Grammar O} {pattern : Text} {use : Use O}

/-! ## Powers of the rules -/

theorem Step.hasPower {rule : Rule O} {power : Power} (step : Step rule grammar grammar')
    (has : grammar'.HasPower power) : grammar.HasPower power ∨ rule.power? = some power := by
  rcases has with rfl | ⟨id, role, present, has⟩
  · exact .inl (.inl rfl)
  cases step with
  | entered => exact .inl (.inr ⟨id, role, present, has⟩)
  | numbered pattern =>
    rw [role?_withSymbol] at present
    split at present
    · obtain rfl := Option.some.inj present
      simp [Role.Has, Role.starter?, Role.follower?] at has
    · exact .inl (.inr ⟨id, role, present, has⟩)
  | gained id' had role' use present' gives gains =>
    rw [role?_withRole] at present
    split at present
    · rename_i same
      subst same
      rw [present', Option.map_some] at present
      obtain rfl := Option.some.inj present
      rcases Role.has_of_gain? gains has with has | has
      · exact .inl (.inr ⟨id', had, present', has⟩)
      · exact .inr (Rule.power?_of_gives gives has)
    · exact .inl (.inr ⟨id, role, present, has⟩)

theorem Evolves.hasPower {rule : Rule O} {power : Power} (evolves : Evolves rule grammar grammar')
    (has : grammar'.HasPower power) : grammar.HasPower power ∨ rule.power? = some power := by
  induction evolves with
  | refl => exact .inl has
  | tail _ step ih =>
    rcases step.hasPower has with has | given
    · exact ih has
    · exact .inr given

theorem powerOf_of_hasPower {rules : List (Rule O)} {power : Power}
    (has : (ofRules rules).HasPower power) : PowerOf rules power := by
  induction rules using List.reverseRecOn with
  | nil => simpa [HasPower, ofRules, empty, role?, PowerOf] using has
  | append_singleton rules rule ih =>
    rw [ofRules_append, List.foldl_cons, List.foldl_nil, extend_eq] at has
    rcases ((ofRules rules).evolves_add rule).hasPower has with has | given
    · refine (ih has).imp_right ?_
      rintro ⟨rule', mem, given⟩
      exact ⟨rule', List.mem_append_left _ mem, given⟩
    · exact .inr ⟨rule, by simp, given⟩

/-! ## The grammar with other powers -/

def mapPower (f : Power → Power) (grammar : Grammar O) : Grammar O :=
  { grammar with
    symbols := grammar.symbols.map fun symbol => { symbol with role := symbol.role.rename (.powers f) } }

@[simp] theorem pattern?_mapPower (id : Nat) :
    (grammar.mapPower f).pattern? id = grammar.pattern? id := by
  simp [mapPower, pattern?, Function.comp_def]

@[simp] theorem role?_mapPower (id : Nat) :
    (grammar.mapPower f).role? id = (grammar.role? id).map (·.rename (.powers f)) := by
  simp [mapPower, role?, Function.comp_def]

@[simp] theorem symbolId?_mapPower (pattern : Text) :
    (grammar.mapPower f).symbolId? pattern = grammar.symbolId? pattern :=
  symbolId?_congr (funext pattern?_mapPower)

@[simp] theorem size_mapPower : (grammar.mapPower f).symbols.size = grammar.symbols.size := by
  simp [mapPower]

theorem roleAt_mapPower (pattern : Text) :
    (grammar.mapPower f).roleAt pattern = (grammar.roleAt pattern).rename (.powers f) := by
  unfold roleAt roleOf?
  rw [symbolId?_mapPower]
  cases grammar.symbolId? pattern with
  | none => rfl
  | some id =>
    rw [Option.bind_some, Option.bind_some, role?_mapPower]
    cases grammar.role? id <;> rfl

theorem withRole_mapPower (id : Nat) (role : Role O) :
    (grammar.mapPower f).withRole id (role.rename (.powers f)) =
      (grammar.withRole id role).mapPower f := by
  simp only [withRole, mapPower]
  congr 1
  apply Array.ext_getElem?
  intro i
  simp only [Array.getElem?_modify, Array.getElem?_map]
  split <;> simp [Function.comp_def]

def mapResult {α : Type} (f : Power → Power) :
    EStateM.Result RuleError (Grammar O) α → EStateM.Result RuleError (Grammar O) α
  | .ok a left => .ok a (left.mapPower f)
  | .error e left => .error e (left.mapPower f)

theorem addSymbol_mapPower (pattern : Text) :
    addSymbol pattern (grammar.mapPower f) = mapResult f (addSymbol pattern grammar) := by
  unfold addSymbol
  simp only [bind_apply, get_apply, symbolId?_mapPower, size_mapPower]
  cases grammar.symbolId? pattern with
  | some id => rfl
  | none =>
    simp only [bind_apply, changeLexicon]
    rw [show (grammar.mapPower f).lexicon = grammar.lexicon from rfl]
    cases Lexicon.insert pattern grammar.symbols.size grammar.lexicon with
    | error e lexicon => rfl
    | ok _ lexicon => simp [mapResult, mapPower, Role.rename]

/-- The grammar after a pattern is given a use, if there is room for it. -/
def withUse (grammar : Grammar O) (pattern : Text) (use : Use O) : Grammar O :=
  match (grammar.roleAt pattern).gain? use, addSymbol pattern grammar with
  | none, _ => grammar
  | some role, .ok id left => left.withRole id role
  | some _, .error _ left => left

theorem AddsUse.left {result : EStateM.Result RuleError (Grammar O) Unit}
    (adds : grammar.AddsUse pattern use result) : resultState result = grammar.withUse pattern use := by
  unfold withUse
  cases adds with
  | taken e full => simp [resultState, full]
  | refused e left role gains numbered => simp [resultState, gains, numbered]
  | added id left role gains numbered => simp [resultState, gains, numbered]

theorem extend_of_use? {rule : Rule O} (uses : rule.use? = some (pattern, use)) :
    grammar.extend rule = grammar.withUse pattern use := by
  rw [extend_eq, (add_uses uses).left]

theorem withUse_mapPower (pattern : Text) (use : Use O) :
    (grammar.mapPower f).withUse pattern (use.rename (.powers f)) =
    (grammar.withUse pattern use).mapPower f := by
  unfold withUse
  rw [roleAt_mapPower, Role.gain?_rename, addSymbol_mapPower]
  cases (grammar.roleAt pattern).gain? use with
  | none => rfl
  | some role =>
    cases addSymbol pattern grammar with
    | error e left => rfl
    | ok id left => exact withRole_mapPower id role

theorem AddsBrackets.left {opening closing : Text} {wrap : O → O}
    {result : EStateM.Result RuleError (Grammar O) Unit}
    (adds : grammar.AddsBrackets opening closing wrap result) :
    resultState result =
      match (grammar.roleAt opening).gain? (.starter (.bracket 0 wrap)), addSymbol closing grammar with
      | none, _ => grammar
      | some _, .ok id half => half.withUse opening (.starter (.bracket id wrap))
      | some _, .error _ left => left := by
  cases adds with
  | taken e full => simp [resultState, full]
  | refused e left free numbered =>
    obtain ⟨role, gains⟩ := free (.bracket 0 wrap)
    simp [resultState, gains, numbered]
  | closes id half result free numbered opens =>
    obtain ⟨role, gains⟩ := free (.bracket 0 wrap)
    simp [gains, numbered, opens.left]

theorem extend_mapPower (rule : Rule O) :
    (grammar.mapPower f).extend (rule.mapPower f) = (grammar.extend rule).mapPower f := by
  cases uses : rule.use? with
  | some given =>
    obtain ⟨pattern, use⟩ := given
    have uses' := Rule.use?_mapPower f rule
    rw [uses, Option.map_some] at uses'
    rw [extend_of_use? uses, extend_of_use? uses', withUse_mapPower]
  | none =>
    rw [extend_eq, extend_eq]
    cases rule with
    | name name pattern =>
      simp only [Rule.mapPower, add, changeLexicon]
      rw [show (grammar.mapPower f).lexicon = grammar.lexicon from rfl]
      cases Lexicon.setMeaning name pattern grammar.lexicon <;> rfl
    | brackets opening closing wrap =>
      have gains : ((grammar.roleAt opening).rename (.powers f)).gain? (.starter (.bracket 0 wrap)) =
          ((grammar.roleAt opening).gain? (.starter (.bracket 0 wrap))).map (·.rename (.powers f)) :=
        Role.gain?_rename (.powers f) _ (.starter (.bracket 0 wrap))
      simp only [Rule.mapPower, (add_brackets _ opening closing wrap).left, roleAt_mapPower,
        addSymbol_mapPower, gains]
      cases (grammar.roleAt opening).gain? (.starter (.bracket 0 wrap)) with
      | none => rfl
      | some role =>
        cases addSymbol closing grammar with
        | error e left => rfl
        | ok id half => exact withUse_mapPower opening (.starter (.bracket id wrap))
    | _ => cases uses

theorem ofRules_mapPower (rules : List (Rule O)) :
    ofRules (rules.map (·.mapPower f)) = (ofRules rules).mapPower f := by
  induction rules using List.reverseRecOn with
  | nil => simp [ofRules, empty, mapPower]
  | append_singleton rules rule ih =>
    rw [List.map_append, ofRules_append, ih, ofRules_append]
    exact extend_mapPower rule

/-! ## The order -/

theorem lt_iff_lt_of_increases {used : Power → Prop}
    (increases : ∀ p q, used p → used q → p < q → f p < f q) {p q : Power} (left : used p)
    (right : used q) : f p < f q ↔ p < q := by
  refine ⟨fun lt => ?_, increases p q left right⟩
  by_contra not_lt
  rcases Int32.le_iff_lt_or_eq.1 (Int32.not_lt.1 not_lt) with gt | rfl
  · exact Int32.lt_asymm lt (increases q p right left gt)
  · exact Int32.lt_irrefl lt

theorem renames_mapPower {rules : List (Rule O)} (zero : f 0 = 0)
    (increases : ∀ p q, PowerOf rules p → PowerOf rules q → p < q → f p < f q) :
    Renames (.powers f) (ofRules rules) ((ofRules rules).mapPower f) where
  consistent := by
    obtain ⟨entries, records, -⟩ := ofRules_records rules
    exact records.consistent
  pattern id _ := pattern?_mapPower id
  role id _ := role?_mapPower id
  injective _ _ _ _ same := same
  longest _ := rfl
  order p q has has' :=
    lt_iff_lt_of_increases increases (powerOf_of_hasPower has) (powerOf_of_hasPower has')
  zero := zero

end Grammar

/-- With other powers in the same order, among themselves and with 0, the rules make a grammar that
gives the same answers. -/
theorem parse_mapPower (rules : List (Rule O)) (f : Power → Power) (zero : f 0 = 0)
    (increases : ∀ p q, PowerOf rules p → PowerOf rules q → p < q → f p < f q) (input : Text) :
    ((Grammar.ofRules (rules.map (·.mapPower f))).parse input).result =
        ((Grammar.ofRules rules).parse input).result ∧
      ((Grammar.ofRules (rules.map (·.mapPower f))).parseAll input).result =
        ((Grammar.ofRules rules).parseAll input).result := by
  have renames := Grammar.renames_mapPower zero increases
  rw [Grammar.ofRules_mapPower]
  exact ⟨(renames.parse input).symm, (renames.parseAll input).symm⟩

theorem parse_mapPower_extremes :
    let rules : List (Rule Text) := [.operand "[0-9]".toList id, .prefixOp ['-'] (-3) ('-' :: ·),
      .infixLeft ['+'] 2 (fun a b => '(' :: a ++ '+' :: b ++ [')']),
      .infixRight ['^'] 5 (fun a b => '(' :: a ++ '^' :: b ++ [')'])]
    let f : Power → Power := fun p =>
      if p = -3 then Int32.minValue else if p = 5 then Int32.maxValue else p
    ((Grammar.ofRules rules).parse "-1^2^3+4".toList).result = .ok "-((1^(2^3))+4)".toList ∧
      ((Grammar.ofRules (rules.map (·.mapPower f))).parse "-1^2^3+4".toList).result =
        ((Grammar.ofRules rules).parse "-1^2^3+4".toList).result ∧
      ((Grammar.ofRules (rules.map (·.mapPower f))).parseAll "-1^2^3+4".toList).result =
        ((Grammar.ofRules rules).parseAll "-1^2^3+4".toList).result := by
  intro rules f
  have used (p : Power) (has : PowerOf rules p) : p = 0 ∨ p = -3 ∨ p = 2 ∨ p = 5 := by
    simpa [PowerOf, rules, Rule.power?, eq_comm] using has
  have increases (p q : Power) (left : PowerOf rules p) (right : PowerOf rules q) :
      p < q → f p < f q := by
    rcases used p left with rfl | rfl | rfl | rfl <;>
      rcases used q right with rfl | rfl | rfl | rfl <;> decide
  exact ⟨Run.value?_eq_some.1 (by decide +kernel), parse_mapPower rules f (by decide) increases _⟩

end OpGrammar
