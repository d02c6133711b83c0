import OpGrammar.Proofs.Symbols

/-!
# Rules that are taken

A role is nothing more than its uses. Where all rules are taken, a symbol is made for each of their
patterns, and its role has just the uses that the rules give to it.
-/

namespace OpGrammar

variable {O : Type}

/-! ## Uses of a role -/

inductive Slot where
  | starter
  | follower
  | aside (kind : Aside)
  deriving DecidableEq

/-- There may be a use of each kind for one symbol. -/
def Slot.Fits : Slot → Slot → Prop
  | .starter, .follower | .follower, .starter => True
  | .aside kind, .aside kind' => kind = kind'
  | _, _ => False

theorem Slot.Fits.symm {slot slot' : Slot} (fits : slot.Fits slot') : slot'.Fits slot := by
  unfold Fits at fits ⊢
  split at fits <;> simp_all

def Use.slot : Use O → Slot
  | .starter _ => .starter
  | .follower _ => .follower
  | .aside kind => .aside kind

def Role.Serves (role : Role O) : Use O → Prop
  | .starter starter => role.starter? = some starter
  | .follower follower => role.follower? = some follower
  | .aside kind => role = .aside kind

namespace Role

variable {had role role' : Role O} {use : Use O}

theorem not_serves_idle (use : Use O) : ¬(expression none none).Serves use := by
  cases use <;> simp [Serves, starter?, follower?]

theorem serves_of_gain? (gains : had.gain? use = some role) (other : Use O) :
    role.Serves other ↔ had.Serves other ∨ other = use := by
  unfold gain? at gains
  split at gains
  · cases gains
    cases other <;> simp [Serves, starter?, follower?, eq_comm]
  · cases gains
    cases other <;> simp [Serves, starter?, follower?, eq_comm]
  · cases gains
    cases other <;> simp [Serves, starter?, follower?, eq_comm]
  · split at gains <;> cases gains
    rename_i same
    cases other <;> simp [Serves, starter?, follower?, same, eq_comm]
  · cases gains

theorem gain?_isSome : (role.gain? use).isSome ↔
    ∀ other, role.Serves other → other.slot.Fits use.slot := by
  constructor
  · intro gains other serves
    unfold gain? at gains
    split at gains <;> cases other <;> simp_all [Serves, starter?, follower?, Use.slot, Slot.Fits]
  · intro fits
    rcases role with ⟨_ | starter, _ | follower⟩ | kind <;> rcases use with _ | _ | kind' <;> try rfl
    case aside.aside =>
      have same : kind = kind' := fits (.aside kind) rfl
      simp [gain?, same]
    all_goals
      first
      | exact (fits (.starter starter) rfl).elim
      | exact (fits (.follower follower) rfl).elim
      | exact (fits (.aside kind) rfl).elim

theorem ext_serves (same : ∀ use, role.Serves use ↔ role'.Serves use) : role = role' := by
  have starters : role.starter? = role'.starter? :=
    Option.ext fun starter => same (.starter starter)
  have followers : role.follower? = role'.follower? :=
    Option.ext fun follower => same (.follower follower)
  cases role with
  | aside kind => exact ((same (.aside kind)).1 rfl).symm
  | expression starter follower =>
    cases role' with
    | aside kind => exact (same (.aside kind)).2 rfl
    | expression starter' follower' =>
      rw [show starter = starter' from starters, show follower = follower' from followers]

end Role

/-! ## Uses of a rule -/

/-- The pattern that a rule gives a use, and where. -/
def Rule.slot? : Rule O → Option (Text × Slot)
  | .operand pattern _ | .prefixOp pattern _ _ | .brackets pattern _ _ => some (pattern, .starter)
  | .infixLeft pattern _ _ | .infixRight pattern _ _ | .postfixOp pattern _ _ =>
    some (pattern, .follower)
  | .separator pattern => some (pattern, .aside .separator)
  | .ignored pattern => some (pattern, .aside .ignored)
  | .name _ _ => none

/-- The rule gives the pattern the use, where the symbols have these numbers. -/
def Rule.Puts (number : Text → Option Nat) (rule : Rule O) (pattern : Text) (use : Use O) : Prop :=
  rule.use? = some (pattern, use) ∨ ∃ closing wrap id, rule = .brackets pattern closing wrap ∧
    number closing = some id ∧ use = .starter (.bracket id wrap)

section Puts

variable {number number' : Text → Option Nat} {rule : Rule O} {pattern : Text} {use : Use O}

theorem Rule.slot?_of_use? (uses : rule.use? = some (pattern, use)) :
    rule.slot? = some (pattern, use.slot) := by
  cases rule <;> cases uses <;> rfl

theorem Rule.slot?_of_puts (puts : rule.Puts number pattern use) :
    rule.slot? = some (pattern, use.slot) := by
  rcases puts with uses | ⟨closing, wrap, id, rfl, -, rfl⟩
  · exact slot?_of_use? uses
  · rfl

theorem Rule.exists_puts {slot : Slot} (has : rule.slot? = some (pattern, slot))
    (numbered : ∀ pattern ∈ rule.patterns, (number pattern).isSome) :
    ∃ use, rule.Puts number pattern use ∧ use.slot = slot := by
  cases rule with
  | name => cases has
  | brackets opening closing wrap =>
    cases has
    obtain ⟨id, known⟩ := Option.isSome_iff_exists.1 (numbered closing (by simp [patterns]))
    exact ⟨_, .inr ⟨closing, wrap, id, rfl, known, rfl⟩, rfl⟩
  | _ =>
    cases has
    exact ⟨_, .inl rfl, rfl⟩

theorem Rule.puts_congr (same : ∀ pattern ∈ rule.patterns, number' pattern = number pattern) :
    rule.Puts number' pattern use ↔ rule.Puts number pattern use := by
  refine or_congr Iff.rfl ⟨?_, ?_⟩
  · rintro ⟨closing, wrap, id, rfl, known, rfl⟩
    exact ⟨closing, wrap, id, rfl, same closing (by simp [patterns]) ▸ known, rfl⟩
  · rintro ⟨closing, wrap, id, rfl, known, rfl⟩
    exact ⟨closing, wrap, id, rfl, (same closing (by simp [patterns])).trans known, rfl⟩

theorem Rule.patterns_of_use? (uses : rule.use? = some (pattern, use)) :
    rule.patterns = [pattern] := by
  cases rule <;> cases uses <;> rfl

theorem Rule.puts_of_use? (uses : rule.use? = some (pattern, use)) (other : Text) (use' : Use O) :
    rule.Puts number other use' ↔ other = pattern ∧ use' = use := by
  constructor
  · rintro (uses' | ⟨closing, wrap, id, rfl, -, -⟩)
    · cases uses.symm.trans uses'
      exact ⟨rfl, rfl⟩
    · cases uses
  · rintro ⟨rfl, rfl⟩
    exact .inl uses

theorem Rule.puts_brackets {opening closing : Text} {wrap : O → O} {id : Nat}
    (known : number closing = some id) (other : Text) (use' : Use O) :
    (Rule.brackets opening closing wrap).Puts number other use' ↔
      other = opening ∧ use' = .starter (.bracket id wrap) := by
  constructor
  · rintro (uses | ⟨closing', wrap', id', same, known', rfl⟩)
    · cases uses
    · cases same
      obtain rfl := Option.some.inj (known.symm.trans known')
      exact ⟨rfl, rfl⟩
  · rintro ⟨rfl, rfl⟩
    exact .inr ⟨closing, wrap, id, rfl, known, rfl⟩

end Puts

namespace Grammar

variable {grammar left : Grammar O} {pattern : Text} {use : Use O} {id : Nat}

/-! ## One rule -/

structure Advances (rule : Rule O) (grammar left : Grammar O) : Prop where
  known : ∀ pattern, (left.symbolId? pattern).isSome ↔
    (grammar.symbolId? pattern).isSome ∨ pattern ∈ rule.patterns
  kept : ∀ pattern id, grammar.symbolId? pattern = some id → left.symbolId? pattern = some id
  serves : ∀ pattern use, (left.roleAt pattern).Serves use ↔
    (grammar.roleAt pattern).Serves use ∨ rule.Puts left.symbolId? pattern use

theorem Numbers.kept (numbers : grammar.Numbers pattern (.ok id left)) {other : Text} {id' : Nat}
    (known : grammar.symbolId? other = some id') : left.symbolId? other = some id' := by
  rw [numbers.symbolId?_left]
  split
  · rename_i same
    subst same
    cases numbers with
    | old _ known' => exact known'.symm.trans known
    | new unknown => cases unknown.symm.trans known
  · exact known

theorem Numbers.known (numbers : grammar.Numbers pattern (.ok id left)) (other : Text) :
    (left.symbolId? other).isSome ↔ (grammar.symbolId? other).isSome ∨ other = pattern := by
  rw [numbers.symbolId?_left]
  by_cases same : other = pattern <;> simp [same]

theorem AddsUse.serves (adds : grammar.AddsUse pattern use (.ok () left)) (other : Text)
    (use' : Use O) : (left.roleAt other).Serves use' ↔
      (grammar.roleAt other).Serves use' ∨ other = pattern ∧ use' = use := by
  cases adds with
  | added id half role gains numbered =>
    have numbers := numbers_of_eq numbered
    have known : half.symbolId? pattern = some id := by simp [numbers.symbolId?_left]
    rw [roleAt_withRole known]
    by_cases same : other = pattern
    · subst same
      simp [Role.serves_of_gain? gains]
    · simp [same, numbers.roleAt_left]

theorem AddsUse.numbers (adds : grammar.AddsUse pattern use (.ok () left)) :
    ∃ id half, grammar.Numbers pattern (.ok id half) ∧ left.symbolId? = half.symbolId? := by
  cases adds with
  | added id half role gains numbered =>
    exact ⟨id, half, numbers_of_eq numbered, funext (symbolId?_withRole role)⟩

theorem AddsUse.known (adds : grammar.AddsUse pattern use (.ok () left)) (other : Text) :
    (left.symbolId? other).isSome ↔ (grammar.symbolId? other).isSome ∨ other = pattern := by
  obtain ⟨id, half, numbers, same⟩ := adds.numbers
  rw [same, numbers.known]

theorem AddsUse.kept (adds : grammar.AddsUse pattern use (.ok () left)) {other : Text}
    (known : grammar.symbolId? other = some id) : left.symbolId? other = some id := by
  obtain ⟨id, half, numbers, same⟩ := adds.numbers
  rw [same, numbers.kept known]

theorem AddsUse.taken_iff {result : EStateM.Result RuleError (Grammar O) Unit}
    (adds : grammar.AddsUse pattern use result) : (∃ left, result = .ok () left) ↔
      ((grammar.roleAt pattern).gain? use).isSome ∧
        ∃ id half, addSymbol pattern grammar = .ok id half := by
  cases adds with
  | taken e full => simp [full]
  | refused e left role gains numbered => simp [numbered]
  | added id left role gains numbered => simp [gains, numbered]

theorem AddsBrackets.taken_iff {opening closing : Text} {wrap : O → O}
    {result : EStateM.Result RuleError (Grammar O) Unit}
    (adds : grammar.AddsBrackets opening closing wrap result) : (∃ left, result = .ok () left) ↔
      (∀ starter, ((grammar.roleAt opening).gain? (.starter starter)).isSome) ∧
        ∃ id half, addSymbol closing grammar = .ok id half ∧
          ∃ id' half', addSymbol opening half = .ok id' half' := by
  cases adds with
  | taken e full =>
    refine ⟨fun ⟨left, eq⟩ => (nomatch eq), fun ⟨room, _⟩ => ?_⟩
    have some := room (.bracket 0 wrap)
    rw [full] at some
    cases some
  | refused e left free numbered => simp [numbered]
  | closes id half _ free numbered opens =>
    rw [opens.taken_iff, (numbers_of_eq numbered).roleAt_left]
    have room (starter : Starter O) :
        ((grammar.roleAt opening).gain? (.starter starter)).isSome :=
      Option.isSome_iff_exists.2 (free starter)
    simp [numbered, room]

theorem AddsBrackets.advances {opening closing : Text} {wrap : O → O}
    (adds : grammar.AddsBrackets opening closing wrap (.ok () left)) :
    Advances (.brackets opening closing wrap) grammar left := by
  cases adds with
  | closes id half _ free numbered opens =>
    have numbers := numbers_of_eq numbered
    have closes : left.symbolId? closing = some id := opens.kept (by simp [numbers.symbolId?_left])
    refine ⟨fun other => ?_, fun other id' known => ?_, fun other use => ?_⟩
    · rw [opens.known, numbers.known]
      simp [Rule.patterns, or_assoc, or_comm (a := other = closing)]
    · exact opens.kept (numbers.kept known)
    · rw [opens.serves, numbers.roleAt_left, Rule.puts_brackets closes]

theorem advances_of_add {rule : Rule O} (taken : add rule grammar = .ok () left) :
    Advances rule grammar left := by
  cases uses : rule.use? with
  | some given =>
    obtain ⟨pattern, use⟩ := given
    have adds : grammar.AddsUse pattern use (.ok () left) := taken ▸ add_uses uses
    refine ⟨fun other => ?_, fun other id known => adds.kept known, fun other use' => ?_⟩
    · rw [adds.known, Rule.patterns_of_use? uses, List.mem_singleton]
    · rw [adds.serves, Rule.puts_of_use? uses]
  | none =>
    cases rule with
    | name name pattern =>
      rw [add, changeLexicon] at taken
      cases set : Lexicon.setMeaning name pattern grammar.lexicon with
      | error e lexicon =>
        rw [set] at taken
        cases taken
      | ok _ lexicon =>
        rw [set] at taken
        cases taken
        refine ⟨fun other => ?_, fun other id known => known, fun other use => ?_⟩
        · simp [Rule.patterns, symbolId?]
        · rw [show roleAt { grammar with lexicon } other = grammar.roleAt other from rfl]
          simp [Rule.Puts, Rule.use?]
    | brackets opening closing wrap =>
      exact (taken ▸ add_brackets grammar opening closing wrap).advances
    | _ => cases uses

/-! ## All rules -/

/-- Adds rules one after the other, up to one that is refused. -/
def addAll : List (Rule O) → Change O Unit
  | [] => pure ()
  | rule :: rules => do
    add rule
    addAll rules

theorem addAll_concat (rules : List (Rule O)) (rule : Rule O) :
    addAll (rules ++ [rule]) grammar = .ok () left ↔
      ∃ half, addAll rules grammar = .ok () half ∧ add rule half = .ok () left := by
  induction rules generalizing grammar with
  | nil =>
    simp only [List.nil_append, addAll, bind_apply, pure_apply]
    cases taken : add rule grammar <;> simp [taken]
  | cons first rules ih =>
    simp only [List.cons_append, addAll, bind_apply]
    cases add first grammar with
    | error e half => simp
    | ok _ half => exact ih

theorem eq_ofRules {rules : List (Rule O)} (taken : addAll rules empty = .ok () grammar) :
    grammar = ofRules rules := by
  induction rules using List.reverseRecOn generalizing grammar with
  | nil =>
    cases taken
    rfl
  | append_singleton rules rule ih =>
    obtain ⟨half, before, last⟩ := (addAll_concat rules rule).1 taken
    rw [ofRules_append, ← ih before, List.foldl_cons, List.foldl_nil, extend_eq, last]
    rfl

theorem known_iff {rules : List (Rule O)} (taken : addAll rules empty = .ok () grammar)
    (pattern : Text) :
    (grammar.symbolId? pattern).isSome ↔ ∃ rule ∈ rules, pattern ∈ rule.patterns := by
  induction rules using List.reverseRecOn generalizing grammar with
  | nil =>
    cases taken
    simp [symbolId?, empty]
  | append_singleton rules rule ih =>
    obtain ⟨half, before, last⟩ := (addAll_concat rules rule).1 taken
    rw [(advances_of_add last).known, ih before]
    simp [or_and_right, exists_or]

theorem serves_iff {rules : List (Rule O)} (taken : addAll rules empty = .ok () grammar)
    (pattern : Text) (use : Use O) : (grammar.roleAt pattern).Serves use ↔
      ∃ rule ∈ rules, rule.Puts grammar.symbolId? pattern use := by
  induction rules using List.reverseRecOn generalizing grammar with
  | nil =>
    cases taken
    simpa [roleAt, roleOf?, symbolId?, empty] using Role.not_serves_idle use
  | append_singleton rules rule ih =>
    obtain ⟨half, before, last⟩ := (addAll_concat rules rule).1 taken
    have advances := advances_of_add last
    -- What an older bracket is closed by has kept its number.
    have same (rule' : Rule O) (mem : rule' ∈ rules) :
        rule'.Puts grammar.symbolId? pattern use ↔ rule'.Puts half.symbolId? pattern use := by
      refine Rule.puts_congr fun other among => ?_
      obtain ⟨id, known⟩ := Option.isSome_iff_exists.1 ((known_iff before other).2 ⟨rule', mem, among⟩)
      rw [known, advances.kept other id known]
    rw [advances.serves, ih before]
    simp only [List.mem_append, List.mem_singleton, or_and_right, exists_or, exists_eq_left]
    refine or_congr (exists_congr fun rule' => and_congr_right fun mem => ?_) Iff.rfl
    exact (same rule' mem).symm

theorem exists_puts_of_serves {rules : List (Rule O)}
    (taken : addAll rules empty = .ok () grammar) {role : Role O}
    (present : grammar.role? id = some role) (serves : role.Serves use) :
    ∃ rule ∈ rules, rule.Puts grammar.symbolId? (grammar.patternOf id) use := by
  obtain ⟨entries, records, -⟩ := ofRules_records rules
  rw [← eq_ofRules taken] at records
  obtain ⟨symbol, there, rfl⟩ := Option.map_eq_some_iff.1 present
  have known : grammar.symbolId? (grammar.patternOf id) = some id :=
    records.symbolId?_eq_some.2 (by simp [pattern?, patternOf, there])
  refine (serves_iff taken _ use).1 ?_
  rwa [Option.some.inj ((role?_of_symbolId? known).symm.trans present)]

theorem patternOf_of_symbolId? (known : grammar.symbolId? pattern = some id) :
    grammar.patternOf id = pattern := by
  have there : grammar.pattern? id = some pattern := (symbolId?_eq_some.1 known).1
  exact congrArg (Option.getD · []) there

end Grammar

end OpGrammar
