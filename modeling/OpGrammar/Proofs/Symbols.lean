import OpGrammar.Proofs.Places
import OpGrammar.Proofs.Precedence
import OpGrammar.Proofs.Rules

/-!
# The symbols of a grammar

The lexicon holds the patterns of the symbols and nothing else, each with the number of its symbol.
So every number that a match or a pair of brackets leads to is that of a symbol. What a symbol is
used for is settled once: no later rule takes a use away, or puts another in its place.
-/

namespace OpGrammar

variable {O : Type}

/-! ## Roles -/

theorem Role.starter?_of_gain? {had role : Role O} {use : Use O} (gains : had.gain? use = some role) :
    role.starter? = had.starter? ∨
      had.starter? = none ∧ ∃ starter, use = .starter starter ∧ role.starter? = some starter := by
  unfold gain? at gains
  split at gains
  · cases gains
    exact .inr ⟨rfl, _, rfl, rfl⟩
  · cases gains
    exact .inl rfl
  · cases gains
    exact .inl rfl
  · split at gains <;> cases gains
    exact .inl rfl
  · cases gains

theorem Role.follower?_of_gain? {had role : Role O} {use : Use O}
    (gains : had.gain? use = some role) :
    role.follower? = had.follower? ∨
      had.follower? = none ∧ ∃ follower, use = .follower follower ∧ role.follower? = some follower := by
  unfold gain? at gains
  split at gains
  · cases gains
    exact .inl rfl
  · cases gains
    exact .inr ⟨rfl, _, rfl, rfl⟩
  · cases gains
    exact .inl rfl
  · split at gains <;> cases gains
    exact .inl rfl
  · cases gains

theorem Role.gain?_aside {kind : Aside} {role : Role O} {use : Use O}
    (gains : (Role.aside kind).gain? use = some role) : role = .aside kind := by
  cases use <;> simp_all [gain?]

namespace Grammar

variable {grammar grammar' grammar'' : Grammar O}

/-! ## What is kept -/

/-- No symbol has lost its pattern, or what it is used for. -/
structure Keeps (grammar grammar' : Grammar O) : Prop where
  pattern : ∀ id pattern, grammar.pattern? id = some pattern → grammar'.pattern? id = some pattern
  starter : ∀ id starter, grammar.starter? id = some starter → grammar'.starter? id = some starter
  follower : ∀ id follower, grammar.follower? id = some follower →
    grammar'.follower? id = some follower
  aside : ∀ id kind, grammar.role? id = some (.aside kind) → grammar'.role? id = some (.aside kind)

theorem Keeps.refl (grammar : Grammar O) : grammar.Keeps grammar :=
  ⟨fun _ _ h => h, fun _ _ h => h, fun _ _ h => h, fun _ _ h => h⟩

theorem Keeps.trans (first : grammar.Keeps grammar') (second : grammar'.Keeps grammar'') :
    grammar.Keeps grammar'' :=
  ⟨fun id p h => second.pattern id p (first.pattern id p h),
    fun id s h => second.starter id s (first.starter id s h),
    fun id f h => second.follower id f (first.follower id f h),
    fun id k h => second.aside id k (first.aside id k h)⟩

theorem Step.keeps {rule : Rule O} (step : Step rule grammar grammar') :
    grammar.Keeps grammar' := by
  cases step with
  | entered => exact ⟨fun _ _ h => h, fun _ _ h => h, fun _ _ h => h, fun _ _ h => h⟩
  | numbered pattern =>
    -- The new number is none of those before.
    have old {id : Nat} {α : Type} {f : Role O → Option α} {a : α}
        (h : (grammar.role? id).bind f = some a) :
        ((grammar.withSymbol pattern).role? id).bind f = some a := by
      obtain ⟨role, present, _⟩ := Option.bind_eq_some_iff.1 h
      have inside := role?_isSome.1 (Option.isSome_of_eq_some present)
      simpa [Nat.ne_of_lt inside] using h
    refine ⟨fun id p h => ?_, fun id s h => old h, fun id f h => old h, fun id k h => ?_⟩
    · have inside := pattern?_isSome.1 (Option.isSome_of_eq_some h)
      simpa [Nat.ne_of_lt inside] using h
    · have inside := role?_isSome.1 (Option.isSome_of_eq_some h)
      simpa [Nat.ne_of_lt inside] using h
  | gained id had role use present _ gains =>
    refine ⟨by simp, fun id' s h => ?_, fun id' f h => ?_, fun id' k h => ?_⟩
    · by_cases same : id = id'
      · subst same
        simp only [starter?, present, Option.bind_some] at h
        rcases Role.starter?_of_gain? gains with eq | ⟨none, -⟩
        · simp [starter?, present, eq, h]
        · simp [h] at none
      · simpa [starter?, same] using h
    · by_cases same : id = id'
      · subst same
        simp only [follower?, present, Option.bind_some] at h
        rcases Role.follower?_of_gain? gains with eq | ⟨none, -⟩
        · simp [follower?, present, eq, h]
        · simp [h] at none
      · simpa [follower?, same] using h
    · by_cases same : id = id'
      · subst same
        obtain rfl := Option.some.inj (present.symm.trans h)
        simp [present, Role.gain?_aside gains]
      · simpa [same] using h

theorem Evolves.keeps {rule : Rule O} (evolves : Evolves rule grammar grammar') :
    grammar.Keeps grammar' := by
  induction evolves with
  | refl => exact .refl grammar
  | tail _ step ih => exact ih.trans step.keeps

theorem extend_keeps (grammar : Grammar O) (rule : Rule O) :
    grammar.Keeps (grammar.extend rule) := by
  rw [extend_eq]
  exact (grammar.evolves_add rule).keeps

theorem ofRules_keeps (rules more : List (Rule O)) :
    (ofRules rules).Keeps (ofRules (rules ++ more)) := by
  induction more using List.reverseRecOn with
  | nil =>
    rw [List.append_nil]
    exact .refl _
  | append_singleton more rule ih =>
    rw [← List.append_assoc, ofRules_append, List.foldl_cons, List.foldl_nil]
    exact ih.trans (extend_keeps _ rule)

/-! ## Numbers -/

/-- The patterns of the symbols are those that the lexicon took from the entries, each with the
number of its symbol, and brackets are closed by a symbol. -/
structure Records (entries : List (Entry Nat)) (grammar : Grammar O) : Prop where
  lexicon : grammar.lexicon = Lexicon.ofEntries entries
  registers : ∀ text id, Lexicon.Registers entries text id ↔ grammar.pattern? id = some text
  unique : ∀ id id' text, grammar.pattern? id = some text → grammar.pattern? id' = some text →
    id = id'
  closes : ∀ id closing wrap, grammar.starter? id = some (.bracket closing wrap) →
    closing < grammar.symbols.size

section Records

variable {entries : List (Entry Nat)}

theorem records_empty : Records [] (empty : Grammar O) where
  lexicon := rfl
  registers text id := by simp [Lexicon.Registers, Lexicon.Took, pattern?, empty]
  unique := by simp [pattern?, empty]
  closes := by simp [starter?, role?, empty]

theorem Records.entered (records : Records entries grammar) (entry : Entry Nat)
    (refuses : ∀ text value, entry = .pattern text value → ¬grammar.lexicon.Accepts entry) :
    Records (entries ++ [entry]) { grammar with lexicon := grammar.lexicon.extend entry } where
  lexicon := by rw [Lexicon.ofEntries_concat, ← records.lexicon]
  registers text id := by
    refine Lexicon.registers_concat_iff.trans ((or_iff_left ?_).trans (records.registers text id))
    rintro ⟨same, accepts⟩
    exact refuses text id same (records.lexicon ▸ accepts)
  unique := records.unique
  closes := records.closes

theorem Records.numbered (records : Records entries grammar) (pattern : Text)
    (unknown : grammar.symbolId? pattern = none)
    (accepts : grammar.lexicon.Accepts (.pattern pattern grammar.symbols.size)) :
    Records (entries ++ [.pattern pattern grammar.symbols.size]) (grammar.withSymbol pattern) := by
  have new := symbolId?_eq_none.1 unknown
  have outside {id : Nat} {text : Text} (found : grammar.pattern? id = some text) :
      id ≠ grammar.symbols.size :=
    Nat.ne_of_lt (pattern?_isSome.1 (Option.isSome_of_eq_some found))
  refine ⟨?_, fun text id => ?_, fun id id' text found found' => ?_, fun id closing wrap starts => ?_⟩
  · rw [Lexicon.ofEntries_concat, ← records.lexicon, withSymbol]
  · rw [Lexicon.registers_concat_iff, records.registers, ← records.lexicon, pattern?_withSymbol]
    by_cases last : id = grammar.symbols.size
    · have old : grammar.pattern? id ≠ some text := fun found => outside found last
      simp [last, accepts, last ▸ old]
    · simp [last, eq_comm]
  · simp only [pattern?_withSymbol] at found found'
    by_cases last : id = grammar.symbols.size <;> by_cases last' : id' = grammar.symbols.size
    · rw [last, last']
    · simp only [last, last', if_true, if_false, Option.some.injEq] at found found'
      exact absurd (found ▸ found') (new id')
    · simp only [last, last', if_true, if_false, Option.some.injEq] at found found'
      exact absurd (found' ▸ found) (new id)
    · simp only [last, last', if_false] at found found'
      exact records.unique id id' text found found'
  · rw [size_withSymbol]
    refine Nat.lt_succ_of_lt (records.closes id closing wrap ?_)
    by_cases last : id = grammar.symbols.size
    · simp [starter?, last, Role.starter?] at starts
    · simpa [starter?, last] using starts

theorem Records.gained (records : Records entries grammar) {id : Nat} {had role : Role O}
    {use : Use O} (present : grammar.role? id = some had) (gains : had.gain? use = some role)
    (closes : ∀ closing wrap, use = .starter (.bracket closing wrap) →
      closing < grammar.symbols.size) : Records entries (grammar.withRole id role) where
  lexicon := records.lexicon
  registers text id' := by rw [pattern?_withRole, records.registers]
  unique := by simpa using records.unique
  closes id' closing wrap starts := by
    rw [size_withRole]
    by_cases same : id = id'
    · subst same
      simp only [starter?, role?_withRole, present, if_true, Option.map_some, Option.bind_some]
        at starts
      rcases Role.starter?_of_gain? gains with eq | ⟨-, starter, rfl, eq⟩
      · exact records.closes id closing wrap (by simp [starter?, present, ← eq, starts])
      · obtain rfl := Option.some.inj (eq.symm.trans starts)
        exact closes closing wrap rfl
    · exact records.closes id' closing wrap (by simpa [starter?, same] using starts)

theorem ofRules_records (rules : List (Rule O)) :
    ∃ entries, Records entries (ofRules rules) ∧
      ∀ entry ∈ entries, ∃ rule ∈ rules, rule.Enters entry :=
  ofRules_induction records_empty (fun _ _ entry records refuses => records.entered entry refuses)
    (fun _ _ pattern records unknown accepts => records.numbered pattern unknown accepts)
    (fun _ _ _ _ _ _ records present gains closes => records.gained present gains closes) rules

theorem Records.symbolId?_eq_some (records : Records entries grammar) {pattern : Text} {id : Nat} :
    grammar.symbolId? pattern = some id ↔ grammar.pattern? id = some pattern := by
  rw [Grammar.symbolId?_eq_some, and_iff_left_iff_imp]
  intro found j before found'
  exact Nat.ne_of_lt before (records.unique j id pattern found' found)

theorem Records.value_lt (records : Records entries grammar) (id : Nat) (node : Node Group Nat)
    (value : Nat) (present : grammar.lexicon.graph[id]? = some node) (valued : node.value = some value) :
    value < grammar.symbols.size := by
  rw [records.lexicon] at present
  obtain ⟨text, registers⟩ := Lexicon.registers_of_value entries id node value present valued
  exact pattern?_isSome.1 (Option.isSome_of_eq_some ((records.registers text value).1 registers))

theorem Records.match_lt (records : Records entries grammar) {text : Text} {found : Match Nat}
    (matched : grammar.lexicon.longest? text = some found) : found.value < grammar.symbols.size := by
  obtain ⟨last, -, known, -⟩ := Lexicon.longest?_last matched
  obtain ⟨node, present, valued⟩ := Option.bind_eq_some_iff.1 known
  exact records.value_lt last.id node found.value present valued

end Records

/-! ## Tokens -/

theorem nextToken_symbol {place : Nat} {text rest : Text} {token : Token}
    (next : grammar.nextToken place text = .token token rest) :
    ∃ text found, grammar.lexicon.longest? text = some found ∧ token.symbol = found.value := by
  fun_induction grammar.nextToken place text with
  | case4 _ _ _ _ _ _ _ _ _ _ _ _ ih => exact ih next
  | case5 _ _ _ c tail _ found matched =>
    obtain ⟨rfl, -⟩ := NextToken.token.inj next
    exact ⟨c :: tail, found, matched, rfl⟩
  | _ => cases next

theorem forall_unrolled {holds : Token → Prop}
    (next : ∀ place text token rest, grammar.nextToken place text = .token token rest → holds token)
    (place : Nat) (text : Text) :
    ∀ token ∈ (grammar.scanFrom place text).unrolled.tokens, holds token := by
  obtain ⟨before, last⟩ := forall_scanFrom next place text
  unfold Scan.unrolled
  split
  · rename_i token eq
    intro t mem
    rcases List.mem_append.1 mem with mem | mem
    · exact before t mem
    · exact (List.mem_replicate.1 mem).2 ▸ last token eq
  · exact before

theorem Records.symbol_lt {entries : List (Entry Nat)} (records : Records entries grammar)
    (input : Text) :
    ∀ token ∈ (grammar.scan input).unrolled.tokens, token.symbol < grammar.symbols.size := by
  refine forall_unrolled (fun place text token rest next => ?_) 0 input
  obtain ⟨text, found, matched, same⟩ := nextToken_symbol next
  exact same ▸ records.match_lt matched

/-! ## The grammar of some rules -/

/-- The symbols, the numbers of their patterns and the lexicon fit together. -/
structure Consistent (grammar : Grammar O) : Prop where
  numbers : ∀ pattern id, grammar.symbolId? pattern = some id ↔ grammar.pattern? id = some pattern
  /-- The lexicon took just the patterns of the symbols, each with the number of its symbol. -/
  entries : ∃ entries, grammar.lexicon = Lexicon.ofEntries entries ∧
    ∀ pattern id, Lexicon.Registers entries pattern id ↔ grammar.symbolId? pattern = some id
  patterns : ∀ pattern, pattern ∈ grammar.lexicon.patterns ↔ (grammar.symbolId? pattern).isSome
  values : ∀ (id : Nat) node value, grammar.lexicon.graph[id]? = some node →
    node.value = some value → value < grammar.symbols.size
  found : ∀ text found, grammar.lexicon.longest? text = some found →
    found.value < grammar.symbols.size
  tokens : ∀ input, ∀ token ∈ (grammar.scan input).unrolled.tokens,
    token.symbol < grammar.symbols.size
  closes : ∀ id closing wrap, grammar.starter? id = some (.bracket closing wrap) →
    closing < grammar.symbols.size

theorem Records.consistent {entries : List (Entry Nat)} (records : Records entries grammar) :
    grammar.Consistent where
  numbers _ _ := records.symbolId?_eq_some
  entries := by
    refine ⟨entries, records.lexicon, fun pattern id => ?_⟩
    rw [records.registers, records.symbolId?_eq_some]
  patterns pattern := by
    rw [records.lexicon, Lexicon.mem_patterns_iff, Option.isSome_iff_exists]
    simp only [records.registers, records.symbolId?_eq_some]
  values := records.value_lt
  found _ _ matched := records.match_lt matched
  tokens := records.symbol_lt
  closes := records.closes

theorem ofRules_consistent (rules : List (Rule O)) : (ofRules rules).Consistent := by
  obtain ⟨entries, records, -⟩ := ofRules_records rules
  exact records.consistent

end Grammar

end OpGrammar
