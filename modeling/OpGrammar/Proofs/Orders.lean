import OpGrammar.Proofs.Alternations
import OpGrammar.Proofs.Emptiness
import OpGrammar.Proofs.Renaming
import OpGrammar.Proofs.Taken

/-!
# The order of the rules

Rules that are all taken, and whose patterns are rows of characters, may come in any order: they are
taken again, and make a grammar that differs only in the numbers of the symbols.
-/

namespace OpGrammar

variable {O : Type}

/-! ## Rows of characters -/

/-- The word that a pattern stands for, if it is a row of characters. -/
def wordOf? (pattern : Text) : Option Text :=
  match alternativesOf? pattern with
  | some [word] => some word
  | _ => none

theorem wordOf?_eq_some {pattern word : Text} :
    wordOf? pattern = some word ↔ alternativesOf? pattern = some [word] := by
  unfold wordOf?
  split
  · rename_i word' eq
    simp [eq]
  · rename_i other
    refine ⟨fun none => (by cases none), fun eq => ?_⟩
    exact absurd eq (other word)

theorem nullable_word (known : Text → Bool) (word : Text) :
    Pattern.nullable known (.ofWords .char [word]) ↔ word = [] := by
  cases word <;> simp [Pattern.nullable, Branches.ofWords, piecesOf, nullableBranches, nullableBranch,
    Atom.nullable, Quantifier.allowsNone]

theorem names_word (word : Text) : Pattern.names (.ofWords .char [word]) = [] := by
  have row : namesOfBranch (piecesOf .char word) = [] := by
    induction word with
    | nil => rfl
    | cons c word ih => simpa [piecesOf, namesOfBranch, Atom.names] using ih
  simp [Pattern.names, Branches.ofWords, namesOfBranches, row]

namespace Lexicon

theorem accepts_word {pattern word : Text} (spells : wordOf? pattern = some word)
    (entries : List (Entry Nat)) (value : Nat) :
    (ofEntries entries).Accepts (.pattern pattern value) ↔
      (∀ value, ¬Registers entries pattern value) ∧ word ≠ [] := by
  have read := alternativesOf?_eq_some.1 (wordOf?_eq_some.1 spells)
  rw [accepts_iff]
  refine and_congr_right fun _ => ?_
  simp [read, names_word, ← Bool.not_eq_true, nullable_word]

end Lexicon

/-- The patterns of the rules are rows of characters, and there is one pattern for each word. -/
structure Literal (rules : List (Rule O)) : Prop where
  unnamed : ∀ rule ∈ rules, ∀ name pattern, rule ≠ .name name pattern
  words : ∀ rule ∈ rules, ∀ pattern ∈ rule.patterns, (wordOf? pattern).isSome
  spelled : ∀ rule ∈ rules, ∀ pattern ∈ rule.patterns, ∀ rule' ∈ rules,
    ∀ pattern' ∈ rule'.patterns, wordOf? pattern = wordOf? pattern' → pattern = pattern'

theorem Literal.mono {rules rules' : List (Rule O)} (literal : Literal rules)
    (subset : ∀ rule ∈ rules', rule ∈ rules) : Literal rules' where
  unnamed rule mem := literal.unnamed rule (subset rule mem)
  words rule mem := literal.words rule (subset rule mem)
  spelled rule mem pattern among rule' mem' :=
    literal.spelled rule (subset rule mem) pattern among rule' (subset rule' mem')

/-- No pattern has uses by both rules that do not go together. -/
def Rule.Fits (rule rule' : Rule O) : Prop :=
  ∀ pattern slot slot', rule.slot? = some (pattern, slot) → rule'.slot? = some (pattern, slot') →
    slot.Fits slot'

theorem Rule.Fits.symm {rule rule' : Rule O} (fits : rule.Fits rule') : rule'.Fits rule :=
  fun pattern slot slot' has has' => (fits pattern slot' slot has' has).symm

theorem Role.serves_rename {r : Renaming} (role : Role O) (use : Use O) :
    (role.rename r).Serves use ↔ ∃ use', role.Serves use' ∧ use'.rename r = use := by
  constructor
  · intro serves
    cases use with
    | starter starter =>
      have had : (role.rename r).starter? = some starter := serves
      rw [starter?_rename] at had
      obtain ⟨starter, begins, rfl⟩ := Option.map_eq_some_iff.1 had
      exact ⟨.starter starter, begins, rfl⟩
    | follower follower =>
      have had : (role.rename r).follower? = some follower := serves
      rw [follower?_rename] at had
      obtain ⟨follower, goesOn, rfl⟩ := Option.map_eq_some_iff.1 had
      exact ⟨.follower follower, goesOn, rfl⟩
    | aside kind =>
      cases role with
      | expression => cases serves
      | aside => exact ⟨.aside kind, serves, rfl⟩
  · rintro ⟨use, serves, rfl⟩
    cases use with
    | starter starter =>
      have had : role.starter? = some starter := serves
      simp [Serves, Use.rename, had]
    | follower follower =>
      have had : role.follower? = some follower := serves
      simp [Serves, Use.rename, had]
    | aside kind =>
      obtain rfl : role = .aside kind := serves
      rfl

namespace Grammar

variable {grammar grammar' left : Grammar O} {entries : List (Entry Nat)} {rules rules' : List (Rule O)}
  {pattern word : Text} {id : Nat}

/-! ## Which rules are taken -/

theorem Records.numbers (records : Records entries grammar)
    (numbers : grammar.Numbers pattern (.ok id left)) : ∃ entries', Records entries' left := by
  cases numbers with
  | old => exact ⟨entries, records⟩
  | new unknown accepts => exact ⟨_, records.numbered pattern unknown accepts⟩

theorem Records.addSymbol_iff (records : Records entries grammar)
    (spells : wordOf? pattern = some word) :
    (∃ id left, addSymbol pattern grammar = .ok id left) ↔ word ≠ [] := by
  constructor
  · rintro ⟨id, left, numbered⟩
    cases numbers_of_eq numbered with
    | old _ known =>
      have found := records.symbolId?_eq_some.1 known
      obtain ⟨before, after, -, accepts⟩ := (records.registers pattern id).2 found
      exact ((Lexicon.accepts_word spells before id).1 accepts).2
    | new unknown accepts =>
      rw [records.lexicon] at accepts
      exact ((Lexicon.accepts_word spells entries _).1 accepts).2
  · intro some
    have numbers := grammar.addSymbol_numbers pattern
    generalize addSymbol pattern grammar = result at numbers
    cases numbers with
    | old id known => exact ⟨id, _, rfl⟩
    | new => exact ⟨_, _, rfl⟩
    | refused e unknown refuses =>
      rw [records.lexicon, Lexicon.accepts_word spells] at refuses
      refine absurd ⟨fun value registers => ?_, some⟩ refuses
      exact symbolId?_eq_none.1 unknown value ((records.registers pattern value).1 registers)

theorem Records.add_iff (records : Records entries grammar) {rule : Rule O}
    (unnamed : ∀ name pattern, rule ≠ .name name pattern)
    (words : ∀ pattern ∈ rule.patterns, (wordOf? pattern).isSome) :
    (∃ left, add rule grammar = .ok () left) ↔
      (∀ pattern ∈ rule.patterns, wordOf? pattern ≠ some []) ∧
        ∀ pattern slot, rule.slot? = some (pattern, slot) → ∀ use,
          (grammar.roleAt pattern).Serves use → use.slot.Fits slot := by
  have symbols {grammar : Grammar O} {entries : List (Entry Nat)} (records : Records entries grammar)
      {pattern : Text} (mem : pattern ∈ rule.patterns) :
      (∃ id left, addSymbol pattern grammar = .ok id left) ↔ wordOf? pattern ≠ some [] := by
    obtain ⟨word, spells⟩ := Option.isSome_iff_exists.1 (words pattern mem)
    rw [records.addSymbol_iff spells, spells, ne_eq, ne_eq, Option.some_inj]
  cases uses : rule.use? with
  | some given =>
    obtain ⟨pattern, use⟩ := given
    have slot := Rule.slot?_of_use? uses
    have patterns := Rule.patterns_of_use? uses
    rw [(add_uses uses).taken_iff, symbols records (by simp [patterns]), Role.gain?_isSome, and_comm]
    refine and_congr (by simp [patterns]) ⟨fun fits _ _ has => ?_, fun fits => fits _ _ slot⟩
    cases slot.symm.trans has
    exact fits
  | none =>
    cases rule with
    | name name pattern => exact absurd rfl (unnamed name pattern)
    | brackets opening closing wrap =>
      have first : closing ∈ (Rule.brackets opening closing wrap).patterns := by
        simp [Rule.patterns]
      have last : opening ∈ (Rule.brackets opening closing wrap).patterns := by
        simp [Rule.patterns]
      have both : (∃ id half, addSymbol closing grammar = .ok id half ∧
          ∃ id' half', addSymbol opening half = .ok id' half') ↔
          wordOf? closing ≠ some [] ∧ wordOf? opening ≠ some [] := by
        constructor
        · rintro ⟨id, half, numbered, numbered'⟩
          obtain ⟨entries', records'⟩ := records.numbers (numbers_of_eq numbered)
          exact ⟨(symbols records first).1 ⟨id, half, numbered⟩, (symbols records' last).1 numbered'⟩
        · rintro ⟨some, some'⟩
          obtain ⟨id, half, numbered⟩ := (symbols records first).2 some
          obtain ⟨entries', records'⟩ := records.numbers (numbers_of_eq numbered)
          exact ⟨id, half, numbered, (symbols records' last).2 some'⟩
      rw [(add_brackets grammar opening closing wrap).taken_iff, both, and_comm]
      refine and_congr (by simp [Rule.patterns, and_comm]) ⟨fun room _ _ has => ?_, fun fits starter => ?_⟩
      · cases has
        exact Role.gain?_isSome.1 (room (.bracket 0 wrap))
      · exact Role.gain?_isSome.2 (fits opening .starter rfl)
    | _ => cases uses

theorem addAll_iff (literal : Literal rules) : (∃ grammar, addAll rules empty = .ok () grammar) ↔
    (∀ rule ∈ rules, ∀ pattern ∈ rule.patterns, wordOf? pattern ≠ some []) ∧
      rules.Pairwise Rule.Fits := by
  induction rules using List.reverseRecOn with
  | nil => simp [addAll]
  | append_singleton rules rule ih =>
    have ih := ih (literal.mono fun rule mem => List.mem_append_left _ mem)
    have mem : rule ∈ rules ++ [rule] := by simp
    -- What the last rule is checked against are the uses by the rules before it.
    have last {half : Grammar O} (before : addAll rules empty = .ok () half) :
        (∃ left, add rule half = .ok () left) ↔
          (∀ pattern ∈ rule.patterns, wordOf? pattern ≠ some []) ∧ ∀ rule' ∈ rules, rule'.Fits rule := by
      obtain ⟨entries, records, -⟩ := ofRules_records rules
      rw [← eq_ofRules before] at records
      rw [records.add_iff (literal.unnamed rule mem) (literal.words rule mem)]
      refine and_congr_right fun _ => ⟨fun fits rule' mem' pattern slot' slot has' has => ?_,
        fun fits pattern slot has use serves => ?_⟩
      · obtain ⟨use, puts, rfl⟩ := Rule.exists_puts has' fun pattern among =>
          (known_iff before pattern).2 ⟨rule', mem', among⟩
        exact fits pattern slot has use ((serves_iff before pattern use).2 ⟨rule', mem', puts⟩)
      · obtain ⟨rule', mem', puts⟩ := (serves_iff before pattern use).1 serves
        exact fits rule' mem' pattern use.slot slot (Rule.slot?_of_puts puts) has
    simp only [addAll_concat, List.pairwise_append, List.pairwise_singleton, List.mem_append,
      List.mem_singleton, or_imp, forall_and, forall_eq, true_and]
    constructor
    · rintro ⟨left, half, before, taken⟩
      obtain ⟨words, fits⟩ := ih.1 ⟨half, before⟩
      obtain ⟨word, fit⟩ := (last before).1 ⟨left, taken⟩
      exact ⟨⟨words, word⟩, fits, fit⟩
    · rintro ⟨⟨words, word⟩, fits, fit⟩
      obtain ⟨half, before⟩ := ih.2 ⟨words, fits⟩
      obtain ⟨left, taken⟩ := (last before).2 ⟨word, fit⟩
      exact ⟨left, half, before, taken⟩

theorem addAll_perm (literal : Literal rules) (perm : rules.Perm rules')
    (taken : addAll rules empty = .ok () grammar) :
    ∃ grammar', addAll rules' empty = .ok () grammar' := by
  obtain ⟨words, fits⟩ := (addAll_iff literal).1 ⟨grammar, taken⟩
  refine (addAll_iff (literal.mono fun rule mem => perm.mem_iff.2 mem)).2 ⟨fun rule mem => ?_, ?_⟩
  · exact words rule (perm.mem_iff.2 mem)
  · exact (perm.pairwise_iff fun fits => fits.symm).1 fits

/-! ## Matches -/

theorem word_of_match (literal : Literal rules) {text : Text} {found : Match Nat}
    (matched : (ofRules rules).lexicon.longest? text = some found) :
    ∃ pattern, (ofRules rules).symbolId? pattern = some found.value ∧
      wordOf? pattern = some found.text ∧ found.text <+: text := by
  obtain ⟨entries, records, made⟩ := ofRules_records rules
  have word {pattern : Text} {value : Nat} (mem : .pattern pattern value ∈ entries) :
      ∃ word, alternativesOf? pattern = some [word] := by
    obtain ⟨rule, among, enters⟩ := made _ mem
    obtain ⟨word, spells⟩ := Option.isSome_iff_exists.1 (literal.words rule among pattern enters)
    exact ⟨word, wordOf?_eq_some.1 spells⟩
  have alternations : Lexicon.AllAlternations entries := by
    intro pattern value mem
    obtain ⟨word, spells⟩ := word mem
    simp [spells]
  rw [records.lexicon] at matched
  obtain ⟨-, starts, before, ⟨pattern, words, took, spells, among⟩, -⟩ :=
    Lexicon.firstSpells_of_match alternations matched
  obtain ⟨word, spells'⟩ := word took.mem
  obtain rfl := Option.some.inj (spells.symm.trans spells')
  obtain rfl := List.mem_singleton.1 among
  refine ⟨pattern, records.symbolId?_eq_some.2 ?_, wordOf?_eq_some.2 spells, starts⟩
  exact (records.registers pattern found.value).1 ⟨before, took⟩

theorem match_of_word (known : (ofRules rules).symbolId? pattern = some id)
    (spells : wordOf? pattern = some word) {text : Text} (starts : word <+: text) :
    ∃ found, (ofRules rules).lexicon.longest? text = some found ∧
      word.length ≤ found.text.length := by
  obtain ⟨entries, records, -⟩ := ofRules_records rules
  obtain ⟨before, took⟩ := (records.registers pattern id).2 (records.symbolId?_eq_some.1 known)
  rw [records.lexicon]
  exact Lexicon.Spells.exists_match
    ⟨pattern, [word], took, wordOf?_eq_some.1 spells, List.mem_singleton_self word⟩ starts

/-! ## Two orders -/

/-- The number in another grammar of the symbol with the same pattern. -/
def renumbering (grammar grammar' : Grammar O) : Renaming :=
  ⟨fun id => (grammar'.symbolId? (grammar.patternOf id)).getD 0, fun power => power⟩

section Orders

variable (literal : Literal rules) (same : ∀ rule, rule ∈ rules ↔ rule ∈ rules')
  (taken : addAll rules empty = .ok () (ofRules rules))
  (taken' : addAll rules' empty = .ok () (ofRules rules'))

include same taken taken'

theorem known_iff_known (pattern : Text) : ((ofRules rules').symbolId? pattern).isSome ↔
    ((ofRules rules).symbolId? pattern).isSome := by
  rw [known_iff taken, known_iff taken']
  exact exists_congr fun rule => and_congr_left fun _ => (same rule).symm

theorem symbolId?_renumbering (known : (ofRules rules).symbolId? pattern = some id) :
    (ofRules rules').symbolId? pattern =
      some ((renumbering (ofRules rules) (ofRules rules')).symbol id) := by
  obtain ⟨id', known'⟩ := Option.isSome_iff_exists.1
    ((known_iff_known same taken taken' pattern).2 (Option.isSome_of_eq_some known))
  have found : (ofRules rules).patternOf id = pattern := by
    have found := (symbolId?_eq_some.1 known).1
    unfold pattern? at found
    simp [patternOf, found]
  simp [renumbering, found, known']

theorem puts_renumbering {rule : Rule O} (mem : rule ∈ rules) (use : Use O) :
    rule.Puts (ofRules rules').symbolId? pattern use ↔
      ∃ use', rule.Puts (ofRules rules).symbolId? pattern use' ∧
        use'.rename (renumbering (ofRules rules) (ofRules rules')) = use := by
  cases uses : rule.use? with
  | some given =>
    obtain ⟨pattern', given⟩ := given
    have kept : given.rename (renumbering (ofRules rules) (ofRules rules')) = given := by
      cases rule <;> cases uses <;> rfl
    simp only [Rule.puts_of_use? uses]
    constructor
    · rintro ⟨rfl, rfl⟩
      exact ⟨use, ⟨rfl, rfl⟩, kept⟩
    · rintro ⟨use', ⟨rfl, rfl⟩, rfl⟩
      exact ⟨rfl, kept⟩
  | none =>
    cases rule with
    | name => simp [Rule.Puts, Rule.use?]
    | brackets opening closing wrap =>
      obtain ⟨id, known⟩ := Option.isSome_iff_exists.1
        ((known_iff taken closing).2 ⟨_, mem, by simp [Rule.patterns]⟩)
      simp only [Rule.puts_brackets known,
        Rule.puts_brackets (symbolId?_renumbering same taken taken' known)]
      constructor
      · rintro ⟨rfl, rfl⟩
        exact ⟨_, ⟨rfl, rfl⟩, rfl⟩
      · rintro ⟨use', ⟨rfl, rfl⟩, rfl⟩
        exact ⟨rfl, rfl⟩
    | _ => cases uses

theorem roleAt_renumbering (pattern : Text) : (ofRules rules').roleAt pattern =
    ((ofRules rules).roleAt pattern).rename (renumbering (ofRules rules) (ofRules rules')) := by
  refine Role.ext_serves fun use => ?_
  rw [Role.serves_rename, serves_iff taken']
  simp only [serves_iff taken]
  constructor
  · rintro ⟨rule, mem, puts⟩
    have mem := (same rule).2 mem
    obtain ⟨use', puts', eq⟩ := (puts_renumbering same taken taken' mem use).1 puts
    exact ⟨use', ⟨rule, mem, puts'⟩, eq⟩
  · rintro ⟨use', ⟨rule, mem, puts'⟩, eq⟩
    exact ⟨rule, (same rule).1 mem, (puts_renumbering same taken taken' mem use).2 ⟨use', puts', eq⟩⟩

include literal

theorem longer_match {text : Text} {found : Match Nat}
    (matched : (ofRules rules).lexicon.longest? text = some found) :
    ∃ found', (ofRules rules').lexicon.longest? text = some found' ∧
      found.text.length ≤ found'.text.length := by
  obtain ⟨pattern, known, spells, starts⟩ := word_of_match literal matched
  exact match_of_word (symbolId?_renumbering same taken taken' known) spells starts

theorem longest?_renumbering (text : Text) :
    ((ofRules rules').lexicon.longest? text).map (fun found => (found.text, found.value)) =
      ((ofRules rules).lexicon.longest? text).map fun found =>
        (found.text, (renumbering (ofRules rules) (ofRules rules')).symbol found.value) := by
  have literal' : Literal rules' := literal.mono fun rule mem => (same rule).2 mem
  have same' (rule : Rule O) : rule ∈ rules' ↔ rule ∈ rules := (same rule).symm
  cases matched : (ofRules rules).lexicon.longest? text with
  | none =>
    cases matched' : (ofRules rules').lexicon.longest? text with
    | none => rfl
    | some found' =>
      obtain ⟨found, matched'', -⟩ := longer_match literal' same' taken' taken matched'
      cases matched.symm.trans matched''
  | some found =>
    obtain ⟨found', matched', long⟩ := longer_match literal same taken taken' matched
    obtain ⟨found'', matched'', long'⟩ := longer_match literal' same' taken' taken matched'
    obtain rfl := Option.some.inj (matched.symm.trans matched'')
    obtain ⟨pattern, known, spells, starts⟩ := word_of_match literal matched
    obtain ⟨pattern', known', spells', starts'⟩ := word_of_match literal' matched'
    have texts : found'.text = found.text :=
      (List.prefix_of_prefix_length_le starts' starts long').eq_of_length_le long
    obtain ⟨rule, mem, among⟩ := (known_iff taken pattern).1 (Option.isSome_of_eq_some known)
    obtain ⟨rule', mem', among'⟩ := (known_iff taken' pattern').1 (Option.isSome_of_eq_some known')
    obtain rfl : pattern = pattern' := literal.spelled rule mem pattern among rule'
      ((same rule').2 mem') pattern' among' (by rw [spells, spells', texts])
    have values := known'.symm.trans (symbolId?_renumbering same taken taken' known)
    rw [matched', Option.map_some, Option.map_some, texts, Option.some.inj values]

theorem renames_renumbering : Renames (renumbering (ofRules rules) (ofRules rules'))
    (ofRules rules) (ofRules rules') := by
  obtain ⟨entries, records, -⟩ := ofRules_records rules
  obtain ⟨entries', records', -⟩ := ofRules_records rules'
  -- Each number is that of a pattern, which has a symbol in both grammars.
  have known {id : Nat} (inside : id < (ofRules rules).symbols.size) :
      ∃ pattern, (ofRules rules).symbolId? pattern = some id ∧ (ofRules rules').symbolId? pattern =
        some ((renumbering (ofRules rules) (ofRules rules')).symbol id) := by
    obtain ⟨pattern, found⟩ := Option.isSome_iff_exists.1 (pattern?_isSome.2 inside)
    have known := records.symbolId?_eq_some.2 found
    exact ⟨pattern, known, symbolId?_renumbering same taken taken' known⟩
  refine ⟨records.consistent, fun id inside => ?_, fun id inside => ?_,
    fun id inside id' inside' eq => ?_, longest?_renumbering literal same taken taken',
    fun p q _ _ => Iff.rfl, rfl⟩
  · obtain ⟨pattern, known, known'⟩ := known inside
    rw [records.symbolId?_eq_some.1 known, records'.symbolId?_eq_some.1 known']
  · obtain ⟨pattern, known, known'⟩ := known inside
    rw [role?_of_symbolId? known, role?_of_symbolId? known', Option.map_some,
      roleAt_renumbering same taken taken']
  · obtain ⟨pattern, known₁, known₁'⟩ := known inside
    obtain ⟨pattern', known₂, known₂'⟩ := known inside'
    have found := records'.symbolId?_eq_some.1 known₁'
    have found' := records'.symbolId?_eq_some.1 known₂'
    rw [eq, found'] at found
    obtain rfl := Option.some.inj found
    exact Option.some.inj (known₁.symm.trans known₂)

end Orders

/-- Rules whose patterns are rows of characters, one for each word, are taken in every order if they
are taken in one, and the grammars that they make in different orders give the same answers. -/
theorem parse_perm (literal : Literal rules) (perm : rules.Perm rules')
    (taken : addAll rules empty = .ok () grammar) :
    ∃ grammar', addAll rules' empty = .ok () grammar' ∧ ∀ input,
      (grammar'.parse input).result = (grammar.parse input).result ∧
        (grammar'.parseAll input).result = (grammar.parseAll input).result := by
  obtain ⟨grammar', taken'⟩ := addAll_perm literal perm taken
  obtain rfl := eq_ofRules taken
  obtain rfl := eq_ofRules taken'
  have renames := renames_renumbering literal (fun rule => perm.mem_iff) taken taken'
  exact ⟨_, taken', fun input => ⟨(renames.parse input).symm, (renames.parseAll input).symm⟩⟩

theorem parse_perm_signs :
    let rules : List (Rule Text) := [.operand ['x'] (·), .infixLeft ['-'] 10 (· ++ '-' :: ·),
      .infixRight "->".toList 5 (fun a b => '(' :: a ++ '>' :: b ++ [')']),
      .brackets "\\(".toList "\\)".toList ('(' :: · ++ [')']), .prefixOp ['-'] 20 ('~' :: ·),
      .separator [';'], .ignored ['_'], .separator [';']]
    ∃ grammar grammar', addAll rules empty = .ok () grammar ∧
      addAll rules.reverse empty = .ok () grammar' ∧
      (grammar.parse "x->-x_-(x)->x".toList).result = .ok "(x>(~x-(x)>x))".toList ∧
      ∀ input, (grammar'.parse input).result = (grammar.parse input).result ∧
        (grammar'.parseAll input).result = (grammar.parseAll input).result := by
  intro rules
  have literal : Literal rules := by
    refine ⟨by simp [rules], ?_, ?_⟩ <;> decide +kernel
  have passes : (match addAll rules empty with | .ok _ _ => true | .error _ _ => false) = true := by
    decide +kernel
  cases taken : addAll rules empty with
  | error e left => simp [taken] at passes
  | ok _ grammar =>
    have parsed : (grammar.parse "x->-x_-(x)->x".toList).result = .ok "(x>(~x-(x)>x))".toList := by
      rw [eq_ofRules taken]
      exact Run.value?_eq_some.1 (by decide +kernel)
    obtain ⟨grammar', taken', same⟩ := parse_perm literal rules.reverse_perm.symm taken
    exact ⟨grammar, grammar', rfl, taken', parsed, same⟩

end Grammar

end OpGrammar
