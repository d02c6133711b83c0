import OpGrammar.Proofs.Record
import OpGrammar.Proofs.Taken

/-!
# Brackets that can be closed

A closing bracket has no use of its own, so its pattern may be put between expressions by another
rule, before or after. As a separator it still closes the bracket. When it is ignored it is skipped
wherever it stands, and nothing closes the bracket any more.
-/

namespace OpGrammar

variable {O : Type}

namespace Grammar

variable {grammar left : Grammar O} {pattern : Text} {use : Use O} {e : RuleError}

/-! ## Rules that are refused -/

theorem addSymbol_error_roleAt (refused : addSymbol pattern grammar = .error e left) (other : Text) :
    left.roleAt other = grammar.roleAt other := by
  have numbers := numbers_of_eq refused
  cases numbers
  rfl

theorem AddsUse.error_roleAt (adds : grammar.AddsUse pattern use (.error e left)) (other : Text) :
    left.roleAt other = grammar.roleAt other := by
  cases adds with
  | taken => rfl
  | refused _ _ _ _ numbered => exact addSymbol_error_roleAt numbered other

theorem add_error_roleAt {rule : Rule O} (refused : add rule grammar = .error e left)
    (other : Text) : left.roleAt other = grammar.roleAt other := by
  cases uses : rule.use? with
  | some given =>
    have adds : grammar.AddsUse given.1 given.2 (.error e left) := refused ▸ add_uses uses
    exact adds.error_roleAt other
  | none =>
    cases rule with
    | name name pattern =>
      rw [add, changeLexicon] at refused
      cases set : Lexicon.setMeaning name pattern grammar.lexicon <;> rw [set] at refused <;>
        cases refused
      rfl
    | brackets opening closing wrap =>
      have adds := refused ▸ add_brackets grammar opening closing wrap
      cases adds with
      | taken => rfl
      | refused _ _ _ numbered => exact addSymbol_error_roleAt numbered other
      | closes id half _ _ numbered opens =>
        rw [opens.error_roleAt, (numbers_of_eq numbered).roleAt_left]
    | _ => cases uses

/-! ## Ignored patterns -/

def Took (rules before : List (Rule O)) (rule : Rule O) : Prop :=
  ∃ after, rules = before ++ rule :: after ∧ ∃ grammar, add rule (ofRules before) = .ok () grammar

theorem took_concat_iff {rules before : List (Rule O)} {last rule : Rule O} :
    Took (rules ++ [last]) before rule ↔ Took rules before rule ∨
      before = rules ∧ rule = last ∧ ∃ grammar, add rule (ofRules rules) = .ok () grammar := by
  constructor
  · rintro ⟨after, eq, taken⟩
    rcases List.eq_nil_or_concat after with rfl | ⟨after, last', rfl⟩
    · obtain ⟨rfl, same⟩ := List.append_inj' eq rfl
      cases same
      exact .inr ⟨rfl, rfl, taken⟩
    · rw [List.concat_eq_append, ← List.cons_append, ← List.append_assoc] at eq
      exact .inl ⟨after, (List.append_inj' eq rfl).1, taken⟩
  · rintro (⟨after, rfl, taken⟩ | ⟨rfl, rfl, taken⟩)
    · exact ⟨after ++ [last], by simp, taken⟩
    · exact ⟨[], rfl, taken⟩

theorem puts_ignored_iff {number : Text → Option Nat} {rule : Rule O} :
    rule.Puts number pattern (.aside .ignored) ↔ rule = .ignored pattern := by
  unfold Rule.Puts
  cases rule <;> simp [Rule.use?, eq_comm]

/-- A pattern is ignored exactly if a rule that says so was taken, at any time. -/
theorem roleAt_ignored_iff (rules : List (Rule O)) (pattern : Text) :
    (ofRules rules).roleAt pattern = .aside .ignored ↔
      ∃ before, Took rules before (.ignored pattern) := by
  induction rules using List.reverseRecOn with
  | nil =>
    have idle : (ofRules []).roleAt pattern = (.expression none none : Role O) := by
      simp [ofRules, roleAt, roleOf?, symbolId?, empty]
    simp [idle, Took]
  | append_singleton rules rule ih =>
    rw [ofRules_append, List.foldl_cons, List.foldl_nil, extend_eq]
    simp only [took_concat_iff, exists_or, ← ih, exists_eq_left]
    cases taken : add rule (ofRules rules) with
    | error e left =>
      have same := add_error_roleAt taken pattern
      simp only [resultState, same]
      refine ⟨.inl, fun h => h.elim id ?_⟩
      rintro ⟨rfl, grammar, taken'⟩
      cases taken.symm.trans taken'
    | ok _ left =>
      have serves := (advances_of_add taken).serves pattern (.aside .ignored)
      rw [puts_ignored_iff] at serves
      refine serves.trans (or_congr Iff.rfl ⟨?_, fun h => h.1.symm⟩)
      rintro rfl
      exact ⟨rfl, left, taken⟩

/-! ## Tokens of a symbol -/

/-- Where the lexicon reads the symbol, a call gives a token of it. -/
def Delivers (grammar : Grammar O) (symbol : Nat) : Prop :=
  ∀ place text found, Text.Visible text → grammar.lexicon.longest? text = some found →
    found.value = symbol → ∃ token rest, grammar.nextToken place text = .token token rest ∧
      token.symbol = symbol ∧ token.text = found.text ∧ token.start = place

theorem delivers_of_serious {symbol : Nat}
    (serious : grammar.role? symbol ≠ some (.aside .ignored)) : grammar.Delivers symbol := by
  rintro place text found visible matched rfl
  rw [nextToken_visible visible, matched]
  dsimp only
  split
  · rename_i ignored
    exact absurd ignored serious
  · exact ⟨_, _, rfl, rfl, rfl, rfl⟩

theorem symbol_ne_of_ignored {symbol place : Nat} {text rest : Text} {token : Token}
    (ignored : grammar.role? symbol = some (.aside .ignored))
    (next : grammar.nextToken place text = .token token rest) : token.symbol ≠ symbol := by
  obtain ⟨gap, -, -, -, stands⟩ := nextToken_eq_token_iff.1 next
  rintro rfl
  exact stands.serious ignored

/-- The tree is that of an input, or of one of the statements in it. -/
def Accepts (grammar : Grammar O) (input : Text) (tree : Tree O) : Prop :=
  (grammar.parseTree input).result = .ok tree ∨
    ∃ trees, (grammar.parseTrees input).result = .ok trees ∧ tree ∈ trees

theorem Separates.subset {trees : List (Tree O)} {tokens : List Token}
    (separates : grammar.Separates trees tokens) : ∀ tree ∈ trees, tree.tokens ⊆ tokens := by
  induction separates with
  | done => exact List.forall_mem_nil _
  | separator token _ _ ih =>
    exact fun tree mem => List.Subset.trans (ih tree mem) (List.subset_cons_self _ _)
  | statement tree _ ih =>
    refine List.forall_mem_cons.2 ⟨List.subset_append_left _ _, fun tree' mem => ?_⟩
    exact List.Subset.trans (ih tree' mem) (List.subset_append_right _ _)

theorem Accepts.builds {input : Text} {tree : Tree O} (accepts : grammar.Accepts input tree) :
    grammar.Builds tree ∧ ∃ tokens, grammar.tokens input = .ok tokens ∧ tree.tokens ⊆ tokens := by
  rcases accepts with parsed | ⟨trees, parsed, mem⟩
  · exact ⟨(parseTree_allows parsed).1, tree.tokens, parseTree_uses parsed, List.Subset.refl _⟩
  · obtain ⟨tokens, divided, separates⟩ := parseTrees_uses parsed
    exact ⟨(parseTrees_allows grammar parsed tree mem).1, tokens, divided, separates.subset tree mem⟩

theorem Builds.closed {tree : Tree O} (builds : grammar.Builds tree) {token : Token} {closing : Nat}
    {wrap : O → O} (starts : (.starts, token) ∈ tree.parts)
    (opens : grammar.starter? token.symbol = some (.bracket closing wrap)) :
    ∃ last ∈ tree.tokens, last.symbol = closing := by
  induction tree with
  | operand token' make =>
    obtain rfl : token = token' := by simpa [Tree.parts] using starts
    cases opens.symm.trans builds
  | prefixOp token' power apply inner ih =>
    rcases List.mem_cons.1 starts with same | starts
    · cases same
      cases opens.symm.trans builds.1
    · obtain ⟨last, mem, same⟩ := ih builds.2 starts
      exact ⟨last, .tail _ mem, same⟩
  | bracket opening closing' wrap' inner ih =>
    simp only [Tree.parts, List.mem_append, List.mem_cons, Prod.mk.injEq, reduceCtorEq, false_and,
      List.not_mem_nil, or_false, true_and] at starts
    rcases starts with rfl | starts
    · cases opens.symm.trans builds.1
      exact ⟨closing', by simp [Tree.tokens], rfl⟩
    · obtain ⟨last, mem, same⟩ := ih builds.2 starts
      exact ⟨last, by simp [Tree.tokens, mem], same⟩
  | infixOp token' power combine first second ihFirst ihSecond =>
    simp only [Tree.parts, List.mem_append, List.mem_cons, Prod.mk.injEq, reduceCtorEq, false_and,
      false_or] at starts
    rcases starts with starts | starts
    · obtain ⟨last, mem, same⟩ := ihFirst builds.2.1 starts
      exact ⟨last, by simp [Tree.tokens, mem], same⟩
    · obtain ⟨last, mem, same⟩ := ihSecond builds.2.2 starts
      exact ⟨last, by simp [Tree.tokens, mem], same⟩
  | postfixOp token' apply inner ih =>
    simp only [Tree.parts, List.mem_append, List.mem_singleton, Prod.mk.injEq, reduceCtorEq,
      false_and, or_false] at starts
    obtain ⟨last, mem, same⟩ := ih builds.2 starts
    exact ⟨last, by simp [Tree.tokens, mem], same⟩

/-- Brackets stay closable as long as no rule that ignores the closing pattern is taken, whatever
else the pattern is used for. Then there is a token of the closing bracket wherever the lexicon reads
one. After such a rule there is none anywhere, and no input that is accepted has an expression in
these brackets. -/
theorem closable_unless_ignored (rules : List (Rule O)) {id closing : Nat} {wrap : O → O}
    (opens : (ofRules rules).starter? id = some (.bracket closing wrap)) :
    ∃ pattern, (ofRules rules).pattern? closing = some pattern ∧
      ((∀ before, ¬Took rules before (.ignored pattern)) →
        (ofRules rules).role? closing ≠ some (.aside .ignored) ∧
          (ofRules rules).Delivers closing) ∧
      ((∃ before, Took rules before (.ignored pattern)) →
        (ofRules rules).role? closing = some (.aside .ignored) ∧
          (∀ place text token rest, (ofRules rules).nextToken place text = .token token rest →
            token.symbol ≠ closing) ∧
          ∀ input tree, (ofRules rules).Accepts input tree → ∀ token,
            (.starts, token) ∈ tree.parts → token.symbol ≠ id) := by
  obtain ⟨entries, records, -⟩ := ofRules_records rules
  obtain ⟨pattern, found⟩ :=
    Option.isSome_iff_exists.1 (pattern?_isSome.2 (records.closes id closing wrap opens))
  have present := role?_of_symbolId? (records.symbolId?_eq_some.2 found)
  have ignored_iff : (ofRules rules).role? closing = some (.aside .ignored) ↔
      ∃ before, Took rules before (.ignored pattern) := by
    rw [present, Option.some.injEq, roleAt_ignored_iff]
  refine ⟨pattern, found, fun never => ?_, fun took => ?_⟩
  · have serious : (ofRules rules).role? closing ≠ some (.aside .ignored) :=
      fun ignored => (ignored_iff.1 ignored).elim never
    exact ⟨serious, delivers_of_serious serious⟩
  · have ignored := ignored_iff.2 took
    refine ⟨ignored, fun place text token rest => symbol_ne_of_ignored ignored, ?_⟩
    rintro input tree accepts token starts rfl
    obtain ⟨builds, tokens, divided, sub⟩ := accepts.builds
    obtain ⟨last, mem, same⟩ := builds.closed starts opens
    obtain ⟨place, scanned⟩ := scan_of_tokens input tokens divided
    have none : ∀ token ∈ ((ofRules rules).scanFrom 0 input).tokens, token.symbol ≠ closing :=
      (forall_scanFrom (fun _ _ _ _ => symbol_ne_of_ignored ignored) 0 input).1
    exact none last (by rw [← scan, scanned]; exact sub mem) same

/-- In both orders of the rules the closing bracket is skipped, also where the bracket needs it. -/
theorem closable_unless_ignored_orders :
    let first : List (Rule Text) := [.operand "[0-9]".toList id, .ignored "\\)".toList,
      .brackets "\\(".toList "\\)".toList id]
    let later : List (Rule Text) := [.operand "[0-9]".toList id,
      .brackets "\\(".toList "\\)".toList id, .ignored "\\)".toList]
    (ofRules first).role? 1 = some (.aside .ignored) ∧
      (ofRules later).role? 1 = some (.aside .ignored) ∧
      ((ofRules first).parse "(1)".toList).result = .error (.expected "\\)".toList [] 3) ∧
      ((ofRules later).parse "(1)".toList).result = .error (.expected "\\)".toList [] 3) := by
  intro first later
  have opens : (ofRules first).starter? 2 = some (.bracket 1 id) := by with_unfolding_all rfl
  have opens' : (ofRules later).starter? 2 = some (.bracket 1 id) := by with_unfolding_all rfl
  have named : (ofRules first).pattern? 1 = some "\\)".toList := by decide +kernel
  have named' : (ofRules later).pattern? 1 = some "\\)".toList := by decide +kernel
  have took : ∃ before, Took first before (.ignored "\\)".toList) :=
    ⟨[.operand "[0-9]".toList id], [.brackets "\\(".toList "\\)".toList id], rfl, _,
      by with_unfolding_all rfl⟩
  have took' : ∃ before, Took later before (.ignored "\\)".toList) :=
    ⟨[.operand "[0-9]".toList id, .brackets "\\(".toList "\\)".toList id], [], rfl, _,
      by with_unfolding_all rfl⟩
  obtain ⟨pattern, found, -, ignored⟩ := closable_unless_ignored first opens
  obtain ⟨pattern', found', -, ignored'⟩ := closable_unless_ignored later opens'
  obtain rfl := Option.some.inj (found.symm.trans named)
  obtain rfl := Option.some.inj (found'.symm.trans named')
  exact ⟨(ignored took).1, (ignored' took').1, by decide +kernel, by decide +kernel⟩

end Grammar

end OpGrammar
