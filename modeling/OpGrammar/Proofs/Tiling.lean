import OpGrammar.Proofs.Boundaries

/-!
# Tokens tile the input

Between two tokens there is only what is skipped: white space and what ignored symbols match. So an
input is divided into tokens in one way, and each token is the part of it between its places.
-/

namespace OpGrammar

variable {O : Type} {grammar : Grammar O}

/-- The text starts with a character that is not white space. -/
def Text.Visible (text : Text) : Prop := ∃ c ∈ text.head?, isBlank c = false

theorem Text.Visible.dropWhile {text : Text} (visible : text.Visible) :
    text.dropWhile isBlank = text ∧ text.takeWhile isBlank = [] := by
  obtain ⟨c, first, solid⟩ := visible
  obtain ⟨rest, rfl⟩ := List.head?_eq_some_iff.1 first
  simp [solid]

theorem visible_of_dropWhile {text rest : Text} {c : Char}
    (left : text.dropWhile isBlank = c :: rest) : Text.Visible (c :: rest) :=
  ⟨c, rfl, Grammar.not_isBlank_of_dropWhile left⟩

theorem Lexicon.text_prefix {ν : Type} {lexicon : Lexicon ν} {text : Text} {found : Match ν}
    (matched : lexicon.longest? text = some found) : found.text <+: text := by
  obtain ⟨walked, -, rfl⟩ := Option.map_eq_some_iff.1 matched
  exact List.take_prefix _ _

namespace Grammar

/-! ## What is skipped -/

/-- All of the first text is skipped where the second one follows: it is made of white space and of
what ignored symbols match. -/
inductive Skips (grammar : Grammar O) : Text → Text → Prop
  | nothing (rest : Text) : Skips grammar [] rest
  | blank {gap rest : Text} (c : Char) (blank : isBlank c = true) (more : Skips grammar gap rest) :
    Skips grammar (c :: gap) rest
  | ignored {gap rest : Text} (found : Match Nat) (some : found.text ≠ [])
    (visible : Text.Visible (found.text ++ (gap ++ rest)))
    (matched : grammar.lexicon.longest? (found.text ++ (gap ++ rest)) = .some found)
    (ignored : grammar.role? found.value = .some (.aside .ignored))
    (more : Skips grammar gap rest) : Skips grammar (found.text ++ gap) rest

theorem Skips.blanks {gap rest : Text} (skips : grammar.Skips gap rest) (run : Text)
    (blank : ∀ c ∈ run, isBlank c = true) : grammar.Skips (run ++ gap) rest := by
  induction run with
  | nil => exact skips
  | cons c run ih =>
    rw [List.forall_mem_cons] at blank
    exact .blank c blank.1 (ih blank.2)

theorem nextToken_blank (c : Char) (blank : isBlank c = true) (place : Nat) (text : Text) :
    grammar.nextToken place (c :: text) = grammar.nextToken (place + c.utf8Size) text := by
  rw [nextToken_eq, nextToken_eq grammar (place + c.utf8Size)]
  simp only [List.takeWhile_cons, List.dropWhile_cons, blank, if_true, Text.byteSize_cons,
    Nat.add_assoc]

theorem nextToken_visible {text : Text} (visible : text.Visible) (place : Nat) :
    grammar.nextToken place text =
      match grammar.lexicon.longest? text with
      | none => .ending (.unknown place text)
      | some found =>
        let stop := place + Text.byteSize found.text
        let after := text.drop found.text.length
        match grammar.role? found.value with
        | some (.aside .ignored) =>
          if found.text = [] then .ending (.skipping place) else grammar.nextToken stop after
        | role? =>
          .token ⟨found.value, found.text, place, stop, (role?.map Role.power).getD 0⟩ after := by
  obtain ⟨left, before⟩ := visible.dropWhile
  rw [nextToken_eq, left, before]
  obtain ⟨c, first, -⟩ := visible
  obtain ⟨rest, rfl⟩ := List.head?_eq_some_iff.1 first
  rfl

theorem Skips.nextToken {gap rest : Text} (skips : grammar.Skips gap rest) (place : Nat) :
    grammar.nextToken place (gap ++ rest) =
      grammar.nextToken (place + Text.byteSize gap) rest := by
  induction skips generalizing place with
  | nothing rest => simp
  | blank c blank _ ih =>
    rw [List.cons_append, nextToken_blank c blank, ih, Text.byteSize_cons, Nat.add_assoc]
  | ignored found some visible matched ignored _ ih =>
    rw [List.append_assoc, nextToken_visible visible, matched]
    simp only [ignored, if_neg some, List.drop_left]
    rw [ih, Text.byteSize_append, Nat.add_assoc]

/-! ## The next token -/

/-- The token is what the lexicon reads where the token and the rest of the text stand, for a symbol
that is not ignored. -/
structure Matches (grammar : Grammar O) (token : Token) (rest : Text) : Prop where
  visible : Text.Visible (token.text ++ rest)
  found : ∃ found, grammar.lexicon.longest? (token.text ++ rest) = some found ∧
    found.text = token.text ∧ found.value = token.symbol
  serious : grammar.role? token.symbol ≠ some (.aside .ignored)
  stop : token.stop = token.start + Text.byteSize token.text
  carries : grammar.Carries token

inductive Meets (grammar : Grammar O) (place : Nat) : Text → NextToken → Prop
  | finished : Meets grammar place [] (.ending (.finished place))
  | unknown {rest : Text} (visible : rest.Visible)
    (unmatched : grammar.lexicon.longest? rest = none) :
    Meets grammar place rest (.ending (.unknown place rest))
  | skipping {rest : Text} {found : Match Nat} (visible : rest.Visible)
    (matched : grammar.lexicon.longest? rest = some found) (empty : found.text = [])
    (ignored : grammar.role? found.value = some (.aside .ignored)) :
    Meets grammar place rest (.ending (.skipping place))
  | token {token : Token} {rest : Text} (start : token.start = place)
    (stands : grammar.Matches token rest) :
    Meets grammar place (token.text ++ rest) (.token token rest)

theorem Meets.nextToken {place : Nat} {rest : Text} {next : NextToken}
    (meets : grammar.Meets place rest next) : grammar.nextToken place rest = next := by
  cases meets with
  | finished => rw [nextToken_eq]; simp
  | unknown visible unmatched => rw [nextToken_visible visible, unmatched]
  | skipping visible matched empty ignored =>
    rw [nextToken_visible visible, matched]
    simp only [ignored, if_pos empty]
  | @token token rest start stands =>
    obtain ⟨visible, ⟨found, matched, text, value⟩, serious, stop, carries⟩ := stands
    obtain ⟨symbol, word, start', stop', power⟩ := token
    dsimp only [Carries] at *
    subst text value start stop carries
    rw [nextToken_visible visible, matched]
    dsimp only
    split
    · rename_i ignored
      exact absurd ignored serious
    · rw [List.drop_left]

theorem skips_of_dropWhile {text rest : Text} (left : text.dropWhile isBlank = rest) :
    text = text.takeWhile isBlank ++ rest ∧ grammar.Skips (text.takeWhile isBlank) rest := by
  subst left
  refine ⟨List.takeWhile_append_dropWhile.symm, ?_⟩
  have nothing : grammar.Skips [] (text.dropWhile isBlank) := .nothing _
  have skips := nothing.blanks (text.takeWhile isBlank) fun c mem => List.mem_takeWhile_imp mem
  rwa [List.append_nil] at skips

theorem append_drop_of_match {text : Text} {found : Match Nat}
    (matched : grammar.lexicon.longest? text = some found) :
    found.text ++ text.drop found.text.length = text :=
  (List.prefix_iff_eq_append.1 (Lexicon.text_prefix matched))

theorem exists_gap (place : Nat) (text : Text) : ∃ gap rest, text = gap ++ rest ∧
    grammar.Skips gap rest ∧
    grammar.Meets (place + Text.byteSize gap) rest (grammar.nextToken place text) := by
  fun_induction grammar.nextToken place text with
  | case1 place text start left =>
    obtain ⟨whole, skips⟩ := grammar.skips_of_dropWhile left
    exact ⟨_, [], whole, skips, .finished⟩
  | case2 place text start c rest left unmatched =>
    obtain ⟨whole, skips⟩ := grammar.skips_of_dropWhile left
    exact ⟨_, _, whole, skips, .unknown (visible_of_dropWhile left) unmatched⟩
  | case3 place text start c rest left found matched ignored empty =>
    obtain ⟨whole, skips⟩ := grammar.skips_of_dropWhile left
    exact ⟨_, _, whole, skips, .skipping (visible_of_dropWhile left) matched empty ignored⟩
  | case4 place text start c rest left found matched stop after ignored some ih =>
    obtain ⟨whole, -⟩ := grammar.skips_of_dropWhile left
    obtain ⟨gap, more, split, skips, meets⟩ := ih
    have reads : found.text ++ (gap ++ more) = c :: rest :=
      split ▸ append_drop_of_match matched
    have visible := visible_of_dropWhile left
    rw [← reads] at visible matched whole
    have further := (skips.ignored found some visible matched ignored).blanks
      (text.takeWhile isBlank) fun c mem => List.mem_takeWhile_imp mem
    refine ⟨_, more, by simpa only [List.append_assoc] using whole, further, ?_⟩
    have place' : place + Text.byteSize (text.takeWhile isBlank ++ (found.text ++ gap)) =
        stop + Text.byteSize gap := by
      simp only [stop, start, Text.byteSize_append]
      omega
    rwa [place']
  | case5 place text start c rest left found matched stop after serious =>
    obtain ⟨whole, skips⟩ := grammar.skips_of_dropWhile left
    have reads := append_drop_of_match matched
    have visible := visible_of_dropWhile left
    rw [← reads] at visible matched whole skips
    let token : Token :=
      ⟨found.value, found.text, start, stop, ((grammar.role? found.value).map Role.power).getD 0⟩
    have stands : grammar.Matches token after :=
      ⟨visible, ⟨found, matched, rfl, rfl⟩, serious, rfl, rfl⟩
    exact ⟨_, _, whole, skips, .token rfl stands⟩

/-- The next token is what comes behind all that is skipped. -/
theorem nextToken_eq_iff {place : Nat} {text : Text} {next : NextToken} :
    grammar.nextToken place text = next ↔ ∃ gap rest, text = gap ++ rest ∧
      grammar.Skips gap rest ∧ grammar.Meets (place + Text.byteSize gap) rest next := by
  constructor
  · rintro rfl
    exact grammar.exists_gap place text
  · rintro ⟨gap, rest, rfl, skips, meets⟩
    rw [skips.nextToken, meets.nextToken]

theorem nextToken_eq_token_iff {place : Nat} {text rest : Text} {token : Token} :
    grammar.nextToken place text = .token token rest ↔ ∃ gap,
      text = gap ++ (token.text ++ rest) ∧ grammar.Skips gap (token.text ++ rest) ∧
        token.start = place + Text.byteSize gap ∧ grammar.Matches token rest := by
  rw [nextToken_eq_iff]
  constructor
  · rintro ⟨gap, _, rfl, skips, meets⟩
    cases meets with
    | token start stands => exact ⟨gap, rfl, skips, start, stands⟩
  · rintro ⟨gap, rfl, skips, start, stands⟩
    exact ⟨gap, _, rfl, skips, .token start stands⟩

theorem nextToken_eq_finished_iff {place last : Nat} {text : Text} :
    grammar.nextToken place text = .ending (.finished last) ↔
      grammar.Skips text [] ∧ last = place + Text.byteSize text := by
  rw [nextToken_eq_iff]
  constructor
  · rintro ⟨gap, _, rfl, skips, meets⟩
    cases meets
    rw [List.append_nil]
    exact ⟨skips, rfl⟩
  · rintro ⟨skips, rfl⟩
    exact ⟨text, [], (List.append_nil text).symm, skips, .finished⟩

/-! ## All tokens -/

/-- The text, which starts at a place of the input, is the tokens with what is skipped between
them. -/
inductive Tiles (grammar : Grammar O) : Nat → List Token → Text → Prop
  | last {place : Nat} {gap : Text} (skips : grammar.Skips gap []) : Tiles grammar place [] gap
  | token {place : Nat} {token : Token} {tokens : List Token} {gap rest : Text}
    (skips : grammar.Skips gap (token.text ++ rest))
    (start : token.start = place + Text.byteSize gap) (some : token.text ≠ [])
    (stands : grammar.Matches token rest) (more : Tiles grammar token.stop tokens rest) :
    Tiles grammar place (token :: tokens) (gap ++ (token.text ++ rest))

variable {place : Nat} {text : Text} {tokens : List Token}

theorem scanFrom_nil {last : Nat} : grammar.scanFrom place text = ⟨[], .finished last⟩ ↔
    grammar.nextToken place text = .ending (.finished last) := by
  rw [scanFrom_eq]
  cases grammar.nextToken place text with
  | ending ending => simp
  | token token rest => by_cases empty : token.text = [] <;> simp [empty]

theorem scanFrom_eq_finished_iff :
    (∃ last, grammar.scanFrom place text = ⟨tokens, .finished last⟩) ↔
      grammar.Tiles place tokens text := by
  induction tokens generalizing place text with
  | nil =>
    simp only [scanFrom_nil, nextToken_eq_finished_iff]
    constructor
    · rintro ⟨last, skips, -⟩
      exact .last skips
    · rintro ⟨skips⟩
      exact ⟨_, skips, rfl⟩
  | cons token tokens ih =>
    simp only [scanFrom_cons, nextToken_eq_token_iff]
    constructor
    · rintro ⟨last, some, rest, ⟨gap, rfl, skips, start, stands⟩, scanned⟩
      exact .token skips start some stands (ih.1 ⟨last, scanned⟩)
    · intro tiles
      cases tiles with
      | @token _ _ _ gap rest skips start some stands more =>
        obtain ⟨last, scanned⟩ := ih.2 more
        exact ⟨last, some, rest, ⟨gap, rfl, skips, start, stands⟩, scanned⟩

theorem tokens_eq_ok_iff {input : Text} :
    grammar.tokens input = .ok tokens ↔ grammar.Tiles 0 tokens input := by
  rw [← scanFrom_eq_finished_iff]
  exact ⟨scan_of_tokens input tokens, fun ⟨place, scanned⟩ => tokens_of_scan input tokens place scanned⟩

theorem Tiles.part (tiles : grammar.Tiles place tokens text) :
    ∀ token ∈ tokens, ∃ before after, text = before ++ (token.text ++ after) ∧
      token.start = place + Text.byteSize before ∧ token.text ≠ [] ∧
      grammar.Matches token after := by
  induction tiles with
  | last => exact List.forall_mem_nil _
  | @token place first tokens gap rest _ start some stands _ ih =>
    refine List.forall_mem_cons.2 ⟨⟨gap, rest, rfl, start, some, stands⟩, fun token mem => ?_⟩
    obtain ⟨before, after, rfl, start', some', stands'⟩ := ih token mem
    refine ⟨gap ++ (first.text ++ before), after, by simp, ?_, some', stands'⟩
    rw [start', stands.stop, start, Text.byteSize_append, Text.byteSize_append]
    omega

theorem Tiles.order (tiles : grammar.Tiles place tokens text) :
    tokens.Pairwise fun token later => token.stop ≤ later.start := by
  induction tiles with
  | last => exact .nil
  | token _ _ _ _ more ih =>
    refine .cons (fun later mem => ?_) ih
    obtain ⟨before, -, -, start, -, -⟩ := more.part later mem
    omega

/-- An input is divided into tokens in the one way in which they tile it. Each token takes up some
of the input, which is what the lexicon reads at its place for a symbol that is not ignored, and no
two of them overlap. -/
theorem tokens_tile (grammar : Grammar O) (input : Text) (tokens : List Token) :
    (grammar.tokens input = .ok tokens ↔ grammar.Tiles 0 tokens input) ∧
      (grammar.tokens input = .ok tokens →
        (∀ token ∈ tokens, token.start < token.stop ∧ ∃ before after,
          input = before ++ (token.text ++ after) ∧ token.start = Text.byteSize before ∧
          token.stop = Text.byteSize (before ++ token.text) ∧
          ∃ found, grammar.lexicon.longest? (token.text ++ after) = some found ∧
            found.text = token.text ∧ found.value = token.symbol ∧
            grammar.role? token.symbol ≠ some (.aside .ignored)) ∧
        tokens.Pairwise fun token later => token.stop ≤ later.start) := by
  refine ⟨tokens_eq_ok_iff, fun divided => ?_⟩
  have tiles := tokens_eq_ok_iff.1 divided
  refine ⟨fun token mem => ?_, tiles.order⟩
  obtain ⟨before, after, split, start, some, stands⟩ := tiles.part token mem
  obtain ⟨found, matched, text, value⟩ := stands.found
  have pos := byteSize_pos token.text some
  have stop := stands.stop
  rw [Nat.zero_add] at start
  refine ⟨by omega, before, after, split, start, ?_, found, matched, text, value, stands.serious⟩
  rw [Text.byteSize_append]
  omega

theorem tokens_tile_comments :
    let grammar : Grammar Text := ofRules [.operand "[0-9]+".toList id,
      .infixLeft "·".toList 20 (· ++ ·), .ignored "#[a-z]*;".toList]
    let tokens : List Token :=
      [⟨0, "12".toList, 1, 3, 0⟩, ⟨1, "·".toList, 4, 6, 20⟩, ⟨0, ['3'], 11, 12, 0⟩]
    let input : Text := " 12 ·#xy; 3#;".toList
    grammar.tokens input = .ok tokens ∧ grammar.Tiles 0 tokens input ∧
      (∀ token ∈ tokens, token.start < token.stop) ∧
      tokens.Pairwise fun token later => token.stop ≤ later.start := by
  intro grammar tokens input
  have divided : grammar.tokens input = .ok tokens := by decide +kernel
  obtain ⟨tiles, parts⟩ := tokens_tile grammar input tokens
  exact ⟨divided, tiles.1 divided, fun token mem => ((parts divided).1 token mem).1,
    (parts divided).2⟩

end Grammar

end OpGrammar
