import OpGrammar.Proofs.Allowed
import OpGrammar.Proofs.FormulaWords
import OpGrammar.Proofs.Statements

/-!
# Raised exponents

What formulas are turned into can be turned back: where the raised characters are lowered and the
spaces left out, there are the images of the tokens, one after the other. A base has no operator of
less power open at its end, so it never ends with an exponent of its own, and two exponents never
meet.
-/

namespace OpGrammar.Formula

/-! ## Lowering -/

/-- Every run of raised characters is lowered, with `^` before it. -/
def lower : (raised : Bool) → Text → Text
  | _, [] => []
  | raised, c :: text =>
    match lowered? c with
    | none => c :: lower false text
    | some d => if raised then d :: lower true text else '^' :: d :: lower true text

/-- The text without spaces and raised characters. -/
def flat (text : Text) : Text := lower false (text.filter (· ≠ ' '))

def Opens (text : Text) : Prop := ∃ c rest, text = c :: rest ∧ isPlain c

def Closes (text : Text) : Prop := ∃ front c, text = front ++ [c] ∧ isPlain c

section Lower

variable {a b text raised : Text} {c : Char}

theorem lowered?_of_isPlain (plain : isPlain c) : lowered? c = none := by
  simp only [isPlain, Bool.and_eq_true, Option.isNone_iff_eq_none] at plain
  exact plain.2

theorem ne_space_of_isPlain (plain : isPlain c) : c ≠ ' ' := by
  rintro rfl
  revert plain
  decide

theorem lower_cons_of_isPlain (plain : isPlain c) (raised : Bool) (text : Text) :
    lower raised (c :: text) = c :: lower false text := by
  simp [lower, lowered?_of_isPlain plain]

theorem lower_append_cons (plain : isPlain c) (raised : Bool) (a b : Text) :
    lower raised (a ++ c :: b) = lower raised a ++ c :: lower false b := by
  induction a generalizing raised with
  | nil => exact lower_cons_of_isPlain plain raised b
  | cons d a ih =>
    cases low : lowered? d with
    | none => simp [lower, low, ih]
    | some e => cases raised <;> simp [lower, low, ih]

theorem lower_of_plain (plain : ∀ c ∈ text, isPlain c) : lower false text = text := by
  induction text with
  | nil => rfl
  | cons c text ih =>
    rw [List.forall_mem_cons] at plain
    rw [lower_cons_of_isPlain plain.1, ih plain.2]

theorem isPlain_of_raised? {d : Char} (up : raised? c = some d) : isPlain c := by
  unfold raised? at up
  split at up <;> cases up <;> decide

theorem lower_run (run : text.mapM raised? = some raised) :
    (∀ c ∈ text, isPlain c) ∧ (∀ d ∈ raised, d ≠ ' ') ∧ lower true raised = text := by
  induction text generalizing raised with
  | nil =>
    cases run
    simp [lower]
  | cons c text ih =>
    simp only [List.mapM_cons, Option.bind_eq_bind, Option.bind_eq_some_iff] at run
    obtain ⟨d, up, raised, run, eq⟩ := run
    cases eq
    obtain ⟨plain, solid, back⟩ := ih run
    have low : lowered? d = some c := lowered?_eq_some.2 up
    refine ⟨List.forall_mem_cons.2 ⟨isPlain_of_raised? up, plain⟩, ?_, by simp [lower, low, back]⟩
    refine List.forall_mem_cons.2 ⟨?_, solid⟩
    rintro rfl
    cases low

theorem lower_false_of_run (run : text.mapM raised? = some raised) (some : text ≠ []) :
    lower false raised = '^' :: lower true raised := by
  cases text with
  | nil => exact absurd rfl some
  | cons c text =>
    simp only [List.mapM_cons, Option.bind_eq_bind, Option.bind_eq_some_iff] at run
    obtain ⟨d, up, raised, -, eq⟩ := run
    cases eq
    simp [lower, lowered?_eq_some.2 up]

end Lower

/-! ## Flat text -/

section Flat

variable {a b gap text raised : Text}

theorem filter_of_plain (plain : ∀ c ∈ text, isPlain c) : text.filter (· ≠ ' ') = text :=
  List.filter_eq_self.2 fun c mem => by simpa using ne_space_of_isPlain (plain c mem)

theorem flat_of_plain (plain : ∀ c ∈ text, isPlain c) : flat text = text := by
  rw [flat, filter_of_plain plain, lower_of_plain plain]

theorem flat_append (spaces : ∀ c ∈ gap, c = ' ') (opens : Opens b) :
    flat (a ++ (gap ++ b)) = flat a ++ flat b := by
  obtain ⟨c, b, rfl, plain⟩ := opens
  have solid : (c :: b).filter (· ≠ ' ') = c :: b.filter (· ≠ ' ') := by
    simp [ne_space_of_isPlain plain]
  have none : gap.filter (· ≠ ' ') = [] := List.filter_eq_nil_iff.2 (by simpa using spaces)
  rw [flat, List.filter_append, List.filter_append, none, List.nil_append, solid,
    lower_append_cons plain, flat, flat, solid, lower_cons_of_isPlain plain]

theorem flat_append_of_closes (closes : Closes a) : flat (a ++ b) = flat a ++ flat b := by
  obtain ⟨a, c, rfl, plain⟩ := closes
  have solid (b : Text) : (a ++ c :: b).filter (· ≠ ' ') =
      a.filter (· ≠ ' ') ++ c :: b.filter (· ≠ ' ') := by
    simp [ne_space_of_isPlain plain]
  have cut (b : Text) : flat (a ++ c :: b) = flat a ++ c :: flat b := by
    rw [flat, solid, lower_append_cons plain, flat, flat]
  rw [List.append_assoc, List.singleton_append, cut, cut, List.append_assoc]
  rfl

theorem flat_raised (run : text.mapM raised? = some raised) (some : text ≠ []) :
    flat raised = '^' :: flat text := by
  obtain ⟨plain, solid, back⟩ := lower_run run
  rw [flat_of_plain plain, flat, List.filter_eq_self.2 (by simpa using solid),
    lower_false_of_run run some, back]

theorem Opens.ne_nil (opens : Opens text) : text ≠ [] := by
  obtain ⟨c, rest, rfl, -⟩ := opens
  exact List.cons_ne_nil c rest

theorem Opens.append (opens : Opens a) (b : Text) : Opens (a ++ b) := by
  obtain ⟨c, a, rfl, plain⟩ := opens
  exact ⟨c, a ++ b, rfl, plain⟩

theorem Closes.append (closes : Closes b) (a : Text) : Closes (a ++ b) := by
  obtain ⟨b, c, rfl, plain⟩ := closes
  exact ⟨a ++ b, c, (List.append_assoc _ _ _).symm, plain⟩

theorem opens_of_plain (plain : ∀ c ∈ text, isPlain c) (some : text ≠ []) : Opens text := by
  obtain ⟨c, rest, rfl⟩ := List.exists_cons_of_ne_nil some
  exact ⟨c, rest, rfl, plain c List.mem_cons_self⟩

theorem closes_of_plain (plain : ∀ c ∈ text, isPlain c) (some : text ≠ []) : Closes text :=
  ⟨text.dropLast, text.getLast some, (List.dropLast_append_getLast some).symm,
    plain _ (List.getLast_mem some)⟩

theorem flat_power (closes : Closes a) (opens : Opens b) :
    flat (power a b) = flat a ++ '^' :: flat b := by
  unfold power
  split
  · rename_i raised run
    rw [flat_append_of_closes closes, flat_raised run opens.ne_nil]
  · have sign : Opens ('^' :: b) := ⟨'^', b, rfl, by decide⟩
    have apart : flat (['^'] ++ ([] ++ b)) = flat ['^'] ++ flat b := flat_append (by simp) opens
    rw [show a ++ '^' :: b = a ++ ([] ++ '^' :: b) from rfl, flat_append (by simp) sign]
    exact congrArg _ apart

end Flat

/-! ## Values of trees -/

theorem Spelling.image_plain {pattern word : Text} (spelling : Spelling pattern word) :
    image word ≠ [] ∧ ∀ c ∈ image word, isPlain c := by
  have signs : ∀ pair ∈ images, pair.2.toList ≠ [] ∧ pair.2.toList.all isPlain := by
    decide +kernel
  unfold image
  cases first : images.find? (·.1.toList == word) with
  | none => exact ⟨spelling.nonempty, spelling.plain⟩
  | some pair =>
    obtain ⟨some, plain⟩ := signs pair (List.mem_of_find?_eq_some first)
    exact ⟨some, List.all_eq_true.1 plain⟩

/-- The tokens stand for what the text says when it is flat. -/
structure Retains (text : Text) (tokens : List Token) : Prop where
  opens : Opens text
  flat_eq : flat text = tokens.flatMap fun token => image token.text

structure Written (token : Token) : Prop where
  spelling : Spelling (grammar.patternOf token.symbol) token.text
  carries : grammar.Carries token

theorem Written.image_eq {token : Token} (written : Written token) :
    image token.text = signOf token.symbol token.text := written.spelling.image_eq

section Retains

variable {a b : Text} {tokens tokens' : List Token} {token : Token}

theorem retains_image (written : Written token) : Retains (image token.text) [token] := by
  obtain ⟨some, plain⟩ := written.spelling.image_plain
  exact ⟨opens_of_plain plain some, by simp [flat_of_plain plain]⟩

theorem closes_image (written : Written token) : Closes (image token.text) := by
  obtain ⟨some, plain⟩ := written.spelling.image_plain
  exact closes_of_plain plain some

theorem Retains.append (first : Retains a tokens) (gap : Text) (spaces : ∀ c ∈ gap, c = ' ')
    (second : Retains b tokens') : Retains (a ++ (gap ++ b)) (tokens ++ tokens') := by
  refine ⟨first.opens.append _, ?_⟩
  rw [flat_append spaces second.opens, first.flat_eq, second.flat_eq, List.flatMap_append]

theorem Retains.power (first : Retains a tokens) (closes : Closes a)
    (sign : image token.text = ['^']) (second : Retains b tokens') :
    Retains (power a b) (tokens ++ token :: tokens') := by
  refine ⟨?_, ?_⟩
  · unfold Formula.power
    split <;> exact first.opens.append _
  · rw [flat_power closes second.opens, first.flat_eq, second.flat_eq, List.flatMap_append,
      List.flatMap_cons, sign]
    rfl

end Retains

/-- What a tree is turned into retains its tokens, and the base of a power ends with a plain
character. -/
theorem retains_value {tree : Tree Text} (builds : grammar.Builds tree) (ordered : tree.Ordered)
    (written : ∀ token ∈ tree.tokens, Written token) :
    Retains tree.value tree.tokens ∧ (tree.YieldsTo 30 → Closes tree.value) := by
  induction tree with
  | operand token make =>
    have word : Written token := written token List.mem_cons_self
    have draws : Draws token.symbol (.starter (.operand make)) := draws_of_starter? builds
    have value : make token.text = image token.text := (draws _).trans word.image_eq.symm
    rw [Tree.value, value]
    exact ⟨retains_image word, fun _ => closes_image word⟩
  | prefixOp token power apply inner ih =>
    obtain ⟨word, words⟩ := List.forall_mem_cons.1 written
    obtain ⟨retains, closes⟩ := ih builds.2 ordered.1 words
    have draws : Draws token.symbol (.starter (.prefixOp power apply)) :=
      draws_of_starter? builds.1
    have value : apply inner.value = image token.text ++ inner.value := by
      rw [word.image_eq, ← draws]
    rw [Tree.value, value]
    refine ⟨(retains_image word).append [] (by simp) retains, fun yields => ?_⟩
    exact (closes yields.2).append _
  | bracket opening closing wrap inner ih =>
    rw [Tree.tokens, List.forall_mem_append, List.forall_mem_cons, List.forall_mem_singleton]
      at written
    obtain ⟨⟨opens, words⟩, closes⟩ := written
    obtain ⟨retains, -⟩ := ih builds.2 ordered.1 words
    have draws : Draws opening.symbol (.starter (.bracket closing.symbol wrap)) :=
      draws_of_starter? builds.1
    have value : wrap inner.value = image opening.text ++ inner.value ++ image closing.text := by
      rw [opens.image_eq, closes.image_eq, ← draws]
    rw [Tree.value, value]
    have front : Retains (image opening.text ++ inner.value) (opening :: inner.tokens) :=
      (retains_image opens).append [] (by simp) retains
    refine ⟨front.append [] (by simp) (retains_image closes), fun _ => ?_⟩
    exact (closes_image closes).append _
  | infixOp token power combine left right ihl ihr =>
    rw [Tree.tokens, List.forall_mem_append, List.forall_mem_cons] at written
    obtain ⟨before, word, after⟩ := written
    obtain ⟨joins, buildsLeft, buildsRight⟩ := builds
    obtain ⟨⟨orderedLeft, yields⟩, orderedRight, -⟩ := ordered
    obtain ⟨retainsLeft, closes⟩ := ihl buildsLeft orderedLeft before
    obtain ⟨retainsRight, -⟩ := ihr buildsRight orderedRight after
    rcases joins with follows | ⟨p, follows, rfl⟩
    · obtain ⟨lt, gap, spaces, draws⟩ : Draws token.symbol (.follower (.infixLeft power combine)) :=
        draws_of_follower? follows
      have value : combine left.value right.value =
          left.value ++ (gap ++ (image token.text ++ (gap ++ right.value))) := by
        rw [word.image_eq, draws token.text, List.append_assoc]
      rw [Tree.value, value]
      have behind := (retains_image word).append gap spaces retainsRight
      refine ⟨retainsLeft.append gap spaces behind, fun yields' => ?_⟩
      exact absurd yields'.1 (Int32.not_le.2 lt)
    · obtain ⟨rfl, rfl, draws⟩ : Draws token.symbol (.follower (.infixRight p combine)) :=
        draws_of_follower? follows
      have tight : token.power = 30 := Grammar.power_of_follower word.carries follows
      have sign : image token.text = ['^'] := word.image_eq.trans (draws _)
      refine ⟨retainsLeft.power (closes (tight ▸ yields)) sign retainsRight, fun yields' => ?_⟩
      exact absurd yields'.1 (by decide)
  | postfixOp token apply inner ih =>
    rw [Tree.tokens, List.forall_mem_append, List.forall_mem_singleton] at written
    obtain ⟨words, word⟩ := written
    obtain ⟨⟨p, follows⟩, builds⟩ := builds
    obtain ⟨retains, -⟩ := ih builds ordered.1 words
    have draws : Draws token.symbol (.follower (.postfixOp p apply)) := draws_of_follower? follows
    have value : apply inner.value = inner.value ++ image token.text := by
      rw [word.image_eq, ← draws]
    rw [Tree.value, value]
    refine ⟨retains.append [] (by simp) (retains_image word), fun _ => ?_⟩
    exact (closes_image word).append _

/-! ## Statements -/

theorem written_of_tokens {input : Text} {tokens : List Token}
    (divided : grammar.tokens input = .ok tokens) : ∀ token ∈ tokens, Written token := by
  intro token mem
  refine ⟨spelling_of_tokens divided token mem, ?_⟩
  obtain ⟨last, scanned⟩ := Grammar.scan_of_tokens input tokens divided
  refine grammar.carries_of_scanFrom 0 input token ?_
  rwa [show grammar.scanFrom 0 input = _ from scanned]

theorem joinStatements_cons_cons (value next : Text) (values : List Text) :
    joinStatements (value :: next :: values) =
      value ++ ([' '] ++ joinStatements (next :: values)) := by
  simp [joinStatements]

theorem flat_joinStatements {values : List Text} (opens : ∀ value ∈ values, Opens value) :
    (values ≠ [] → Opens (joinStatements values)) ∧
      flat (joinStatements values) = values.flatMap flat := by
  induction values with
  | nil => exact ⟨absurd rfl, rfl⟩
  | cons value values ih =>
    obtain ⟨first, others⟩ := List.forall_mem_cons.1 opens
    obtain ⟨opens', same⟩ := ih others
    cases values with
    | nil => simp [joinStatements, first]
    | cons next values =>
      rw [joinStatements_cons_cons, flat_append (by simp) (opens' (List.cons_ne_nil _ _)), same]
      exact ⟨fun _ => first.append _, rfl⟩

theorem tokens_of_separates {trees : List (Tree Text)} {tokens : List Token}
    (separates : grammar.Separates trees tokens) : tokens = trees.flatMap Tree.tokens := by
  induction separates with
  | done => rfl
  | separator token separates _ _ =>
    exact absurd (Grammar.role?_of_isSeparator separates) (role?_ne_aside _)
  | statement tree _ ih => rw [ih, List.flatMap_cons]

/-- Turning formulas into text loses nothing: without spaces and with the raised characters lowered,
it is what the tokens stand for, one after the other. -/
theorem convert_retains (input out : Text) (converted : (convert input).result = .ok out) :
    ∃ tokens, grammar.tokens input = .ok tokens ∧
      flat out = tokens.flatMap fun token => image token.text := by
  obtain ⟨values, parsed, rfl⟩ := Run.exists_of_map converted
  obtain ⟨trees, parsedTrees, rfl⟩ := Run.exists_of_map parsed
  obtain ⟨tokens, divided, separates⟩ := Grammar.parseTrees_uses parsedTrees
  refine ⟨tokens, divided, ?_⟩
  have written := written_of_tokens divided
  obtain rfl := tokens_of_separates separates
  have retains (tree : Tree Text) (mem : tree ∈ trees) : Retains tree.value tree.tokens := by
    obtain ⟨builds, ordered, -⟩ := parseTrees_allows grammar parsedTrees tree mem
    exact (retains_value builds ordered fun token mem' =>
      written token (List.mem_flatMap.2 ⟨tree, mem, mem'⟩)).1
  calc flat (joinStatements (trees.map Tree.value))
    _ = (trees.map Tree.value).flatMap flat :=
      (flat_joinStatements (List.forall_mem_map.2 fun tree mem => (retains tree mem).opens)).2
    _ = trees.flatMap fun tree => flat tree.value := List.flatMap_map ..
    _ = trees.flatMap fun tree => tree.tokens.flatMap fun token => image token.text :=
      List.flatMap_congr fun tree mem => (retains tree mem).flat_eq
    _ = (trees.flatMap Tree.tokens).flatMap fun token => image token.text :=
      List.flatMap_assoc.symm

theorem convert_retains_powers :
    let input : Text := "(x^-1)^n!= -alpha y^(2)**oo//3".toList
    let out : Text := "(x⁻¹)ⁿ ≠ −α y^(2) ∗ ∞/3".toList
    (convert input).result = .ok out ∧ flat out = "(x^−1)^n≠−αy^(2)∗∞/3".toList ∧
      ∃ tokens, grammar.tokens input = .ok tokens ∧
        flat out = tokens.flatMap fun token => image token.text := by
  intro input out
  have run : (convert input).result = .ok out ∧ flat out = "(x^−1)^n≠−αy^(2)∗∞/3".toList := by
    decide +kernel
  exact ⟨run.1, run.2, convert_retains input out run.1⟩

end OpGrammar.Formula
