import OpGrammar.Grammar.Registry
import OpGrammar.Proofs.Symbols

/-!
# What a registry keeps in order

The numbers of the patterns fit the cells, and a cell that stands aside has nothing else. Each change
of a registry keeps this, and is the same change of the grammar that parses with it. So what is known
of the symbols of a grammar is known of the cells.
-/

namespace OpGrammar

variable {O : Type}

theorem Cell.role_eq_aside {cell : Cell O} {kind : Aside} :
    cell.role = .aside kind ↔ cell.kind = .aside kind := by
  unfold Cell.role
  split <;> simp_all

namespace Registry

variable {registry : Registry O} {pattern : Text} {id : Nat} {cell : Cell O}

def pattern? (registry : Registry O) (id : Nat) : Option Text :=
  registry.cells[id]?.map (·.pattern)

/-- The map has the number of each cell under its pattern, and nothing else. A cell that stands aside
neither starts nor follows an expression. -/
structure Linked (registry : Registry O) : Prop where
  numbers : ∀ pattern id, registry.find? pattern = some id ↔ registry.pattern? id = some pattern
  apart : ∀ (id : Nat) cell, registry.cells[id]? = some cell → cell.kind ≠ .expression →
    cell.starter = none ∧ cell.follower = none

theorem linked_empty : (empty : Registry O).Linked :=
  ⟨by simp [find?, pattern?, empty], by simp [empty]⟩

/-! ## The grammar of a registry -/

theorem pattern?_grammar (registry : Registry O) (id : Nat) :
    registry.grammar.pattern? id = registry.pattern? id := by
  simp [Grammar.pattern?, pattern?, grammar, Function.comp_def, Cell.symbol]

theorem role?_grammar (registry : Registry O) (id : Nat) :
    registry.grammar.role? id = registry.cells[id]?.map Cell.role := by
  simp [Grammar.role?, grammar, Function.comp_def, Cell.symbol]

theorem size_grammar (registry : Registry O) :
    registry.grammar.symbols.size = registry.cells.size :=
  Array.size_map

theorem Linked.symbolId? (linked : registry.Linked) (pattern : Text) :
    registry.grammar.symbolId? pattern = registry.find? pattern := by
  refine Option.ext fun id => ?_
  rw [Grammar.symbolId?_eq_some]
  simp only [pattern?_grammar, ← linked.numbers]
  refine and_iff_left_of_imp fun found j before found' => ?_
  have found' := (linked.numbers pattern j).2 found'
  exact Nat.ne_of_lt before (Option.some.inj (found'.symm.trans found))

theorem Linked.roleOf? (linked : registry.Linked) (pattern : Text) :
    registry.grammar.roleOf? pattern = (registry.cellOf? pattern).map Cell.role := by
  rw [Grammar.roleOf?, linked.symbolId?, cellOf?]
  cases registry.find? pattern with
  | none => rfl
  | some id => exact role?_grammar registry id

theorem Linked.present (linked : registry.Linked) (found : registry.find? pattern = some id) :
    ∃ cell, registry.cells[id]? = some cell ∧ registry.cellOf? pattern = some cell ∧
      cell.pattern = pattern := by
  obtain ⟨cell, present, same⟩ := Option.map_eq_some_iff.1 ((linked.numbers pattern id).1 found)
  exact ⟨cell, present, by simp [cellOf?, found, present], same⟩

/-! ## Changes of one cell -/

/-- The registry with another cell under a number. -/
def withCell (registry : Registry O) (id : Nat) (change : Cell O → Cell O) : Registry O :=
  { registry with cells := registry.cells.modify id change }

theorem grammar_withCell (present : registry.cells[id]? = some cell) (change : Cell O → Cell O)
    (same : (change cell).pattern = cell.pattern) :
    (registry.withCell id change).grammar = registry.grammar.withRole id (change cell).role := by
  refine congrArg (Grammar.mk · registry.lexicon registry.traced) (Array.ext_getElem? fun other => ?_)
  simp only [withCell, grammar, Array.getElem?_map, Array.getElem?_modify]
  by_cases here : id = other
  · subst here
    simp [present, Cell.symbol, same]
  · simp [here]

theorem Linked.withCell (linked : registry.Linked) (present : registry.cells[id]? = some cell)
    (change : Cell O → Cell O) (same : (change cell).pattern = cell.pattern)
    (apart : (change cell).kind ≠ .expression →
      (change cell).starter = none ∧ (change cell).follower = none) :
    (registry.withCell id change).Linked := by
  have at' (other : Nat) : (registry.withCell id change).cells[other]? =
      if id = other then some (change cell) else registry.cells[other]? := by
    rw [Registry.withCell, Array.getElem?_modify]
    split
    · rename_i here
      subst here
      rw [present, Option.map_some]
    · rfl
  refine ⟨fun pattern other => (linked.numbers pattern other).trans ?_, fun other cell' found => ?_⟩
  · rw [pattern?, pattern?, at']
    by_cases here : id = other
    · subst here
      simp [present, same]
    · rw [if_neg here]
  · rw [at'] at found
    split at found
    · cases found
      exact apart
    · exact linked.apart other cell' found

def withNew (registry : Registry O) (cell : Cell O) : Registry O :=
  { registry with
    cells := registry.cells.push cell
    numbers := registry.numbers.insert cell.pattern registry.cells.size }

theorem Linked.withNew (linked : registry.Linked) (unknown : registry.find? cell.pattern = none)
    (apart : cell.kind = .expression) : (registry.withNew cell).Linked := by
  refine ⟨fun pattern id => ?_, fun id cell' found aside => ?_⟩
  · have outside {pattern : Text} {id : Nat} (found : registry.pattern? id = some pattern) :
        id ≠ registry.cells.size := by
      rintro rfl
      simp [pattern?] at found
    simp only [find?, pattern?, Registry.withNew, Array.getElem?_push]
    by_cases here : pattern = cell.pattern
    · subst here
      have unused (id : Nat) : registry.pattern? id ≠ some cell.pattern :=
        fun found => by simp [(linked.numbers _ id).2 found] at unknown
      rw [AList.lookup_insert]
      by_cases last : id = registry.cells.size
      · simp [last]
      · simpa [last, Ne.symm last, pattern?] using unused id
    · rw [AList.lookup_insert_ne here]
      by_cases last : id = registry.cells.size
      · have new : registry.find? pattern ≠ some id :=
          fun found => outside ((linked.numbers pattern id).1 found) last
        simpa [last, Ne.symm here] using last ▸ new
      · simpa [last, find?, pattern?] using linked.numbers pattern id
  · rw [Registry.withNew, Array.getElem?_push] at found
    split at found
    · cases found
      exact absurd apart aside
    · exact linked.apart id cell' found aside

theorem grammar_withNew (registry : Registry O) (cell : Cell O) :
    (registry.withNew cell).grammar = Grammar.withRole { registry.grammar with
      symbols := registry.grammar.symbols.push ⟨cell.pattern, .expression none none⟩ }
        registry.cells.size cell.role := by
  refine congrArg (Grammar.mk · registry.lexicon registry.traced) (Array.ext_getElem? fun id => ?_)
  simp only [withNew, grammar, Array.getElem?_map, Array.getElem?_modify, Array.getElem?_push,
    Array.size_map]
  by_cases last : id = registry.cells.size
  · simp [last, Cell.symbol]
  · simp [last, Ne.symm last]

/-! ## Both sides of a change -/

def shown {α : Type} : EStateM.Result RuleError (Registry O) α →
    EStateM.Result RuleError (Grammar O) α
  | .ok a registry => .ok a registry.grammar
  | .error e registry => .error e registry.grammar

/-- A change of a registry in order leaves it in order, and is a change of the grammar. -/
def Mirrors {α : Type} (change : Change O α) (change' : Grammar.Change O α) : Prop :=
  ∀ registry, registry.Linked → shown (change registry) = change' registry.grammar ∧
    (Grammar.resultState (change registry)).Linked

theorem Mirrors.bind {α β : Type} {change : Change O α} {change' : Grammar.Change O α}
    {next : α → Change O β} {next' : α → Grammar.Change O β} (first : Mirrors change change')
    (later : ∀ a, Mirrors (next a) (next' a)) : Mirrors (change >>= next) (change' >>= next') := by
  intro registry linked
  obtain ⟨same, linked'⟩ := first registry linked
  rw [bind_apply, bind_apply, ← same]
  cases done : change registry with
  | ok a left =>
    rw [done] at linked'
    exact later a left linked'
  | error e left =>
    rw [done] at linked'
    exact ⟨rfl, linked'⟩

theorem mirrors_changeLexicon {α : Type} (change : EStateM LexiconError (Lexicon Nat) α) :
    Mirrors (changeLexicon change : Change O α) (Grammar.changeLexicon change) := by
  intro registry linked
  have kept (lexicon : Lexicon Nat) : Linked { registry with lexicon } :=
    ⟨linked.numbers, linked.apart⟩
  dsimp only [changeLexicon, Grammar.changeLexicon, grammar]
  cases change registry.lexicon <;> exact ⟨rfl, kept _⟩

/-! ## One cell -/

/-- The cell of a pattern, or the one that it would get. -/
def cellAt (registry : Registry O) (pattern : Text) : Cell O :=
  (registry.cellOf? pattern).getD ⟨pattern, .expression, none, none⟩

theorem Linked.roleAt (linked : registry.Linked) (pattern : Text) :
    registry.grammar.roleAt pattern = (registry.cellAt pattern).role := by
  rw [Grammar.roleAt, linked.roleOf?, cellAt]
  cases registry.cellOf? pattern <;> rfl

theorem Linked.apartAt (linked : registry.Linked) (pattern : Text)
    (aside : (registry.cellAt pattern).kind ≠ .expression) :
    (registry.cellAt pattern).starter = none ∧ (registry.cellAt pattern).follower = none := by
  cases found : registry.find? pattern with
  | none => simp [cellAt, cellOf?, found]
  | some id =>
    obtain ⟨cell, present, at', -⟩ := linked.present found
    rw [cellAt, at', Option.getD_some] at aside ⊢
    exact linked.apart id cell present aside

theorem place_old (found : registry.find? pattern = some id) (starter : Option (Starter O))
    (follower : Option (Follower O)) :
    place pattern starter follower registry =
      .ok id (registry.withCell id (Cell.attach starter follower)) := by
  simp only [place, bind_apply, get_apply, found, modify_apply, pure_apply, withCell]

theorem place_new (unknown : registry.find? pattern = none) {lexicon : Lexicon Nat}
    (taken : Lexicon.insert pattern registry.cells.size registry.lexicon = .ok () lexicon)
    (starter : Option (Starter O)) (follower : Option (Follower O)) :
    place pattern starter follower registry = .ok registry.cells.size
      (withNew { registry with lexicon } ⟨pattern, .expression, starter, follower⟩) := by
  simp only [place, bind_apply, get_apply, unknown, changeLexicon, taken, modify_apply, pure_apply,
    withNew]

theorem place_refused (unknown : registry.find? pattern = none) {e : LexiconError}
    {lexicon : Lexicon Nat}
    (refused : Lexicon.insert pattern registry.cells.size registry.lexicon = .error e lexicon)
    (starter : Option (Starter O)) (follower : Option (Follower O)) :
    place pattern starter follower registry = .error (.refused e) { registry with lexicon } := by
  simp only [place, bind_apply, get_apply, unknown, changeLexicon, refused]

theorem place_shown (linked : registry.Linked) (pattern : Text) (starter : Option (Starter O))
    (follower : Option (Follower O))
    (room : (registry.cellAt pattern).kind ≠ .expression → starter = none ∧ follower = none) :
    shown (place pattern starter follower registry) =
        (Grammar.addSymbol pattern >>= fun id =>
          Grammar.setRole id ((registry.cellAt pattern).attach starter follower).role >>=
            fun _ => pure id) registry.grammar ∧
      (Grammar.resultState (place pattern starter follower registry)).Linked ∧
      ∀ id left, place pattern starter follower registry = .ok id left →
        left.cells[id]? = some ((registry.cellAt pattern).attach starter follower) := by
  have number := linked.symbolId? pattern
  cases found : registry.find? pattern with
  | some id =>
    obtain ⟨cell, present, at', same⟩ := linked.present found
    have here : registry.cellAt pattern = cell := by rw [cellAt, at', Option.getD_some]
    rw [here] at room ⊢
    rw [place_old found]
    refine ⟨?_, ?_, fun _ _ eq => ?_⟩
    · rw [shown, grammar_withCell present (Cell.attach starter follower) rfl, bind_apply,
        Grammar.addSymbol_old (number.trans found)]
      rfl
    · refine linked.withCell present _ rfl fun aside => ?_
      obtain ⟨rfl, rfl⟩ := room aside
      exact linked.apart id cell present aside
    · cases eq
      rw [withCell, Array.getElem?_modify, if_pos rfl, present, Option.map_some]
  | none =>
    have here : registry.cellAt pattern = ⟨pattern, .expression, none, none⟩ := by
      simp [cellAt, cellOf?, found]
    have attached : Cell.attach starter follower ⟨pattern, .expression, none, none⟩ =
        ⟨pattern, .expression, starter, follower⟩ := by simp [Cell.attach]
    have linked' (lexicon : Lexicon Nat) : Linked { registry with lexicon } :=
      ⟨linked.numbers, linked.apart⟩
    rw [here, attached, bind_apply]
    cases taken : Lexicon.insert pattern registry.cells.size registry.lexicon with
    | error e lexicon =>
      have taken' := taken
      rw [← size_grammar] at taken'
      rw [place_refused found taken, Grammar.addSymbol_refused (number.trans found) taken']
      exact ⟨rfl, linked' lexicon, fun _ _ eq => nomatch eq⟩
    | ok _ lexicon =>
      have taken' := taken
      rw [← size_grammar] at taken'
      rw [place_new found taken, Grammar.addSymbol_new (number.trans found) taken', shown,
        grammar_withNew, size_grammar]
      refine ⟨rfl, (linked' lexicon).withNew found rfl, fun _ _ eq => ?_⟩
      cases eq
      simp [withNew]

/-! ## Checks -/

theorem requireRoom_false (pattern : Text) :
    (requireRoom pattern false false : Change O Unit) = pure () := by
  funext registry
  simp only [requireRoom, bind_apply, get_apply]
  cases registry.cellOf? pattern <;> rfl

/-- The two checks refuse for the same reason, or both pass and `holds` tells why. -/
def Agrees (check : Change O Unit) (check' : Grammar.Change O Unit) (holds : Registry O → Prop) :
    Prop :=
  ∀ registry, registry.Linked →
    (∃ e, check registry = .error e registry ∧ check' registry.grammar = .error e registry.grammar) ∨
      holds registry ∧ check registry = .ok () registry ∧
        check' registry.grammar = .ok () registry.grammar

theorem Agrees.mirrors {check : Change O Unit} {check' : Grammar.Change O Unit}
    {holds : Registry O → Prop} {α : Type} {next : Change O α} {next' : Grammar.Change O α}
    (agrees : Agrees check check' holds)
    (later : ∀ registry, registry.Linked → holds registry →
      shown (next registry) = next' registry.grammar ∧
        (Grammar.resultState (next registry)).Linked) :
    Mirrors (check >>= fun _ => next) (check' >>= fun _ => next') := by
  intro registry linked
  rcases agrees registry linked with ⟨e, refuses, refuses'⟩ | ⟨why, passes, passes'⟩
  · rw [bind_apply, refuses, bind_apply, refuses']
    exact ⟨rfl, linked⟩
  · rw [bind_apply, passes, bind_apply, passes']
    exact later registry linked why

theorem agrees_noStarter (pattern : Text) :
    Agrees (requireRoom pattern true false : Change O Unit) (Grammar.requireNoStarter pattern)
      fun registry => (registry.cellAt pattern).kind = .expression := by
  intro registry linked
  have role := linked.roleOf? pattern
  rcases has : registry.cellOf? pattern with _ | ⟨_, _ | _, _ | _, _⟩ <;> rw [has] at role <;>
    simp [requireRoom, has, Grammar.requireNoStarter, role, Cell.role, cellAt]

theorem agrees_noFollower (pattern : Text) :
    Agrees (requireRoom pattern false true : Change O Unit) (Grammar.requireNoFollower pattern)
      fun registry => (registry.cellAt pattern).kind = .expression := by
  intro registry linked
  have role := linked.roleOf? pattern
  rcases has : registry.cellOf? pattern with _ | ⟨_, _ | _, _, _ | _⟩ <;> rw [has] at role <;>
    simp [requireRoom, has, Grammar.requireNoFollower, role, Cell.role, cellAt]

theorem agrees_aside (pattern : Text) (kind : Aside) :
    Agrees (requireUnused pattern kind : Change O Unit) (Grammar.requireAside pattern kind)
      fun registry => (registry.cellAt pattern).starter = none ∧
        (registry.cellAt pattern).follower = none := by
  intro registry linked
  have role := linked.roleOf? pattern
  have apart := linked.apartAt pattern
  rcases has : registry.cellOf? pattern with _ | ⟨_, _ | kind', _ | _, _ | _⟩ <;> rw [has] at role <;>
    simp [requireUnused, has, Grammar.requireAside, role, Cell.role, cellAt] at apart ⊢
  by_cases same : kind' = kind <;> simp [same]

/-! ## Rules -/

theorem register_none (pattern : Text) :
    (register pattern none none : Change O Nat) = place pattern none none := by
  rw [register, Option.isSome_none, Option.isSome_none, requireRoom_false]
  rfl

theorem mirrors_register (pattern : Text) :
    Mirrors (register pattern none none : Change O Nat) (Grammar.addSymbol pattern) := by
  intro registry linked
  obtain ⟨same, linked', -⟩ := place_shown linked pattern none none fun _ => ⟨rfl, rfl⟩
  rw [register_none, same]
  refine ⟨?_, linked'⟩
  rw [bind_apply]
  cases numbered : Grammar.addSymbol pattern registry.grammar with
  | error e left => rfl
  | ok id left =>
    have has := (Grammar.numbers_of_eq numbered).role?_left
    rw [linked.roleAt] at has
    exact congrArg _ (Grammar.withRole_self has)

theorem attached_shown (linked : registry.Linked) (pattern : Text) (starter : Option (Starter O))
    (follower : Option (Follower O)) (room : (registry.cellAt pattern).kind = .expression)
    {next : Nat → Grammar.Change O Unit}
    (sets : ∀ id left, left.role? id = some (registry.cellAt pattern).role → next id left =
      .ok () (left.withRole id ((registry.cellAt pattern).attach starter follower).role)) :
    shown ((place pattern starter follower >>= fun _ => pure ()) registry) =
        (Grammar.addSymbol pattern >>= next) registry.grammar ∧
      (Grammar.resultState
        ((place pattern starter follower >>= fun _ => pure ()) registry)).Linked := by
  obtain ⟨same, linked', -⟩ := place_shown linked pattern starter follower (absurd room)
  simp only [bind_apply] at same ⊢
  cases numbered : Grammar.addSymbol pattern registry.grammar with
  | error e left =>
    rw [numbered] at same
    cases placed : place pattern starter follower registry <;> rw [placed] at same linked' <;>
      cases same
    exact ⟨rfl, linked'⟩
  | ok id left =>
    have has := (Grammar.numbers_of_eq numbered).role?_left
    rw [linked.roleAt] at has
    rw [numbered] at same
    dsimp only
    rw [sets id left has]
    cases placed : place pattern starter follower registry with
    | error e left' =>
      rw [placed] at same
      nomatch same
    | ok id' left' =>
      rw [placed] at same linked'
      injection same with _ same
      exact ⟨congrArg _ same, linked'⟩

theorem mirrors_attachStarter (pattern : Text) (starter : Starter O) :
    Mirrors (attachStarter pattern starter) (Grammar.addStarter pattern starter) := by
  have eq : attachStarter pattern starter = (requireRoom pattern true false >>= fun _ =>
      place pattern (some starter) none >>= fun _ => pure ()) := by
    simp [attachStarter, register]
  rw [eq]
  refine (agrees_noStarter pattern).mirrors fun registry linked room => ?_
  refine attached_shown linked pattern (some starter) none room fun id left has => ?_
  simp [has, Cell.role, Cell.attach, room, Role.follower?, Grammar.setRole_apply]

theorem mirrors_attachFollower (pattern : Text) (follower : Follower O) :
    Mirrors (attachFollower pattern follower) (Grammar.addFollower pattern follower) := by
  have eq : attachFollower pattern follower = (requireRoom pattern false true >>= fun _ =>
      place pattern none (some follower) >>= fun _ => pure ()) := by
    simp [attachFollower, register]
  rw [eq]
  refine (agrees_noFollower pattern).mirrors fun registry linked room => ?_
  refine attached_shown linked pattern none (some follower) room fun id left has => ?_
  simp [has, Cell.role, Cell.attach, room, Role.starter?, Grammar.setRole_apply]

theorem mirrors_assign (pattern : Text) (kind : Aside) :
    Mirrors (assign pattern kind : Change O Unit) (Grammar.addAside pattern kind) := by
  refine (agrees_aside pattern kind).mirrors fun registry linked ⟨noStarter, noFollower⟩ => ?_
  obtain ⟨same, linked'⟩ := mirrors_register pattern registry linked
  obtain ⟨-, -, attached⟩ := place_shown linked pattern none none fun _ => ⟨rfl, rfl⟩
  rw [bind_apply, bind_apply, ← same]
  rw [register_none] at linked' ⊢
  cases placed : place pattern none none registry with
  | error e left =>
    rw [placed] at linked'
    exact ⟨rfl, linked'⟩
  | ok id left =>
    rw [placed] at linked'
    have present := attached id left placed
    have changed := grammar_withCell present ({ · with kind := .aside kind }) rfl
    refine ⟨congrArg _ changed, linked'.withCell present _ rfl fun _ => ?_⟩
    exact ⟨by simp [Cell.attach, noStarter], by simp [Cell.attach, noFollower]⟩

/-- A rule does to the grammar of a registry what it does to the registry. -/
theorem mirrors_add (rule : Rule O) : Mirrors (add rule) (Grammar.add rule) := by
  cases rule with
  | name name pattern => exact mirrors_changeLexicon _
  | operand | prefixOp => exact mirrors_attachStarter _ _
  | infixLeft | infixRight | postfixOp => exact mirrors_attachFollower _ _
  | separator | ignored => exact mirrors_assign _ _
  | brackets opening closing wrap =>
    refine (agrees_noStarter opening).mirrors fun registry linked _ => ?_
    have both := (mirrors_register closing).bind fun id =>
      mirrors_attachStarter opening (.bracket id wrap)
    exact both registry linked

/-! ## All rules -/

theorem extend_eq (registry : Registry O) (rule : Rule O) :
    registry.extend rule = Grammar.resultState (add rule registry) := by
  unfold extend
  cases add rule registry <;> rfl

theorem extend_mirrors (linked : registry.Linked) (rule : Rule O) :
    (registry.extend rule).Linked ∧
      (registry.extend rule).grammar = registry.grammar.extend rule := by
  obtain ⟨same, linked'⟩ := mirrors_add rule registry linked
  rw [extend_eq, Grammar.extend_eq, ← same]
  refine ⟨linked', ?_⟩
  cases add rule registry <;> rfl

theorem ofRules_mirrors (rules : List (Rule O)) :
    (ofRules rules).Linked ∧ (ofRules rules).grammar = Grammar.ofRules rules := by
  induction rules using List.reverseRecOn with
  | nil => exact ⟨linked_empty, by simp [ofRules, Grammar.ofRules, grammar, empty, Grammar.empty]⟩
  | append_singleton rules rule ih =>
    obtain ⟨linked, same⟩ := ih
    have step := extend_mirrors linked rule
    rw [same] at step
    simpa [ofRules, Grammar.ofRules] using step

/-! ## In order and for good -/

/-- The cells, the numbers of their patterns and the lexicon fit together. -/
structure Consistent (registry : Registry O) : Prop where
  /-- Each number in the map is that of the cell with the pattern, and each cell is in it. -/
  numbers : ∀ pattern id, registry.find? pattern = some id ↔ registry.pattern? id = some pattern
  /-- The lexicon took just the patterns in the map, each with its number. -/
  entries : ∃ entries, registry.lexicon = Lexicon.ofEntries entries ∧
    ∀ pattern id, Lexicon.Registers entries pattern id ↔ registry.find? pattern = some id
  patterns : ∀ pattern, pattern ∈ registry.lexicon.patterns ↔ pattern ∈ registry.numbers
  values : ∀ (id : Nat) node value, registry.lexicon.graph[id]? = some node →
    node.value = some value → value < registry.cells.size
  found : ∀ text found, registry.lexicon.longest? text = some found →
    found.value < registry.cells.size
  tokens : ∀ input, ∀ token ∈ (registry.grammar.scan input).unrolled.tokens,
    token.symbol < registry.cells.size
  closes : ∀ (id : Nat) cell closing wrap, registry.cells[id]? = some cell →
    cell.starter = some (.bracket closing wrap) → closing < registry.cells.size
  apart : ∀ (id : Nat) cell, registry.cells[id]? = some cell → cell.kind ≠ .expression →
    cell.starter = none ∧ cell.follower = none

/-- No cell has lost its pattern, what was attached to it, or that it stands aside. -/
def Keeps (registry registry' : Registry O) : Prop :=
  ∀ (id : Nat) cell, registry.cells[id]? = some cell →
    ∃ cell', registry'.cells[id]? = some cell' ∧ cell'.pattern = cell.pattern ∧
      (∀ starter, cell.starter = some starter → cell'.starter = some starter) ∧
      (∀ follower, cell.follower = some follower → cell'.follower = some follower) ∧
      (cell.kind ≠ .expression → cell'.kind = cell.kind)

theorem Linked.starter? (linked : registry.Linked) (present : registry.cells[id]? = some cell) :
    registry.grammar.starter? id = cell.starter := by
  rw [Grammar.starter?, role?_grammar, present]
  cases kind : cell.kind with
  | expression => simp [Cell.role, kind, Role.starter?]
  | aside _ => simp [Cell.role, kind, Role.starter?, linked.apart id cell present (by simp [kind])]

theorem Linked.follower? (linked : registry.Linked) (present : registry.cells[id]? = some cell) :
    registry.grammar.follower? id = cell.follower := by
  rw [Grammar.follower?, role?_grammar, present]
  cases kind : cell.kind with
  | expression => simp [Cell.role, kind, Role.follower?]
  | aside _ => simp [Cell.role, kind, Role.follower?, linked.apart id cell present (by simp [kind])]

theorem Linked.consistent (linked : registry.Linked) (consistent : registry.grammar.Consistent) :
    registry.Consistent where
  numbers := linked.numbers
  entries := by
    simp only [← linked.symbolId?]
    exact consistent.entries
  patterns pattern := by
    rw [← AList.lookup_isSome, ← find?, ← linked.symbolId?]
    exact consistent.patterns pattern
  values := size_grammar registry ▸ consistent.values
  found := size_grammar registry ▸ consistent.found
  tokens := size_grammar registry ▸ consistent.tokens
  closes id cell closing wrap present starts := by
    rw [← size_grammar]
    exact consistent.closes id closing wrap ((linked.starter? present).trans starts)
  apart := linked.apart

theorem Linked.keeps {registry' : Registry O} (linked : registry.Linked) (linked' : registry'.Linked)
    (keeps : registry.grammar.Keeps registry'.grammar) : registry.Keeps registry' := by
  intro id cell present
  have named : registry.grammar.pattern? id = some cell.pattern := by
    rw [pattern?_grammar, pattern?, present, Option.map_some]
  have named' := keeps.pattern id cell.pattern named
  rw [pattern?_grammar] at named'
  obtain ⟨cell', present', same⟩ := Option.map_eq_some_iff.1 named'
  refine ⟨cell', present', same, fun starter has => ?_, fun follower has => ?_, fun aside => ?_⟩
  · rw [← linked'.starter? present']
    exact keeps.starter id starter ((linked.starter? present).trans has)
  · rw [← linked'.follower? present']
    exact keeps.follower id follower ((linked.follower? present).trans has)
  · cases kind : cell.kind with
    | expression => exact absurd kind aside
    | aside what =>
      have had : registry.grammar.role? id = some (.aside what) := by
        rw [role?_grammar, present, Option.map_some, Cell.role_eq_aside.2 kind]
      have role := keeps.aside id what had
      rw [role?_grammar, present', Option.map_some] at role
      exact Cell.role_eq_aside.1 (Option.some.inj role)

/-- Whatever rules are taken or refused, the numbers of the patterns and those of the cells are the
same, so are the patterns of the lexicon, every number that the lexicon or a bracket leads to is that
of a cell, and a cell that stands aside has no other use. No later rule changes what a cell is used
for. The grammar of the registry is the one that the rules make, and takes and refuses what the
registry does. -/
theorem consistent_and_keeps (rules more : List (Rule O)) :
    (ofRules rules).Consistent ∧ (ofRules rules).Keeps (ofRules (rules ++ more)) ∧
      (ofRules rules).grammar = Grammar.ofRules rules ∧
      ∀ rule, shown (add rule (ofRules rules)) = Grammar.add rule (Grammar.ofRules rules) := by
  obtain ⟨linked, same⟩ := ofRules_mirrors rules
  obtain ⟨linked', same'⟩ := ofRules_mirrors (rules ++ more)
  refine ⟨linked.consistent ?_, linked.keeps linked' ?_, same, fun rule => ?_⟩
  · rw [same]
    exact Grammar.ofRules_consistent rules
  · rw [same, same']
    exact Grammar.ofRules_keeps rules more
  · rw [← same]
    exact (mirrors_add rule _ linked).1

end Registry

end OpGrammar
