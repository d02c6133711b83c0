import OpGrammar.Proofs.Charts
import OpGrammar.Proofs.Completeness
import OpGrammar.Proofs.InnerGroups

/-!
# What a lexicon reads

Patterns that meet at a place go on from there in common, so a lexicon may read a text that no pattern
describes. It reads nothing that is not spelled by a way which leads to the place of a word.
-/

open scoped Computability

namespace OpGrammar

variable {ν : Type}

/-! ## Links of atoms -/

section Links

variable {meanings : Meanings} {scope : Scope}

theorem Group.Finds.mono {group : Group} {l l' : Language Char} (finds : group.Finds l)
    (le : l ≤ l') : group.Finds l' :=
  fun text found ran => le (finds text found ran)

theorem Link.Finds.mono {link : Link} {groups groups' : GroupId → Language Char}
    (finds : link.Finds groups) (le : ∀ id, groups id ≤ groups' id) : link.Finds groups' := by
  cases link with
  | chars items => trivial
  | group g label => exact Group.Finds.mono finds (le g.id)

/-- The names stand for the groups that they mean. -/
structure Meanings.Agrees (meanings : Meanings) (scope : Scope) : Prop where
  generation : scope.generation = meanings.generation
  ids : ∀ name, scope.ids name = (meanings.group? name).map Group.id
  finds : ∀ name group, meanings.group? name = some group → group.Finds (scope.reads name)

/-- The link reads the letters of the atom, and its group finds what the atom reads. -/
def Suits (scope : Scope) (groups : GroupId → Language Char) (piece : Piece Atom)
    (link : Piece Link) : Prop :=
  SameLetters scope.letters Link.letters piece link ∧ link.atom.Finds groups

theorem suits_of_freshBranches {pattern : Pattern} {links : Branches Link}
    (made : freshBranches meanings pattern = some links)
    (atoms : ∀ branch ∈ pattern, ∀ piece ∈ branch, ∀ link,
      piece.atom.freshLink meanings = some link →
      link.letters = scope.letters piece.atom ∧ link.Finds (piece.atom.reads scope)) :
    links.language Link.letters = pattern.words scope ∧
      links.spots Link.letters = pattern.spots scope ∧
      ∀ branch ∈ links, ∀ piece ∈ branch, piece.atom.Finds (pattern.reads scope) := by
  have all := forall₂_of_freshBranches (R := Suits scope (pattern.reads scope)) made
    fun branch mem piece mem' link ⟨often, made⟩ => by
      obtain ⟨letters, finds⟩ := atoms branch mem piece mem' link.atom made
      exact ⟨⟨often, letters⟩, finds.mono fun id t reads =>
        Pattern.mem_reads.2 ⟨branch, mem, piece, mem', reads⟩⟩
  obtain ⟨words, spots⟩ := Branches.congr (all.imp fun _ _ row => row.imp fun _ _ suits => suits.1)
  exact ⟨words, spots,
    mem_of_forall₂ (all.imp fun _ _ row => mem_of_forall₂ (row.imp fun _ _ suits => suits.2))⟩

/-- The link of an atom reads its letters. The group of one in parentheses finds what the atom
reads, by induction on how groups nest in the atom. -/
theorem Atom.suits_freshLink (agrees : meanings.Agrees scope) (atom : Atom) (well : atom.WellRead)
    (link : Link) (made : atom.freshLink meanings = some link) :
    link.letters = scope.letters atom ∧ link.Finds (atom.reads scope) := by
  induction well generalizing link with
  | char c =>
    rw [freshLink] at made
    cases made
    refine ⟨Set.ext fun w => ⟨?_, ?_⟩, trivial⟩
    · rintro ⟨d, rfl, item, mem, same⟩
      obtain rfl := List.mem_singleton.1 mem
      rw [beq_iff_eq.1 same]
      rfl
    · rintro rfl
      exact ⟨c, rfl, .single c, List.mem_singleton_self _, beq_self_eq_true c⟩
  | oneOf items some =>
    rw [freshLink] at made
    cases made
    exact ⟨rfl, trivial⟩
  | reference label name =>
    rw [freshLink] at made
    obtain ⟨group, known, rfl⟩ := Option.map_eq_some_iff.1 made
    have named : scope.ids name = some group.id := by rw [agrees.ids, known]; rfl
    refine ⟨Set.ext fun w => ?_, fun text found ran => ?_⟩
    · show w = [.group group.id label] ↔
        ∃ id, scope.ids name = some id ∧ w = [.group id label]
      simp [named]
    · rw [reads]
      exact ⟨named, agrees.finds name group known text found ran⟩
  | group source inner read parts ih =>
    rw [freshLink] at made
    obtain ⟨links, fresh, rfl⟩ := Option.map_eq_some_iff.1 made
    obtain ⟨words, spots, finds⟩ := suits_of_freshBranches fresh ih
    have id : GroupId.inline source scope.generation = .inline source meanings.generation := by
      rw [agrees.generation]
    refine ⟨?_, fun text found ran => ?_⟩
    · simp only [Link.letters, Scope.letters, id]
      rfl
    · have reads := ofBranches_finds finds _ text found ran
      rw [words, spots] at reads
      rw [Atom.reads]
      exact ⟨id.symm, reads⟩

theorem Pattern.suits_links (agrees : meanings.Agrees scope) {text : Text} {pattern : Pattern}
    (read : Pattern.read text = .ok pattern) {links : Branches Link}
    (made : freshBranches meanings pattern = some links) :
    links.language Link.letters = pattern.words scope ∧
      links.spots Link.letters = pattern.spots scope ∧
      ∀ branch ∈ links, ∀ piece ∈ branch, piece.atom.Finds (pattern.reads scope) :=
  suits_of_freshBranches made fun branch mem piece mem' _ made =>
    piece.atom.suits_freshLink agrees (wellRead_of_read read branch mem piece mem') _ made

end Links

namespace Lexicon

/-! ## What the patterns describe -/

/-- What the names mean after an entry. A name that gets a meaning has the language of the pattern,
with the names in it as they were before. -/
def namesAfter (lexicon : Lexicon ν) (names : Text → Language Char) :
    Entry ν → Text → Language Char
  | .pattern _ _ => names
  | .meaning name text =>
    match enter (.meaning name text) lexicon, Pattern.read text with
    | .ok _ _, .ok pattern => Function.update names name (pattern.language names)
    | _, _ => names

def namesOf (entries : List (Entry ν)) : Text → Language Char :=
  (entries.foldl (fun state entry => (state.1.extend entry, namesAfter state.1 state.2 entry))
    (empty, fun _ => 0)).2

/-- The texts that a pattern with this value describes which was taken, with the names in it as they
were then. -/
def describes (entries : List (Entry ν)) (value : ν) : Language Char :=
  {w | ∃ before text pattern, Took entries before (.pattern text value) ∧
    Pattern.read text = .ok pattern ∧ w ∈ pattern.language (namesOf before)}

variable {entries : List (Entry ν)}

theorem namesOf_concat (entries : List (Entry ν)) (entry : Entry ν) :
    namesOf (entries ++ [entry]) = namesAfter (ofEntries entries) (namesOf entries) entry := by
  rw [namesOf, List.foldl_concat, fst_foldl_extend, namesOf]

theorem namesAfter_of_error {lexicon lexicon' : Lexicon ν} {names : Text → Language Char}
    {name text : Text} {e : LexiconError}
    (refused : setMeaning name text lexicon = .error e lexicon') :
    namesAfter lexicon names (.meaning name text) = names := by
  simp only [namesAfter, enter, refused]

theorem namesAfter_of_ok {lexicon lexicon' : Lexicon ν} {names : Text → Language Char}
    {name text : Text} {pattern : Pattern}
    (taken : setMeaning name text lexicon = .ok () lexicon')
    (read : Pattern.read text = .ok pattern) :
    namesAfter lexicon names (.meaning name text) =
      Function.update names name (pattern.language names) := by
  simp only [namesAfter, enter, taken, read]

/-! ## Places of patterns -/

/-- What names stand for, and the pieces of all patterns so far. -/
structure Plan where
  scope : Scope
  spots : List Spot

/-- The plan after an entry, which is the same when the entry is refused. -/
def planAfter (lexicon : Lexicon ν) (plan : Plan) : Entry ν → Plan
  | .meaning name text =>
    match enter (.meaning name text) lexicon, Pattern.read text with
    | .ok _ _, .ok pattern => { plan with scope := plan.scope.learn name pattern }
    | _, _ => plan
  | .pattern text value =>
    match enter (.pattern text value) lexicon, Pattern.read text with
    | .ok _ _, .ok pattern => { plan with spots := plan.spots ++ pattern.spots plan.scope }
    | _, _ => plan

/-- The plan of some entries, made with no graph. -/
def planOf (entries : List (Entry ν)) : Plan :=
  (entries.foldl (fun state entry => (state.1.extend entry, planAfter state.1 state.2 entry))
    (empty, ⟨⟨0, fun _ => none, fun _ => 0⟩, []⟩)).2

def wordsOf (entries : List (Entry ν)) (value : ν) : Language Letter :=
  {y | ∃ before text pattern, Took entries before (.pattern text value) ∧
    Pattern.read text = .ok pattern ∧ y ∈ pattern.words (planOf before).scope}

def readsOf (entries : List (Entry ν)) (id : GroupId) : Language Char :=
  {t | ∃ before text value pattern, Took entries before (.pattern text value) ∧
    Pattern.read text = .ok pattern ∧ t ∈ pattern.reads (planOf before).scope id}

theorem planOf_concat (entries : List (Entry ν)) (entry : Entry ν) :
    planOf (entries ++ [entry]) = planAfter (ofEntries entries) (planOf entries) entry := by
  rw [planOf, List.foldl_concat, fst_foldl_extend, planOf]

theorem readsOf_concat (entries : List (Entry ν)) (entry : Entry ν) (id : GroupId) :
    readsOf entries id ≤ readsOf (entries ++ [entry]) id := by
  rintro t ⟨before, text, value, pattern, took, read, mem⟩
  exact ⟨before, text, value, pattern, took.concat entry, read, mem⟩

theorem reads_le_readsOf {text : Text} {value : ν} {pattern : Pattern}
    (accepts : (ofEntries entries).Accepts (.pattern text value))
    (read : Pattern.read text = .ok pattern) (id : GroupId) :
    pattern.reads (planOf entries).scope id ≤ readsOf (entries ++ [.pattern text value]) id :=
  fun _ mem => ⟨entries, text, value, pattern, took_concat _ accepts, read, mem⟩

theorem wordsOf_concat_of_refused {entry : Entry ν}
    (refused : ∀ text value, entry = .pattern text value → ¬(ofEntries entries).Accepts entry) :
    wordsOf (entries ++ [entry]) = wordsOf entries := by
  refine funext fun value => Set.ext fun y => ⟨?_, ?_⟩
  · rintro ⟨before, text, pattern, took, read, mem⟩
    rcases took_concat_iff.1 took with took | ⟨rfl, rfl, accepts⟩
    · exact ⟨before, text, pattern, took, read, mem⟩
    · exact absurd accepts (refused text value rfl)
  · rintro ⟨before, text, pattern, took, read, mem⟩
    exact ⟨before, text, pattern, took.concat entry, read, mem⟩

theorem mem_wordsOf_concat {text : Text} {value : ν} {pattern : Pattern}
    (accepts : (ofEntries entries).Accepts (.pattern text value))
    (read : Pattern.read text = .ok pattern) (v : ν) (y : Way) :
    y ∈ wordsOf (entries ++ [.pattern text value]) v ↔
      y ∈ wordsOf entries v ∨ v = value ∧ y ∈ pattern.words (planOf entries).scope := by
  constructor
  · rintro ⟨before, text', pattern', took, read', mem⟩
    rcases took_concat_iff.1 took with took | ⟨rfl, same, -⟩
    · exact .inl ⟨before, text', pattern', took, read', mem⟩
    · cases same
      obtain rfl := Except.ok.inj (read.symm.trans read')
      exact .inr ⟨rfl, mem⟩
  · rintro (⟨before, text', pattern', took, read', mem⟩ | ⟨rfl, mem⟩)
    · exact ⟨before, text', pattern', took.concat _, read', mem⟩
    · exact ⟨entries, text, pattern, took_concat _ accepts, read, mem⟩

/-! ## Every lexicon -/

/-- The lexicon is as the plan says: its nodes are the places of the words, and its names stand for
what they do in the plan. -/
structure Follows (lexicon : Lexicon ν) (plan : Plan) (words : ν → Language Letter)
    (groups : GroupId → Language Char) : Prop where
  charted : Charted lexicon.graph plan.spots groups
  ends : Ends lexicon.graph words
  agrees : lexicon.meanings.Agrees plan.scope

theorem agrees_learn {meanings : Meanings} {scope : Scope} (agrees : meanings.Agrees scope)
    (name : Text) (pattern : Pattern) (links : Branches Link)
    (finds : ∀ id, (Group.ofBranches id links).Finds (pattern.reading scope)) (generation : Nat)
    (next : generation = if meanings.knows name then meanings.generation + 1
      else meanings.generation) :
    Meanings.Agrees ⟨(name, .ofBranches (.named name generation) links) :: meanings.groups,
      generation⟩ (scope.learn name pattern) := by
  have known : (scope.ids name).isSome = meanings.knows name := by
    rw [agrees.ids, Option.isSome_map, Meanings.knows]
  have same : generation = if (scope.ids name).isSome then scope.generation + 1
      else scope.generation := by
    rw [known, agrees.generation, next]
  refine ⟨same.symm, fun name' => ?_, fun name' group known' => ?_⟩
  · rw [Meanings.group?_cons]
    by_cases this : name' = name
    · subst this
      simp only [Scope.learn, Function.update_self, ← same, if_true]
      rfl
    · rw [if_neg this]
      simp only [Scope.learn, Function.update_of_ne this]
      exact agrees.ids name'
  · rw [Meanings.group?_cons] at known'
    split at known'
    · rename_i this
      cases known'
      subst this
      simp only [Scope.learn, Function.update_self]
      exact finds _
    · rename_i this
      simp only [Scope.learn, Function.update_of_ne this]
      exact agrees.finds name' group known'

theorem Follows.mono {lexicon : Lexicon ν} {plan : Plan} {words : ν → Language Letter}
    {groups groups' : GroupId → Language Char} (follows : lexicon.Follows plan words groups)
    (more : ∀ id, groups id ≤ groups' id) : lexicon.Follows plan words groups' :=
  ⟨⟨follows.charted.proper, follows.charted.joined, follows.charted.first,
    fun id node hop present mem => (follows.charted.finds id node hop present mem).mono (more _)⟩,
    follows.ends, follows.agrees⟩

theorem follows_insert (follows : (ofEntries entries).Follows (planOf entries) (wordsOf entries)
      (readsOf entries)) (text : Text) (value : ν) :
    ((ofEntries entries).extend (.pattern text value)).Follows
      (planAfter (ofEntries entries) (planOf entries) (.pattern text value))
      (wordsOf (entries ++ [.pattern text value]))
      (readsOf (entries ++ [.pattern text value])) := by
  have later := follows.mono (readsOf_concat entries (.pattern text value))
  have cases := insert_cases (ofEntries entries) text value
  rw [extend_pattern]
  cases eq : Lexicon.insert text value (ofEntries entries) with
  | error e lexicon' =>
    rw [eq] at cases
    rw [wordsOf_concat_of_refused fun text' value' same ⟨lexicon, taken⟩ => by
      rw [enter, eq] at taken; cases taken]
    simp only [planAfter, enter, eq]
    cases cases with
    | refused | abandoned => exact ⟨later.charted, later.ends, later.agrees⟩
  | ok _ lexicon' =>
    rw [eq] at cases
    cases cases with
    | inserted pattern branches groups _ read _ _ links =>
      have accepts : (ofEntries entries).Accepts (.pattern text value) := ⟨_, eq⟩
      have fresh := (fresh_of_links (ofEntries_coherent entries) read links).1
      obtain ⟨words, spots, finds⟩ := pattern.suits_links follows.agrees read fresh
      have finds' : ∀ branch ∈ branches, ∀ piece ∈ branch, piece.atom.Finds
          (readsOf (entries ++ [.pattern text value])) := fun branch mem piece mem' =>
        (finds branch mem piece mem').mono (reads_le_readsOf accepts read)
      simp only [planAfter, enter, eq, read]
      refine ⟨?_, ?_, follows.agrees⟩
      · rw [← spots]
        exact later.charted.addPattern value finds'
      · refine later.ends.addPattern later.charted value finds' fun v y => ?_
        rw [words]
        exact mem_wordsOf_concat accepts read v y

theorem follows_setMeaning (follows : (ofEntries entries).Follows (planOf entries)
      (wordsOf entries) (readsOf entries)) (name text : Text) :
    ((ofEntries entries).extend (.meaning name text)).Follows
      (planAfter (ofEntries entries) (planOf entries) (.meaning name text))
      (wordsOf (entries ++ [.meaning name text])) (readsOf (entries ++ [.meaning name text])) := by
  have later := follows.mono (readsOf_concat entries (.meaning name text))
  rw [wordsOf_concat_of_refused (by simp), extend_meaning]
  have cases := setMeaning_cases (ofEntries entries) name text
  cases eq : Lexicon.setMeaning name text (ofEntries entries) with
  | error e lexicon' =>
    rw [eq] at cases
    simp only [planAfter, enter, eq]
    cases cases with
    | refused | abandoned => exact ⟨later.charted, later.ends, later.agrees⟩
  | ok _ lexicon' =>
    have finds {pattern : Pattern} {branches : Branches Link} {groups : InlineGroups}
        (read : Pattern.read text = .ok pattern)
        (links : pattern.links (ofEntries entries).meanings (ofEntries entries).inlineGroups =
          .ok branches groups) (id : GroupId) :
        (Group.ofBranches id branches).Finds (pattern.reading (planOf entries).scope) := by
      have fresh := (fresh_of_links (ofEntries_coherent entries) read links).1
      obtain ⟨words, spots, finds⟩ := pattern.suits_links follows.agrees read fresh
      have reads := ofBranches_finds finds id
      rwa [words, spots] at reads
    rw [eq] at cases
    cases cases with
    | first pattern branches groups unknown read links =>
      simp only [planAfter, enter, eq, read]
      refine ⟨later.charted, later.ends, ?_⟩
      refine agrees_learn follows.agrees name pattern branches (finds read links) _ ?_
      have unknown : (ofEntries entries).meanings.knows name = false := unknown
      rw [unknown]
      rfl
    | changed pattern branches groups known read links =>
      simp only [planAfter, enter, eq, read]
      refine ⟨later.charted, later.ends, ?_⟩
      refine agrees_learn follows.agrees name pattern branches (finds read links) _ ?_
      have known : (ofEntries entries).meanings.knows name = true := known
      rw [known]
      rfl

theorem ofEntries_follows (entries : List (Entry ν)) :
    (ofEntries entries).Follows (planOf entries) (wordsOf entries) (readsOf entries) := by
  induction entries using List.reverseRecOn with
  | nil =>
    have none : wordsOf ([] : List (Entry ν)) = fun _ => 0 := by
      refine funext fun value => Set.ext fun y => ⟨?_, fun never => never.elim⟩
      rintro ⟨before, text, pattern, ⟨after, eq, -⟩, -⟩
      simp at eq
    refine ⟨charted_empty _, none ▸ ends_empty, rfl, fun _ => rfl, fun name group known => ?_⟩
    cases known
  | append_singleton entries entry ih =>
    rw [ofEntries_concat, planOf_concat]
    cases entry with
    | pattern text value => exact follows_insert ih text value
    | meaning name text => exact follows_setMeaning ih name text

/-! ## What is read for a pattern -/

/-- The texts spelled by a way that leads to the place of a word of the pattern, among all patterns
that were taken. -/
def readAmong (entries before : List (Entry ν)) (pattern : Pattern) : Language Char :=
  spelled (readsOf entries)
    (joinedWith (planOf entries).spots (pattern.words (planOf before).scope))

/-- No way but its own words leads to the place of a word of the pattern, and its groups read nothing
but what they describe. -/
structure StandsApart (entries before : List (Entry ν)) (pattern : Pattern) : Prop where
  ways : joinedWith (planOf entries).spots (pattern.words (planOf before).scope) ≤
    pattern.words (planOf before).scope
  parts : ∀ branch ∈ pattern, ∀ piece ∈ branch,
    spelled (readsOf entries) ((planOf before).scope.letters piece.atom) ≤
      piece.atom.language (namesOf before)

theorem StandsApart.readAmong_le {before : List (Entry ν)} {pattern : Pattern}
    (apart : StandsApart entries before pattern) :
    readAmong entries before pattern ≤ pattern.language (namesOf before) :=
  (spelled_mono apart.ways).trans (Branches.spelled_language_le pattern apart.parts)

theorem follow?_of_path? {graph : Graph Group ν} {t : Text} {id : Nat}
    (leads : graph.path? (t.map .char) = some id) : graph.follow? 0 t = some id := by
  induction t using List.reverseRecOn generalizing id with
  | nil => exact leads
  | append_singleton t c ih =>
    rw [List.map_append, List.map_singleton] at leads
    obtain ⟨before, there, last⟩ := Graph.path?_concat.1 leads
    obtain ⟨node, present, next⟩ := Graph.step?_eq_some.1 last
    exact (Graph.follow?_append 0 t [c] id).2 ⟨before, ih there,
      (Graph.follow?_cons before c [] id).2 ⟨node, id, present, next, rfl⟩⟩

theorem readsOf_of_allPlain (plain : AllPlain entries) (id : GroupId) : readsOf entries id = 0 := by
  refine Set.eq_empty_of_forall_notMem ?_
  rintro t ⟨before, text, value, pattern, took, read, mem⟩
  obtain ⟨branch, among, piece, among', reads⟩ := Pattern.mem_reads.1 mem
  have chars := plain text value pattern ⟨before, took⟩ read
  have char := List.all_eq_true.1 (List.all_eq_true.1 chars branch among) piece among'
  obtain ⟨atom, quantifier⟩ := piece
  cases atom with
  | char | oneOf => exact Language.notMem_zero t (by rwa [Atom.reads] at reads)
  | group | reference => cases char

theorem longest?_of_readAmong (plain : AllPlain entries) {before : List (Entry ν)} {text : Text}
    {value : ν} {pattern : Pattern} (took : Took entries before (.pattern text value))
    (read : Pattern.read text = .ok pattern) (t : Text) (mem : t ∈ readAmong entries before pattern) :
    ∃ m, (ofEntries entries).longest? t = some m ∧ m.text = t := by
  obtain ⟨x, ⟨y, word, joined⟩, spelled⟩ := mem
  obtain rfl := Way.eq_chars_of_mem_language (readsOf_of_allPlain plain) x t spelled
  have follows := ofEntries_follows entries
  obtain ⟨id, here, there⟩ := (follows.charted.joined _ _).1 joined
  obtain ⟨id', node, there', present, valued⟩ :=
    follows.ends.whole value y ⟨before, text, pattern, took, read, word⟩
  obtain rfl := Option.some.inj (there.symm.trans there')
  obtain ⟨v, known⟩ := Option.isSome_iff_exists.1 valued
  obtain ⟨m, found, whole, -⟩ := longest?_of_follow _ t id node v (follow?_of_path? here) present
    (hopless_of_allPlain entries plain id node present) known
  exact ⟨m, found, whole⟩

theorem spot_of_mem_planOf {spot : Spot} (mem : spot ∈ (planOf entries).spots) :
    ∃ before text value pattern, Took entries before (.pattern text value) ∧
      Pattern.read text = .ok pattern ∧ spot ∈ pattern.spots (planOf before).scope := by
  induction entries using List.reverseRecOn with
  | nil => cases mem
  | append_singleton entries entry ih =>
    have earlier (mem : spot ∈ (planOf entries).spots) : ∃ before text value pattern,
        Took (entries ++ [entry]) before (.pattern text value) ∧ Pattern.read text = .ok pattern ∧
          spot ∈ pattern.spots (planOf before).scope := by
      obtain ⟨before, text, value, pattern, took, read, mem⟩ := ih mem
      exact ⟨before, text, value, pattern, took.concat entry, read, mem⟩
    rw [planOf_concat] at mem
    cases entry with
    | meaning name text =>
      rw [planAfter] at mem
      split at mem <;> exact earlier mem
    | pattern text value =>
      rw [planAfter] at mem
      split at mem
      · rename_i taken read
        rcases List.mem_append.1 mem with mem | mem
        · exact earlier mem
        · exact ⟨entries, text, value, _, took_concat _ ⟨_, taken⟩, read, mem⟩
      · exact earlier mem

theorem standsApart_of_literal
    (literal : ∀ text value pattern, Registers entries text value →
      Pattern.read text = .ok pattern → pattern.Literal)
    {before : List (Entry ν)} {text : Text} {value : ν} {pattern : Pattern}
    (took : Took entries before (.pattern text value)) (read : Pattern.read text = .ok pattern) :
    StandsApart entries before pattern := by
  refine ⟨?_, fun branch mem piece mem' => ?_⟩
  · rintro x ⟨y, word, joined⟩
    rwa [eq_of_joined (fun spot mem => ?_) joined]
    obtain ⟨before, text, value, pattern, took, read, mem⟩ := spot_of_mem_planOf mem
    exact (literal text value pattern ⟨before, took⟩ read).narrow mem
  · obtain ⟨c, rfl⟩ := literal text value pattern ⟨before, took⟩ read branch mem piece mem'
    refine spelled_le_iff.2 ?_
    rintro _ rfl
    simp [Way.language, Letter.language, Atom.language]

/-- What is read at the start of a text is spelled by a way that leads to the place of a word of a
pattern with the value. If the pattern stands apart, it describes what is read, and where all
patterns are made of single characters, each stands apart. Where there are no groups, everything that
is so spelled is read. -/
theorem longest_match_joined (entries : List (Entry ν)) :
    (∀ input m, (ofEntries entries).longest? input = some m →
      m.text <+: input ∧ ∃ before text pattern, Took entries before (.pattern text m.value) ∧
        Pattern.read text = .ok pattern ∧ m.text ∈ readAmong entries before pattern ∧
        (StandsApart entries before pattern → m.text ∈ pattern.language (namesOf before))) ∧
    (∀ before text value pattern,
      Took entries before (.pattern text value) → Pattern.read text = .ok pattern →
      ((∀ text value pattern, Registers entries text value → Pattern.read text = .ok pattern →
        pattern.Literal) → StandsApart entries before pattern) ∧
      (AllPlain entries → ∀ t ∈ readAmong entries before pattern,
        ∃ m, (ofEntries entries).longest? t = some m ∧ m.text = t)) := by
  refine ⟨fun input m h => ?_, fun before text value pattern took read =>
    ⟨fun literal => standsApart_of_literal literal took read,
      fun plain => longest?_of_readAmong plain took read⟩⟩
  obtain ⟨found, walked, rfl⟩ := Option.map_eq_some_iff.1 h
  have follows := ofEntries_follows entries
  obtain ⟨y, ⟨before, text, pattern, took, read, word⟩, x, joined, spelled⟩ :=
    follows.charted.walk_spelled follows.ends input found walked
  have reads : input.take found.length ∈ readAmong entries before pattern :=
    ⟨x, ⟨y, word, joined⟩, spelled⟩
  exact ⟨List.take_prefix _ _, before, text, pattern, took, read, reads,
    fun apart => apart.readAmong_le reads⟩

theorem eq_of_took_second {first second text : Text} {before : List (Entry Nat)}
    (took : Took [.pattern first 1, .pattern second 2] before (.pattern text 2)) :
    before = [.pattern first 1] ∧ text = second := by
  obtain ⟨after, eq, -⟩ := took
  rcases before with _ | ⟨_, _ | ⟨_, _ | _⟩⟩ <;> simp_all

/-- The `c` of the second pattern also follows the `b` of the class, which is where `a` leads. After
a pattern that is a row of characters too, the second one stands apart. -/
theorem longest_match_joined_letters :
    let classes : List (Entry Nat) := [.pattern "[ab]".toList 1, .pattern ['a', 'c'] 2]
    let letters : List (Entry Nat) := [.pattern ['a', 'b'] 1, .pattern ['a', 'c'] 2]
    let pattern : Pattern := [[⟨.char 'a', .once⟩, ⟨.char 'c', .once⟩]]
    (ofEntries classes).longest? ['b', 'c', 'd'] = some ⟨['b', 'c'], 2, []⟩ ∧
      ['b', 'c'] ∈ readAmong classes [.pattern "[ab]".toList 1] pattern ∧
      (∃ m, (ofEntries classes).longest? ['b', 'c'] = some m ∧ m.text = ['b', 'c']) ∧
      (ofEntries letters).longest? ['a', 'c', 'd'] = some ⟨['a', 'c'], 2, []⟩ ∧
      StandsApart letters [.pattern ['a', 'b'] 1] pattern ∧
      ['a', 'c'] ∈ pattern.language (namesOf [.pattern ['a', 'b'] 1]) := by
  intro classes letters pattern
  have read : Pattern.read ['a', 'c'] = .ok pattern := by cbv
  have found : (ofEntries classes).longest? ['b', 'c', 'd'] = some ⟨['b', 'c'], 2, []⟩ := by
    decide +kernel
  have found' : (ofEntries letters).longest? ['a', 'c', 'd'] = some ⟨['a', 'c'], 2, []⟩ := by
    decide +kernel
  obtain ⟨-, before, text, pattern', took, read', among, -⟩ :=
    (longest_match_joined classes).1 ['b', 'c', 'd'] ⟨['b', 'c'], 2, []⟩ found
  obtain ⟨rfl, rfl⟩ := eq_of_took_second took
  obtain rfl := Except.ok.inj (read.symm.trans read')
  have plain : AllPlain classes := by
    rintro text value pattern ⟨before, took⟩ read
    have mem := took.mem
    simp only [classes, List.mem_cons, List.not_mem_nil, or_false, Entry.pattern.injEq] at mem
    rcases mem with ⟨rfl, rfl⟩ | ⟨rfl, rfl⟩ <;> cbv at read <;> cases read <;> rfl
  obtain ⟨-, before, text, pattern', took', read', -, described⟩ :=
    (longest_match_joined letters).1 ['a', 'c', 'd'] ⟨['a', 'c'], 2, []⟩ found'
  obtain ⟨rfl, rfl⟩ := eq_of_took_second took'
  obtain rfl := Except.ok.inj (read.symm.trans read')
  have apart := ((longest_match_joined letters).2 _ _ 2 pattern took' read).1 <| by
    rintro text value pattern ⟨before, took⟩ read
    have mem := took.mem
    simp only [letters, List.mem_cons, List.not_mem_nil, or_false, Entry.pattern.injEq] at mem
    rcases mem with ⟨rfl, rfl⟩ | ⟨rfl, rfl⟩ <;> cbv at read <;> cases read <;>
      simp [Pattern.Literal]
  exact ⟨found, among, ((longest_match_joined classes).2 _ _ 2 pattern took read).2 plain _ among,
    found', apart, described apart⟩

/-- No pattern with the value describes what is read there. -/
theorem longest_match_undescribed :
    ¬∀ (entries : List (Entry Nat)) (input : Text) (m : Match Nat),
      (ofEntries entries).longest? input = some m → m.text ∈ describes entries m.value := by
  intro all
  obtain ⟨before, text, pattern, took, read, mem⟩ :=
    all [.pattern "[ab]".toList 1, .pattern ['a', 'c'] 2] ['b', 'c'] ⟨['b', 'c'], 2, []⟩
      (by decide +kernel)
  obtain ⟨rfl, rfl⟩ := eq_of_took_second took
  have read' : Pattern.read ['a', 'c'] = .ok [[⟨.char 'a', .once⟩, ⟨.char 'c', .once⟩]] := by cbv
  obtain rfl := Except.ok.inj (read.symm.trans read')
  rcases mem with ⟨first, rfl, rest, -, same⟩ | none
  · cases same
  · exact Language.notMem_zero _ none

end Lexicon

end OpGrammar
