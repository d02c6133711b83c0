import OpGrammar.Proofs.Refusal

/-!
# Kept groups

A lexicon keeps the groups in parentheses that it has made, also those of patterns that it refuses.
When it uses one again, names in it may have got another meaning. They never have: every kept group
is what would be made now, so a pattern that comes now gets the meanings of now, and a pattern that
came before keeps the ones that it got.
-/

namespace OpGrammar

variable {ν : Type} {meanings : Meanings} {pattern : Pattern} {text : Text}

/-! ## Links from an empty store -/

theorem links_nil_of_fresh (read : Pattern.read text = .ok pattern) {branches : Branches Link}
    (fresh : freshBranches meanings pattern = some branches) :
    ∃ groups, pattern.links meanings [] = .ok branches groups := by
  have compiled :=
    pattern.links_compiles (wellRead_of_read read) [] (Lexicon.coherent_empty meanings)
  cases linked : pattern.links meanings [] with
  | ok branches' groups =>
    rw [linked] at compiled
    obtain rfl := Option.some.inj (fresh.symm.trans compiled.1)
    exact ⟨groups, rfl⟩
  | error e groups =>
    rw [linked] at compiled
    cases fresh.symm.trans compiled.1

theorem Meanings.Makes.from_nil {source : Text} {group : Group}
    (makes : meanings.Makes source group) :
    ∃ inner branches groups, Pattern.read source = .ok inner ∧ meanings.KnowsAll inner.names ∧
      inner.links meanings [] = .ok branches groups ∧
      group = .ofBranches (.inline source meanings.generation) branches := by
  obtain ⟨inner, read, made⟩ := makes
  rw [Atom.freshLink] at made
  obtain ⟨branches, fresh, same⟩ := Option.map_eq_some_iff.1 made
  obtain ⟨groups, links⟩ := links_nil_of_fresh read fresh
  refine ⟨inner, branches, groups, read, ?_, links, by cases same; rfl⟩
  exact (isSome_freshBranches inner).1 (by rw [fresh]; rfl)

theorem Group.run_ofBranches (id id' : GroupId) (branches : Branches Link) (text : Text) :
    (Group.ofBranches id branches).run text = (Group.ofBranches id' branches).run text := by
  rw [Group.run_eq, Group.run_eq]
  rfl

namespace Lexicon

/-! ## Patterns and names that come now -/

theorem extend_meaning_graph (lexicon : Lexicon ν) (name text : Text) :
    (lexicon.extend (.meaning name text)).graph = lexicon.graph := by
  rcases extend_graph lexicon (.meaning name text) with same | ⟨_, _, _, _, _, other, _⟩
  · exact same
  · cases other

theorem extend_meaning_patterns (lexicon : Lexicon ν) (name text : Text) :
    (lexicon.extend (.meaning name text)).patterns = lexicon.patterns := by
  rw [extend_meaning]
  have cases := setMeaning_cases lexicon name text
  generalize setMeaning name text lexicon = result at cases
  cases cases <;> rfl

theorem extend_pattern_graph {lexicon : Lexicon ν}
    (coherent : Coherent lexicon.meanings lexicon.inlineGroups) {text : Text} {value : ν}
    (accepts : lexicon.Accepts (.pattern text value)) :
    ∃ pattern branches groups, Pattern.read text = .ok pattern ∧
      pattern.links lexicon.meanings [] = .ok branches groups ∧
      (lexicon.extend (.pattern text value)).graph = lexicon.graph.addPattern branches value := by
  obtain ⟨pattern, branches, groups, read, -, links, eq⟩ := extend_of_accepts lexicon text value accepts
  obtain ⟨groups', links'⟩ := links_nil_of_fresh read (fresh_of_links coherent read links).1
  refine ⟨pattern, branches, groups', read, links', ?_⟩
  rw [eq]

theorem extend_meaning_group {lexicon : Lexicon ν}
    (coherent : Coherent lexicon.meanings lexicon.inlineGroups) {name text : Text}
    (accepts : lexicon.Accepts (.meaning name text)) :
    ∃ pattern branches groups id, Pattern.read text = .ok pattern ∧
      pattern.links lexicon.meanings [] = .ok branches groups ∧
      (lexicon.extend (.meaning name text)).meanings.group? name = some (.ofBranches id branches) := by
  obtain ⟨lexicon', taken⟩ := accepts
  have taken : setMeaning name text lexicon = .ok () lexicon' := taken
  have cases := setMeaning_cases lexicon name text
  rw [extend_meaning]
  rw [taken] at cases ⊢
  cases cases with
  | first pattern branches groups _ read links _ | changed pattern branches groups _ read links _ =>
    obtain ⟨groups', links'⟩ := links_nil_of_fresh read (fresh_of_links coherent read links).1
    exact ⟨pattern, branches, groups', _, read, links',
      (Meanings.group?_cons ..).trans (if_pos rfl)⟩

/-- Every kept group can be read from its text, knows its names and finds in every text what a group
finds that is made from an empty store by the meanings of now. So the links of a pattern or of a
meaning that is taken are those from an empty store. A meaning changes no graph, and no later entry
takes away or changes a link that is there. -/
theorem kept_groups_current (entries : List (Entry ν)) :
    let lexicon := ofEntries entries
    (∀ source group, lexicon.inlineGroups.lookup source = some group →
      ∃ inner branches groups, Pattern.read source = .ok inner ∧
        lexicon.meanings.KnowsAll inner.names ∧
        inner.links lexicon.meanings [] = .ok branches groups ∧
        ∀ id text, group.run text = (Group.ofBranches id branches).run text) ∧
    (∀ text value, lexicon.Accepts (.pattern text value) →
      ∃ pattern branches groups, Pattern.read text = .ok pattern ∧
        pattern.links lexicon.meanings [] = .ok branches groups ∧
        (lexicon.extend (.pattern text value)).graph = lexicon.graph.addPattern branches value) ∧
    (∀ name text, lexicon.Accepts (.meaning name text) →
      ∃ pattern branches groups id, Pattern.read text = .ok pattern ∧
        pattern.links lexicon.meanings [] = .ok branches groups ∧
        (lexicon.extend (.meaning name text)).meanings.group? name =
          some (.ofBranches id branches)) ∧
    (∀ name text, (lexicon.extend (.meaning name text)).graph = lexicon.graph) ∧
    ∀ later, lexicon.graph.Extends (ofEntries (entries ++ later)).graph := by
  intro lexicon
  have coherent : Coherent lexicon.meanings lexicon.inlineGroups := ofEntries_coherent entries
  refine ⟨fun source group kept => ?_, fun _ _ accepts => extend_pattern_graph coherent accepts,
    fun _ _ accepts => extend_meaning_group coherent accepts, extend_meaning_graph lexicon,
    fun later => ofEntries_extends entries later⟩
  obtain ⟨inner, branches, groups, read, known, links, rfl⟩ := (coherent source group kept).from_nil
  exact ⟨inner, branches, groups, read, known, links, fun id text => Group.run_ofBranches ..⟩

/-- The group `({X})` is kept in the new generation, with the second meaning of `X`. -/
theorem kept_groups_current_again :
    let entries : List (Entry Nat) := [.meaning ['X'] ['a'], .pattern "(\x7bX\x7d)1".toList 1,
      .meaning ['X'] ['b'], .pattern "(\x7bX\x7d)2".toList 2]
    ∃ group inner branches groups,
      (ofEntries entries).inlineGroups.lookup "\x7bX\x7d".toList = some group ∧
      Pattern.read "\x7bX\x7d".toList = .ok inner ∧
      inner.links (ofEntries entries).meanings [] = .ok branches groups ∧
      ∀ id text, group.run text = (Group.ofBranches id branches).run text := by
  intro entries
  have kept : ((ofEntries entries).inlineGroups.lookup "\x7bX\x7d".toList).isSome := by
    decide +kernel
  obtain ⟨group, kept⟩ := Option.isSome_iff_exists.1 kept
  obtain ⟨inner, branches, groups, read, -, links, same⟩ :=
    (kept_groups_current entries).1 _ group kept
  exact ⟨group, inner, branches, groups, kept, read, links, same⟩

end Lexicon

end OpGrammar
