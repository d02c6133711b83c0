import OpGrammar.Proofs.History
import OpGrammar.Proofs.Reading

/-!
# Links without a store of groups

A lexicon keeps the groups in parentheses that it has made. That changes nothing about the links of
a pattern: they are the links that come out when every group is made anew.
-/

namespace OpGrammar

/-! ## Links made anew -/

mutual

/-- The link of an atom, with every group in it made anew. -/
def Atom.freshLink (meanings : Meanings) : Atom → Option Link
  | .char c => some (.chars [.single c])
  | .oneOf items => some (.chars items)
  | .group source inner => (freshBranches meanings inner).map fun branches =>
    .group (.ofBranches (.inline source meanings.generation) branches) none
  | .reference label name => (meanings.group? name).map fun group => .group group label

/-- The links of some branches, with every group in them made anew. -/
def freshBranches (meanings : Meanings) : List (List (Piece Atom)) → Option (Branches Link)
  | [] => some []
  | branch :: branches => (freshBranch meanings branch).bind fun links =>
    (freshBranches meanings branches).map fun more => links :: more

/-- The links of a branch, with every group in them made anew. -/
def freshBranch (meanings : Meanings) : List (Piece Atom) → Option (List (Piece Link))
  | [] => some []
  | ⟨atom, quantifier⟩ :: pieces => (atom.freshLink meanings).bind fun link =>
    (freshBranch meanings pieces).map fun more => ⟨link, quantifier⟩ :: more

end

def MakesPiece (meanings : Meanings) (piece : Piece Atom) (link : Piece Link) : Prop :=
  link.quantifier = piece.quantifier ∧ piece.atom.freshLink meanings = some link.atom

theorem freshBranch_eq_some {meanings : Meanings} {pieces : List (Piece Atom)}
    {links : List (Piece Link)} :
    freshBranch meanings pieces = some links ↔
      List.Forall₂ (MakesPiece meanings) pieces links := by
  induction pieces generalizing links with
  | nil => simp [freshBranch, eq_comm]
  | cons piece pieces ih =>
    obtain ⟨atom, quantifier⟩ := piece
    simp only [freshBranch, Option.bind_eq_some_iff, Option.map_eq_some_iff,
      List.forall₂_cons_left_iff, ih]
    constructor
    · rintro ⟨link, first, more, rest, rfl⟩
      exact ⟨⟨link, quantifier⟩, more, ⟨rfl, first⟩, rest, rfl⟩
    · rintro ⟨⟨link, _⟩, more, ⟨rfl, first⟩, rest, rfl⟩
      exact ⟨link, first, more, rest, rfl⟩

theorem freshBranches_eq_some {meanings : Meanings} {branches : Pattern} {links : Branches Link} :
    freshBranches meanings branches = some links ↔
      List.Forall₂ (List.Forall₂ (MakesPiece meanings)) branches links := by
  induction branches generalizing links with
  | nil => simp [freshBranches, eq_comm]
  | cons branch branches ih =>
    simp only [freshBranches, Option.bind_eq_some_iff, Option.map_eq_some_iff,
      List.forall₂_cons_left_iff, freshBranch_eq_some, ih]
    constructor
    · rintro ⟨first, made, more, rest, rfl⟩
      exact ⟨first, more, made, rest, rfl⟩
    · rintro ⟨first, more, made, rest, rfl⟩
      exact ⟨first, made, more, rest, rfl⟩

theorem forall₂_of_freshBranches {meanings : Meanings} {branches : Pattern} {links : Branches Link}
    {R : Piece Atom → Piece Link → Prop} (made : freshBranches meanings branches = some links)
    (pieces : ∀ branch ∈ branches, ∀ piece ∈ branch, ∀ link, MakesPiece meanings piece link →
      R piece link) : List.Forall₂ (List.Forall₂ R) branches links := by
  have all := (List.forall₂_and_left _ _).2 ⟨pieces, freshBranches_eq_some.1 made⟩
  refine all.imp fun branch links' ⟨inside, made'⟩ => ?_
  exact ((List.forall₂_and_left _ _).2 ⟨inside, made'⟩).imp
    fun piece link ⟨holds, made''⟩ => holds link made''

/-- The group is what is made now of a text in parentheses. -/
def Meanings.Makes (meanings : Meanings) (source : Text) (group : Group) : Prop :=
  ∃ inner, Pattern.read source = .ok inner ∧
    (Atom.group source inner).freshLink meanings = some (.group group .none)

/-- Every group that was kept is what would be made now. -/
def Coherent (meanings : Meanings) (groups : InlineGroups) : Prop :=
  ∀ source group, groups.lookup source = some group → meanings.Makes source group

/-- A result that is the expected one and leaves the store coherent. -/
def Compiles {α : Type} (meanings : Meanings) (expected : Option α) :
    EStateM.Result LexiconError InlineGroups α → Prop
  | .ok a groups => expected = some a ∧ Coherent meanings groups
  | .error _ groups => expected = none ∧ Coherent meanings groups

section Compiles

variable {meanings : Meanings}

theorem Compiles.bind {α β : Type} {expected : Option α} {expected' : α → Option β}
    {run : EStateM LexiconError InlineGroups α} {next : α → EStateM LexiconError InlineGroups β}
    {groups : InlineGroups} (first : Compiles meanings expected (run groups))
    (second : ∀ a groups, Coherent meanings groups →
      Compiles meanings (expected' a) (next a groups)) :
    Compiles meanings (expected.bind expected') ((run >>= next) groups) := by
  rw [bind_apply]
  cases eq : run groups with
  | ok a groups' =>
    rw [eq] at first
    obtain ⟨rfl, coherent⟩ := first
    exact second a groups' coherent
  | error e groups' =>
    rw [eq] at first
    obtain ⟨rfl, coherent⟩ := first
    exact ⟨rfl, coherent⟩

theorem Compiles.pure {α : Type} (a : α) {groups : InlineGroups}
    (coherent : Coherent meanings groups) :
    Compiles meanings (some a) ((Pure.pure a : EStateM LexiconError InlineGroups α) groups) :=
  ⟨rfl, coherent⟩

theorem linksOfBranch_compiles (pieces : List (Piece Atom))
    (atoms : ∀ piece ∈ pieces, ∀ groups, Coherent meanings groups →
      Compiles meanings (piece.atom.freshLink meanings) (piece.atom.link meanings groups))
    (groups : InlineGroups) (coherent : Coherent meanings groups) :
    Compiles meanings (freshBranch meanings pieces) (linksOfBranch meanings pieces groups) := by
  induction pieces generalizing groups with
  | nil =>
    rw [freshBranch, linksOfBranch]
    exact .pure [] coherent
  | cons piece pieces ih =>
    obtain ⟨atom, quantifier⟩ := piece
    rw [freshBranch, linksOfBranch]
    refine (atoms _ List.mem_cons_self groups coherent).bind fun link groups' coherent' => ?_
    rw [Option.map_eq_bind]
    exact (ih (fun piece mem => atoms piece (.tail _ mem)) groups' coherent').bind
      fun more groups'' coherent'' => .pure _ coherent''

theorem linksOfBranches_compiles (branches : Pattern)
    (atoms : ∀ branch ∈ branches, ∀ piece ∈ branch, ∀ groups, Coherent meanings groups →
      Compiles meanings (piece.atom.freshLink meanings) (piece.atom.link meanings groups))
    (groups : InlineGroups) (coherent : Coherent meanings groups) :
    Compiles meanings (freshBranches meanings branches)
      (linksOfBranches meanings branches groups) := by
  induction branches generalizing groups with
  | nil =>
    rw [freshBranches, linksOfBranches]
    exact .pure [] coherent
  | cons branch branches ih =>
    rw [freshBranches, linksOfBranches]
    refine (linksOfBranch_compiles branch (atoms branch List.mem_cons_self) groups coherent).bind
      fun links groups' coherent' => ?_
    rw [Option.map_eq_bind]
    exact (ih (fun branch mem => atoms branch (.tail _ mem)) groups' coherent').bind
      fun more groups'' coherent'' => .pure _ coherent''

/-- A kept group is used where it would be made again, which the text of the group decides. -/
theorem Atom.link_compiles (atom : Atom) (well : atom.WellRead) (groups : InlineGroups)
    (coherent : Coherent meanings groups) :
    Compiles meanings (atom.freshLink meanings) (atom.link meanings groups) := by
  induction well generalizing groups with
  | char c =>
    simp only [Atom.freshLink, Atom.link]
    exact .pure _ coherent
  | oneOf items =>
    simp only [Atom.freshLink, Atom.link]
    exact .pure _ coherent
  | reference label name =>
    simp only [Atom.freshLink, Atom.link]
    cases meanings.group? name with
    | none => exact ⟨rfl, coherent⟩
    | some group => exact .pure _ coherent
  | group source inner read parts ih =>
    rw [Atom.link, bind_apply, get_apply]
    cases kept : groups.lookup source with
    | some group =>
      obtain ⟨inner', read', fresh⟩ := coherent source group kept
      obtain rfl : inner = inner' := Except.ok.inj (read.symm.trans read')
      dsimp only
      rw [kept, fresh]
      exact .pure _ coherent
    | none =>
      dsimp only
      rw [kept]
      have inside := linksOfBranches_compiles inner (fun branch mem piece mem' groups coherent =>
        ih branch mem piece mem' groups coherent) groups coherent
      dsimp only
      rw [bind_apply]
      cases eq : linksOfBranches meanings inner groups with
      | error e groups' =>
        rw [eq] at inside
        refine ⟨?_, inside.2⟩
        rw [Atom.freshLink, inside.1]
        rfl
      | ok branches groups' =>
        rw [eq] at inside
        have fresh : (Atom.group source inner).freshLink meanings =
            some (.group (.ofBranches (.inline source meanings.generation) branches) none) := by
          rw [Atom.freshLink, inside.1]
          rfl
        refine ⟨fresh, fun source' group found => ?_⟩
        rw [List.lookup_cons] at found
        by_cases same : source' = source
        · subst same
          simp only [beq_self_eq_true] at found
          cases found
          exact ⟨inner, read, fresh⟩
        · have other : (source' == source) = false := by simpa using same
          simp only [other] at found
          exact inside.2 source' group found

theorem Pattern.links_compiles (pattern : Pattern) (well : pattern.WellRead)
    (groups : InlineGroups) (coherent : Coherent meanings groups) :
    Compiles meanings (freshBranches meanings pattern) (pattern.links meanings groups) :=
  linksOfBranches_compiles pattern
    (fun branch mem piece mem' => piece.atom.link_compiles (well branch mem piece mem')) groups
    coherent

end Compiles

/-! ## More names -/

section Grows

variable {meanings meanings' : Meanings}

/-- Names may get a meaning, but no name gets another one. -/
structure Meanings.Grows (meanings meanings' : Meanings) : Prop where
  generation : meanings'.generation = meanings.generation
  group : ∀ name group, meanings.group? name = some group → meanings'.group? name = some group

theorem Atom.freshLink_grows (grows : meanings.Grows meanings') (atom : Atom) (well : atom.WellRead)
    (link : Link) (made : atom.freshLink meanings = some link) :
    atom.freshLink meanings' = some link := by
  induction well generalizing link with
  | char | oneOf =>
    simp only [freshLink] at made ⊢
    exact made
  | reference label name =>
    simp only [freshLink] at made ⊢
    obtain ⟨group, known, rfl⟩ := Option.map_eq_some_iff.1 made
    rw [grows.group name group known]
    rfl
  | group source inner read parts ih =>
    rw [freshLink] at made ⊢
    obtain ⟨branches, inside, rfl⟩ := Option.map_eq_some_iff.1 made
    have inside' : freshBranches meanings' inner = some branches :=
      freshBranches_eq_some.2 (forall₂_of_freshBranches inside
        fun branch mem piece mem' link made => ⟨made.1, ih branch mem piece mem' _ made.2⟩)
    rw [inside', grows.generation]
    rfl

theorem Meanings.Makes.grows {source : Text} {group : Group} (makes : meanings.Makes source group)
    (grows : meanings.Grows meanings') : meanings'.Makes source group := by
  obtain ⟨inner, read, fresh⟩ := makes
  have well : (Atom.group source inner).WellRead :=
    .group source inner read (wellRead_of_read read)
  exact ⟨inner, read, Atom.freshLink_grows grows _ well _ fresh⟩

theorem Coherent.grows {groups : InlineGroups} (coherent : Coherent meanings groups)
    (grows : meanings.Grows meanings') : Coherent meanings' groups :=
  fun source group kept => (coherent source group kept).grows grows

theorem Meanings.group?_cons (meanings : Meanings) (name : Text) (group : Group)
    (generation : Nat) (name' : Text) :
    (⟨(name, group) :: meanings.groups, generation⟩ : Meanings).group? name' =
      if name' = name then some group else meanings.group? name' := by
  unfold group?
  rw [List.lookup_cons]
  by_cases same : name' = name
  · simp [same]
  · have other : (name' == name) = false := by simpa using same
    rw [other, if_neg same]

theorem Meanings.grows_cons (meanings : Meanings) (name : Text) (group : Group)
    (unknown : meanings.knows name = false) :
    meanings.Grows ⟨(name, group) :: meanings.groups, meanings.generation⟩ := by
  refine ⟨rfl, fun name' group' known => ?_⟩
  rw [group?_cons, if_neg]
  · exact known
  · rintro rfl
    simp [knows, known] at unknown

end Grows

namespace Lexicon

variable {ν : Type}

/-! ## Lexicons -/

theorem coherent_empty (meanings : Meanings) : Coherent meanings [] := by
  intro source group kept
  cases kept

section Links

variable {meanings : Meanings} {pattern : Pattern} {groups groups' : InlineGroups} {text : Text}

theorem fresh_of_links (coherent : Coherent meanings groups) (read : Pattern.read text = .ok pattern)
    {branches : Branches Link} (links : pattern.links meanings groups = .ok branches groups') :
    freshBranches meanings pattern = some branches ∧ Coherent meanings groups' := by
  have compiled := pattern.links_compiles (wellRead_of_read read) groups coherent
  rw [links] at compiled
  exact compiled

theorem coherent_of_error (coherent : Coherent meanings groups)
    (read : Pattern.read text = .ok pattern) {e : LexiconError}
    (links : pattern.links meanings groups = .error e groups') : Coherent meanings groups' := by
  have compiled := pattern.links_compiles (wellRead_of_read read) groups coherent
  rw [links] at compiled
  exact compiled.2

end Links

theorem extend_of_read {lexicon : Lexicon ν}
    (coherent : Coherent lexicon.meanings lexicon.inlineGroups) {text : Text} {value : ν}
    {pattern : Pattern} (accepts : lexicon.Accepts (.pattern text value))
    (read : Pattern.read text = .ok pattern) :
    ∃ branches groups, freshBranches lexicon.meanings pattern = some branches ∧
      Coherent lexicon.meanings groups ∧
      lexicon.extend (.pattern text value) = ⟨lexicon.graph.addPattern branches value,
        lexicon.meanings, groups, text :: lexicon.patterns⟩ := by
  obtain ⟨pattern', branches, groups, read', -, links, eq⟩ :=
    extend_of_accepts lexicon text value accepts
  obtain rfl : pattern = pattern' := Except.ok.inj (read.symm.trans read')
  obtain ⟨fresh, current⟩ := fresh_of_links coherent read links
  exact ⟨branches, groups, fresh, current, eq⟩

theorem extend_coherent (lexicon : Lexicon ν)
    (coherent : Coherent lexicon.meanings lexicon.inlineGroups) (entry : Entry ν) :
    Coherent (lexicon.extend entry).meanings (lexicon.extend entry).inlineGroups := by
  cases entry with
  | pattern text value =>
    rw [extend_pattern]
    have cases := insert_cases lexicon text value
    generalize insert text value lexicon = result at cases
    cases cases with
    | refused => exact coherent
    | abandoned e pattern groups read links => exact coherent_of_error coherent read links
    | inserted pattern branches groups _ read _ _ links =>
      exact (fresh_of_links coherent read links).2
  | meaning name text =>
    rw [extend_meaning]
    have cases := setMeaning_cases lexicon name text
    generalize setMeaning name text lexicon = result at cases
    cases cases with
    | refused => exact coherent
    | abandoned e pattern groups read links => exact coherent_of_error coherent read links
    | first pattern branches groups unknown read links =>
      exact (fresh_of_links coherent read links).2.grows (lexicon.meanings.grows_cons name _ unknown)
    | changed => exact coherent_empty _

theorem ofEntries_coherent (entries : List (Entry ν)) :
    Coherent (ofEntries entries).meanings (ofEntries entries).inlineGroups := by
  induction entries using List.reverseRecOn with
  | nil => exact coherent_empty _
  | append_singleton entries entry ih =>
    rw [ofEntries_concat]
    exact extend_coherent _ ih entry

end Lexicon

end OpGrammar
