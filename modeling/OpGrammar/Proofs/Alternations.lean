import OpGrammar.Proofs.FirstCome
import OpGrammar.Proofs.Writing

/-!
# Alternations of words

Patterns that are alternations of words make a tree of the graph: along different texts the edges
lead to different nodes. So a pattern ends at a node exactly if it has the text that leads there,
and a match is the longest word that the input starts with.
-/

open StateTransition

namespace OpGrammar

variable {ν : Type}

/-! ## Words -/

/-- The character that a piece stands for, if it is a character by itself. -/
def Piece.letter? : Piece Atom → Option Char
  | ⟨.char c, .once⟩ => some c
  | _ => none

/-- The words between which a pattern leaves the choice, if it is an alternation of words. -/
def Pattern.alternatives? (pattern : Pattern) : Option (List Text) :=
  pattern.mapM (·.mapM Piece.letter?)

/-- The words between which the pattern of a text leaves the choice. -/
def alternativesOf? (text : Text) : Option (List Text) :=
  (Pattern.read text).toOption.bind Pattern.alternatives?

def piecesOf {α : Type} (atom : Char → α) (word : Text) : List (Piece α) :=
  word.map fun c => ⟨atom c, .once⟩

def Branches.ofWords {α : Type} (atom : Char → α) (words : List Text) : Branches α :=
  words.map (piecesOf atom)

def Link.letter (c : Char) : Link := .chars [.single c]

theorem mapM_eq_some_iff {α β : Type} {f : α → Option β} {g : β → α}
    (inverse : ∀ a b, f a = some b ↔ a = g b) (as : List α) (bs : List β) :
    as.mapM f = some bs ↔ as = bs.map g := by
  induction as generalizing bs with
  | nil => simp [eq_comm]
  | cons a as ih =>
    cases bs with
    | nil => simp [List.mapM_cons, Option.bind_eq_some_iff]
    | cons b bs => simp [List.mapM_cons, Option.bind_eq_some_iff, inverse, ih]

theorem Piece.letter?_eq_some (piece : Piece Atom) (c : Char) :
    piece.letter? = some c ↔ piece = ⟨.char c, .once⟩ := by
  unfold letter?
  split
  · simp
  · rename_i other
    refine ⟨fun none => (nomatch none), ?_⟩
    rintro rfl
    exact absurd rfl (other c)

theorem Pattern.alternatives?_eq_some (pattern : Pattern) (words : List Text) :
    pattern.alternatives? = some words ↔ pattern = .ofWords .char words :=
  mapM_eq_some_iff (mapM_eq_some_iff Piece.letter?_eq_some) pattern words

theorem alternativesOf?_eq_some {text : Text} {words : List Text} :
    alternativesOf? text = some words ↔ Pattern.read text = .ok (.ofWords .char words) := by
  unfold alternativesOf?
  cases Pattern.read text with
  | error e => simp [Except.toOption]
  | ok pattern => simp [Except.toOption, Pattern.alternatives?_eq_some]

/-! ## The links of words -/

theorem links_ofWords (meanings : Meanings) (groups : InlineGroups) (words : List Text) :
    Pattern.links (.ofWords .char words) meanings groups = .ok (.ofWords .letter words) groups := by
  have row (word : Text) : linksOfBranch meanings (piecesOf .char word) groups =
      .ok (piecesOf .letter word) groups := by
    induction word with
    | nil =>
      rw [piecesOf, List.map_nil, linksOfBranch]
      rfl
    | cons c word ih =>
      rw [piecesOf, List.map_cons, linksOfBranch, bind_apply, Atom.link, pure_apply]
      dsimp only
      rw [bind_apply, ← piecesOf, ih]
      rfl
  unfold Pattern.links
  induction words with
  | nil =>
    rw [Branches.ofWords, List.map_nil, linksOfBranches]
    rfl
  | cons word words ih =>
    rw [Branches.ofWords, List.map_cons, linksOfBranches, bind_apply, row]
    dsimp only
    rw [bind_apply, ← Branches.ofWords, ih]
    rfl

theorem mem_language_ofWords (names : Text → Language Char) {words : List Text} {word : Text}
    (mem : word ∈ words) : word ∈ Pattern.language names (.ofWords .char words) := by
  have row (word : Text) :
      word ∈ languageOfBranch (Atom.language names) (piecesOf .char word) := by
    induction word with
    | nil => exact Language.nil_mem_one
    | cons c word ih =>
      have first : [c] ∈ (Atom.char c).language names := by
        rw [Atom.language]
        rfl
      exact Language.append_mem_mul first ih
  induction mem with
  | head => exact .inl (row word)
  | tail _ _ ih => exact .inr ih

theorem plain_ofWords (words : List Text) : Pattern.plain (.ofWords .char words) := by
  simp [Pattern.plain, Branches.ofWords, piecesOf, Atom.plain]

namespace Graph

variable {graph graph' : Graph Group ν} {frontier : List Nat}

/-! ## Trees -/

/-- At most one edge leads to each node, for one character. -/
def TreeLike (graph : Graph Group ν) : Prop :=
  ∀ id id' c c' next, graph.follow? id [c] = some next → graph.follow? id' [c'] = some next →
    id = id' ∧ c = c'

theorem follow?_single {id next : Nat} {c : Char} : graph.follow? id [c] = some next ↔
    ∃ node, graph[id]? = some node ∧ node.edge? c = some next := by
  rw [follow?_cons]
  constructor
  · rintro ⟨node, next, present, edge, same⟩
    cases same
    exact ⟨node, present, edge⟩
  · rintro ⟨node, present, edge⟩
    exact ⟨node, next, present, edge, rfl⟩

theorem Proper.follow?_concat_ne (proper : graph.Proper) (id : Nat) (text : Text) (c : Char) :
    graph.follow? id (text ++ [c]) ≠ some 0 := by
  intro follows
  obtain ⟨middle, -, last⟩ := (follow?_append id text [c] 0).1 follows
  obtain ⟨node, present, edge⟩ := follow?_single.1 last
  exact Nat.lt_irrefl 0 (proper.edge middle node c 0 present edge).1

theorem TreeLike.follow?_injective (tree : graph.TreeLike) (proper : graph.Proper) {x y : Text}
    {id : Nat} (first : graph.follow? 0 x = some id) (second : graph.follow? 0 y = some id) :
    x = y := by
  induction x using List.reverseRecOn generalizing id y with
  | nil =>
    obtain rfl := Option.some.inj first
    rcases List.eq_nil_or_concat y with rfl | ⟨y, d, rfl⟩
    · rfl
    · exact absurd (List.concat_eq_append ▸ second) (proper.follow?_concat_ne 0 y d)
  | append_singleton x c ih =>
    rcases List.eq_nil_or_concat y with rfl | ⟨y, d, rfl⟩
    · obtain rfl := Option.some.inj second
      exact absurd first (proper.follow?_concat_ne 0 x c)
    · -- Both texts end with the one edge that leads to the node.
      rw [List.concat_eq_append] at second ⊢
      obtain ⟨middle, before, last⟩ := (follow?_append 0 x [c] id).1 first
      obtain ⟨middle', before', last'⟩ := (follow?_append 0 y [d] id).1 second
      obtain ⟨rfl, rfl⟩ := tree middle middle' c d id last last'
      rw [ih before before']

theorem treeLike_empty : (Graph.empty : Graph Group ν).TreeLike := by
  intro id id' c c' next first
  obtain ⟨node, present, edge⟩ := follow?_single.1 first
  obtain ⟨inside, rfl⟩ := Array.getElem?_eq_some_iff.1 present
  simp [empty] at edge

/-! ## Adding words -/

theorem follow?_addPiece (proper : graph.Proper) {c d : Char} {id next : Nat}
    (follows : (graph.addPiece frontier ⟨.letter c, .once⟩).1.follow? id [d] = some next) :
    graph.follow? id [d] = some next ∨ id ∈ frontier ∧ next = graph.size ∧ d = c := by
  obtain ⟨graph', reached, eq, swept⟩ := addPiece_spec proper frontier ⟨.letter c, .once⟩
  rw [eq] at follows
  obtain ⟨node, present, edge⟩ := follow?_single.1 follows
  rcases swept.edge id node d next present edge with
    old | ⟨mem, rfl, items, same, item, among, reads⟩
  · exact .inl (follow?_single.2 old)
  · cases same
    obtain rfl := List.mem_singleton.1 among
    exact .inr ⟨mem, rfl, beq_iff_eq.1 reads⟩

theorem TreeLike.addPiece (tree : graph.TreeLike) (proper : graph.Proper)
    (alone : ∀ id ∈ frontier, ∀ id' ∈ frontier, id = id') (c : Char) :
    (graph.addPiece frontier ⟨.letter c, .once⟩).1.TreeLike := by
  have old {id next : Nat} {d : Char} (follows : graph.follow? id [d] = some next) :
      next ≠ graph.size := by
    obtain ⟨node, present, edge⟩ := follow?_single.1 follows
    exact Nat.ne_of_lt (proper.edge id node d next present edge).2
  intro id id' d d' next first second
  rcases follow?_addPiece proper first with before | ⟨mem, new, rfl⟩ <;>
    rcases follow?_addPiece proper second with before' | ⟨mem', new', rfl⟩
  · exact tree id id' d d' next before before'
  · exact absurd new' (old before)
  · exact absurd new (old before')
  · exact ⟨alone id mem id' mem', rfl⟩

theorem addBranch_word (proper : graph.Proper) (tree : graph.TreeLike) (past word : Text)
    (here : ∀ id ∈ frontier, graph.follow? 0 past = some id) :
    (graph.addBranch frontier (piecesOf .letter word)).1.TreeLike ∧
      ∀ id ∈ (graph.addBranch frontier (piecesOf .letter word)).2,
        (graph.addBranch frontier (piecesOf .letter word)).1.follow? 0 (past ++ word) =
          some id := by
  induction word generalizing graph frontier past with
  | nil =>
    rw [List.append_nil]
    exact ⟨tree, here⟩
  | cons c word ih =>
    have grown := addBranch_grows proper frontier [⟨.letter c, .once⟩]
    -- All of the frontier is one node, so the new one gets one edge.
    have tree' := tree.addPiece proper
      (fun id mem id' mem' => Option.some.inj ((here id mem).symm.trans (here id' mem'))) c
    have later := ih grown.2 tree' (past ++ [c]) fun id mem => by
      obtain ⟨source, start, node, present, target⟩ := (mem_targets frontier (.letter c) id).1 mem
      obtain ⟨d, ⟨item, among, reads⟩, edge⟩ := (Node.mem_targets_chars _ id).1 target
      obtain rfl := List.mem_singleton.1 among
      obtain rfl := beq_iff_eq.1 reads
      exact (follow?_append 0 past [d] id).2
        ⟨source, grown.1.follow? 0 source past (here source start),
          follow?_single.2 ⟨node, present, edge⟩⟩
    rwa [List.append_assoc, List.singleton_append] at later

theorem addBranches_words (proper : graph.Proper) (tree : graph.TreeLike) (words : List Text) :
    (graph.addBranches [0] (.ofWords .letter words)).1.TreeLike ∧
      ∀ id ∈ (graph.addBranches [0] (.ofWords .letter words)).2, ∃ word ∈ words,
        (graph.addBranches [0] (.ofWords .letter words)).1.follow? 0 word = some id := by
  induction words generalizing graph with
  | nil => exact ⟨tree, fun id none => absurd none List.not_mem_nil⟩
  | cons word words ih =>
    have grown := addBranch_grows proper [0] (piecesOf .letter word)
    have root : ∀ id ∈ [0], graph.follow? 0 [] = some id := fun id start =>
      List.mem_singleton.1 start ▸ rfl
    obtain ⟨tree', ends⟩ := addBranch_word proper tree [] word root
    obtain ⟨tree'', others⟩ := ih grown.2 tree'
    refine ⟨tree'', fun id mem => ?_⟩
    rcases mem_joinNodes.1 mem with mem | mem
    · have later := addBranches_grows grown.2 [0] (.ofWords .letter words)
      exact ⟨word, List.mem_cons_self, later.1.follow? 0 id word (ends id mem)⟩
    · obtain ⟨other, among, follows⟩ := others id mem
      exact ⟨other, .tail _ among, follows⟩

theorem TreeLike.addValue (tree : graph.TreeLike) (ends : List Nat) (v : ν) :
    (graph.addValue ends v).TreeLike := by
  have same {id next : Nat} {c : Char}
      (follows : (graph.addValue ends v).follow? id [c] = some next) :
      graph.follow? id [c] = some next := by
    obtain ⟨node', present', edge⟩ := follow?_single.1 follows
    obtain ⟨node, present, edges, -, -⟩ := addValue_links ends v id node' present'
    unfold Node.edge? at edge
    rw [← edges] at edge
    exact follow?_single.2 ⟨node, present, edge⟩
  exact fun id id' c c' next first second => tree id id' c c' next (same first) (same second)

theorem TreeLike.addPattern (tree : graph.TreeLike) (proper : graph.Proper) (words : List Text)
    (v : ν) : (graph.addPattern (.ofWords .letter words) v).TreeLike :=
  (addBranches_words proper tree words).1.addValue _ v

/-! ## A walk without groups -/

section Hopless

variable {run : Group → Text → Option (Found Unit)}
  (hopless : ∀ (id : Nat) (node : Node Group ν), graph[id]? = some node → node.hops = [])

include hopless

theorem follow?_of_reaches {input : Text} {place : Place}
    (comes : Reaches (graph.next? run) (.start input) place) :
    ∃ read, read ++ place.rest = input ∧ graph.follow? 0 read = some place.id := by
  induction comes with
  | refl => exact ⟨[], rfl, rfl⟩
  | tail _ step ih =>
    obtain ⟨read, whole, follows⟩ := ih
    obtain ⟨next, leads, rfl⟩ := edge_of_hopless hopless step
    obtain ⟨node, present, leads⟩ := Option.bind_eq_some_iff.1 leads
    obtain ⟨c, first, edge⟩ := Option.bind_eq_some_iff.1 leads
    obtain ⟨rest, eq⟩ := List.head?_eq_some_iff.1 first
    refine ⟨read ++ [c], ?_, ?_⟩
    · rw [← whole, eq, List.append_assoc]
      rfl
    · exact (follow?_append 0 read [c] next).2
        ⟨_, follows, follow?_single.2 ⟨node, present, edge⟩⟩

theorem spans_of_hopless (entered : List Nat) (id : Nat) (text : Text) :
    ∀ found ∈ graph.walk run entered id text, found.spans = [] := by
  refine walk_induction (motive := fun _ _ _ result => ∀ found ∈ result, found.spans = [])
    ?_ ?_ ?_ ?_ entered id text
  · exact fun _ _ _ _ found none => nomatch none
  · intro entered id text node next present edge ih found mem
    rcases Option.or_eq_some_iff.1 mem with further | ⟨-, here⟩
    · obtain ⟨found, walked, rfl⟩ := Option.map_eq_some_iff.1 further
      simp [Found.after, ih found walked]
    · obtain ⟨v, -, rfl⟩ := Option.map_eq_some_iff.1 here
      rfl
  · intro entered id text node hop found present edge taken ih
    rw [hopless id node present] at taken
    cases taken
  · intro entered id text node present edge stop found mem
    obtain ⟨v, -, rfl⟩ := Option.map_eq_some_iff.1 mem
    rfl

end Hopless

end Graph

namespace Lexicon

/-! ## Lexicons of words -/

/-- Every pattern among the entries is an alternation of words. -/
def AllAlternations (entries : List (Entry ν)) : Prop :=
  ∀ text value, .pattern text value ∈ entries → (alternativesOf? text).isSome

/-- A pattern with this value that was taken after the entries before it has the word among its
alternatives. -/
def Spells (entries before : List (Entry ν)) (word : Text) (value : ν) : Prop :=
  ∃ text words, Took entries before (.pattern text value) ∧ alternativesOf? text = some words ∧
    word ∈ words

variable {entries before : List (Entry ν)} {text word : Text} {words : List Text} {value : ν}
  {id : Nat}

theorem treeLike_of_alternations (alternations : AllAlternations entries) :
    (ofEntries entries).graph.TreeLike := by
  induction entries using List.reverseRecOn with
  | nil => exact Graph.treeLike_empty
  | append_singleton entries entry ih =>
    have tree := ih fun text value mem => alternations text value (List.mem_append_left _ mem)
    rw [ofEntries_concat]
    rcases extend_graph (ofEntries entries) entry with
      same | ⟨text, value, pattern, branches, groups, rfl, -, read, links, eq⟩
    · rwa [same]
    · obtain ⟨words, found⟩ := Option.isSome_iff_exists.1
        (alternations text value (List.mem_append_right _ List.mem_cons_self))
      obtain rfl := Except.ok.inj (read.symm.trans (alternativesOf?_eq_some.1 found))
      cases (links_ofWords _ _ words).symm.trans links
      rw [eq]
      exact tree.addPattern (ofEntries_proper entries) words value

theorem hopless_of_alternations (alternations : AllAlternations entries) (id : Nat)
    (node : Node Group ν) (present : (ofEntries entries).graph[id]? = some node) :
    node.hops = [] := by
  refine hopless_of_allPlain entries ?_ id node present
  intro text value pattern ⟨before, took⟩ read
  obtain ⟨words, found⟩ := Option.isSome_iff_exists.1 (alternations text value took.mem)
  obtain rfl := Except.ok.inj (read.symm.trans (alternativesOf?_eq_some.1 found))
  exact plain_ofWords words

theorem Took.exists_end (took : Took entries before (.pattern text value))
    (found : alternativesOf? text = some words) (mem : word ∈ words) :
    ∃ id ∈ (ofEntries before).endsOf text,
      (ofEntries entries).graph.follow? 0 word = some id :=
  took.follow? (fun _ => 0) (alternativesOf?_eq_some.1 found) (plain_ofWords words)
    (mem_language_ofWords _ mem)

theorem Took.exists_word (took : Took entries before (.pattern text value))
    (tree : (ofEntries before).graph.TreeLike) (found : alternativesOf? text = some words)
    (mem : id ∈ (ofEntries before).endsOf text) :
    ∃ word ∈ words, (ofEntries entries).graph.follow? 0 word = some id := by
  obtain ⟨pattern, branches, groups, read, links, grown⟩ := took.grown
  rw [endsOf_eq read links] at mem
  obtain rfl := Except.ok.inj (read.symm.trans (alternativesOf?_eq_some.1 found))
  cases (links_ofWords _ _ words).symm.trans links
  obtain ⟨word, among, follows⟩ :=
    (Graph.addBranches_words (ofEntries_proper before) tree words).2 id mem
  refine ⟨word, among, grown.follow? 0 id word ?_⟩
  exact (Graph.extends_addValue _ value).follow? 0 id word follows

/-- A pattern has the word that leads to a node exactly if it ends there. -/
theorem spells_iff_ends (alternations : AllAlternations entries)
    (follows : (ofEntries entries).graph.follow? 0 word = some id) :
    Spells entries before word value ↔ ∃ text, Ends entries before text value id := by
  constructor
  · rintro ⟨text, words, took, found, mem⟩
    obtain ⟨id', ends, follows'⟩ := took.exists_end found mem
    obtain rfl := Option.some.inj (follows.symm.trans follows')
    exact ⟨text, took, ends⟩
  · rintro ⟨text, took, mem⟩
    obtain ⟨words, found⟩ := Option.isSome_iff_exists.1 (alternations text value took.mem)
    have tree : (ofEntries before).graph.TreeLike := by
      obtain ⟨after, rfl, -⟩ := took
      exact treeLike_of_alternations fun text value mem =>
        alternations text value (List.mem_append_left _ mem)
    obtain ⟨other, among, follows'⟩ := took.exists_word tree found mem
    obtain rfl := (treeLike_of_alternations alternations).follow?_injective
      (ofEntries_proper entries) follows' follows
    exact ⟨text, words, took, found, among⟩

/-- The first of the patterns that have the word has this value. -/
def FirstSpells (entries : List (Entry ν)) (word : Text) (value : ν) : Prop :=
  ∃ before, Spells entries before word value ∧
    ∀ before' value', Spells entries before' word value' → before <+: before'

theorem FirstSpells.unique {value' : ν} (first : FirstSpells entries word value)
    (first' : FirstSpells entries word value') : value = value' := by
  obtain ⟨before, spells, least⟩ := first
  obtain ⟨before', spells', least'⟩ := first'
  obtain rfl : before = before' :=
    (least before' value' spells').eq_of_length_le (least' before value spells).length_le
  obtain ⟨text, -, ⟨after, eq, -⟩, -⟩ := spells
  obtain ⟨text', -, ⟨after', eq', -⟩, -⟩ := spells'
  cases List.append_cancel_left (eq.symm.trans eq')
  rfl

theorem Spells.exists_match (spells : Spells entries before word value) {input : Text}
    (starts : word <+: input) :
    ∃ m, (ofEntries entries).longest? input = some m ∧ word.length ≤ m.text.length := by
  obtain ⟨rest, rfl⟩ := starts
  obtain ⟨text, words, took, found, mem⟩ := spells
  obtain ⟨id, ends, follows⟩ := took.exists_end found mem
  obtain ⟨node, present, valued⟩ := took.valued ends
  obtain ⟨found, walked, long⟩ :=
    Graph.walk_follow Group.run [0] 0 id word rest node follows present valued
  refine ⟨_, longest?_of_walk _ _ found walked, ?_⟩
  simp only [Found.toMatch, List.length_take, List.length_append]
  omega

theorem firstSpells_of_match (alternations : AllAlternations entries) {input : Text} {m : Match ν}
    (found : (ofEntries entries).longest? input = some m) :
    m.captures = [] ∧ m.text <+: input ∧ FirstSpells entries m.text m.value := by
  have hopless := hopless_of_alternations alternations
  refine ⟨?_, ?_, ?_⟩
  · obtain ⟨reading, walked, rfl⟩ := Option.map_eq_some_iff.1 found
    rw [Found.toMatch, Graph.spans_of_hopless hopless [0] 0 input reading walked, List.map_nil]
  · obtain ⟨last, -, -, split⟩ := longest?_last found
    exact ⟨last.rest, split⟩
  · obtain ⟨last, ends, known, split⟩ := longest?_last found
    obtain ⟨read, whole, follows⟩ := Graph.follow?_of_reaches hopless ends.comes
    obtain rfl := List.append_cancel_right (whole.trans split.symm)
    obtain ⟨node, present, value⟩ := Option.bind_eq_some_iff.1 known
    obtain ⟨before, text, there, least⟩ := first_of_value node m.value present value
    refine ⟨before, (spells_iff_ends alternations follows).2 ⟨text, there⟩,
      fun before' value' spells => ?_⟩
    obtain ⟨text', there'⟩ := (spells_iff_ends alternations follows).1 spells
    exact least before' text' value' there'

/-- Where every pattern is an alternation of words, a match is the longest word that the input
starts with, with the value of the first pattern that was taken of those that have it, and without
captures. There is no match exactly if the input starts with no word. -/
theorem longest?_of_alternations (entries : List (Entry ν)) (alternations : AllAlternations entries)
    (input : Text) :
    (∀ m, (ofEntries entries).longest? input = some m ↔
      m.text <+: input ∧ FirstSpells entries m.text m.value ∧ m.captures = [] ∧
        ∀ before word value, Spells entries before word value → word <+: input →
          word.length ≤ m.text.length) ∧
    ((ofEntries entries).longest? input = none ↔
      ∀ before word value, Spells entries before word value → ¬word <+: input) := by
  have matched {m : Match ν} (found : (ofEntries entries).longest? input = some m) :
      m.text <+: input ∧ FirstSpells entries m.text m.value ∧ m.captures = [] ∧
        ∀ before word value, Spells entries before word value → word <+: input →
          word.length ≤ m.text.length := by
    obtain ⟨none, starts, first⟩ := firstSpells_of_match alternations found
    refine ⟨starts, first, none, fun before word value spells starts' => ?_⟩
    obtain ⟨m', found', long⟩ := spells.exists_match starts'
    cases found.symm.trans found'
    exact long
  refine ⟨fun m => ⟨matched, ?_⟩, ?_, fun no_word => ?_⟩
  · -- The conditions leave no choice of the text, nor of the value.
    rintro ⟨starts, first, none, longest⟩
    obtain ⟨before, spells, -⟩ := id first
    obtain ⟨m', found, long⟩ := spells.exists_match starts
    obtain ⟨starts', first', none', -⟩ := matched found
    obtain ⟨before', spells', -⟩ := id first'
    rw [found]
    obtain ⟨text, value, captures⟩ := m
    obtain ⟨text', value', captures'⟩ := m'
    obtain rfl : text = text' :=
      (List.prefix_of_prefix_length_le starts starts' long).eq_of_length_le
        (longest before' text' value' spells' starts')
    obtain rfl : value = value' := first.unique first'
    rw [show captures = [] from none, show captures' = [] from none']
  · intro none before word value spells starts
    obtain ⟨m, found, -⟩ := spells.exists_match starts
    cases none.symm.trans found
  · cases found : (ofEntries entries).longest? input with
    | none => rfl
    | some m =>
      obtain ⟨starts, ⟨before, spells, -⟩, -⟩ := matched found
      exact absurd starts (no_word before m.text m.value spells)

theorem longest?_of_alternations_signs :
    let entries : List (Entry Nat) :=
      [.pattern "a|ab".toList 1, .pattern "ab|a\\+b".toList 2, .pattern "b".toList 3]
    AllAlternations entries ∧
    ((ofEntries entries).longest? "a+bc".toList = some ⟨"a+b".toList, 2, []⟩ ∧
      FirstSpells entries "a+b".toList 2 ∧
      ∀ before word value, Spells entries before word value → word <+: "a+bc".toList →
        word.length ≤ 3) ∧
    (ofEntries entries).longest? "abc".toList = some ⟨"ab".toList, 1, []⟩ ∧
      FirstSpells entries "ab".toList 1 := by
  intro entries
  have alternations : AllAlternations entries := by
    intro text value mem
    simp only [entries, List.mem_cons, Entry.pattern.injEq, List.not_mem_nil, or_false] at mem
    rcases mem with ⟨rfl, rfl⟩ | ⟨rfl, rfl⟩ | ⟨rfl, rfl⟩ <;> decide +kernel
  have sum : (ofEntries entries).longest? "a+bc".toList = some ⟨"a+b".toList, 2, []⟩ := by
    decide +kernel
  have row : (ofEntries entries).longest? "abc".toList = some ⟨"ab".toList, 1, []⟩ := by
    decide +kernel
  obtain ⟨-, first, -, longest⟩ :=
    ((longest?_of_alternations entries alternations "a+bc".toList).1 _).1 sum
  obtain ⟨-, first', -, -⟩ :=
    ((longest?_of_alternations entries alternations "abc".toList).1 _).1 row
  exact ⟨alternations, ⟨sum, first, longest⟩, row, first'⟩

end Lexicon

end OpGrammar
