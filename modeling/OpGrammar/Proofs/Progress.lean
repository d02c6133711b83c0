import OpGrammar.Grammar.Parse
import OpGrammar.Proofs.Links
import OpGrammar.Proofs.Rules

/-!
# Progress

Reading tokens gets on if every match has some text, and only then. The lexicon does not ensure it:
the test for patterns that read nothing does not look into the meaning of a name, and two patterns
may share a node that one of them reaches without reading.
-/

namespace OpGrammar

/-- What the lexicon finds where a token starts is not empty. -/
def Lexicon.ReadsSome {ν : Type} (lexicon : Lexicon ν) : Prop :=
  ∀ c rest m, isBlank c = false → lexicon.longest? (c :: rest) = some m → m.text ≠ []

/-- The call for the next token of a text ends with a token that takes up some of it, or with the
end of the tokens. -/
def NextToken.Advances (text : Text) : NextToken → Prop
  | .token found rest => found.start < found.stop ∧ rest.length < text.length
  | .ending (.finished _) | .ending (.unknown _ _) => True
  | .ending (.repeated _) | .ending (.skipping _) => False

/-- Nothing comes again and again at the end of the tokens. -/
def Ending.Final : Ending → Prop
  | .finished _ | .unknown _ _ => True
  | .repeated _ | .skipping _ => False

/-- The parse is not one that does the same over and over. -/
def Run.Ends {α : Type} (run : Run α) : Prop := ∀ place, run.result ≠ .error (.noProgress place)

variable {O : Type} {grammar : Grammar O}

namespace Grammar

/-- Every call comes to an end. -/
structure Terminates (grammar : Grammar O) : Prop where
  next : ∀ place text, (grammar.nextToken place text).Advances text
  tokens : ∀ input place, grammar.tokens input ≠ .error (.noProgress place)
  parse : ∀ input, (grammar.parse input).Ends
  parseAll : ∀ input, (grammar.parseAll input).Ends

/-! ## Tokens -/

theorem byteSize_pos (text : Text) (some : text ≠ []) : 0 < Text.byteSize text := by
  cases text with
  | nil => exact absurd rfl some
  | cons c text =>
    have := Char.utf8Size_pos c
    rw [Text.byteSize_cons]
    omega

theorem not_isBlank_of_dropWhile {text rest : Text} {c : Char}
    (h : text.dropWhile isBlank = c :: rest) : isBlank c = false := by
  have first := List.head?_dropWhile_not isBlank text
  rw [h] at first
  exact first

theorem nextToken_advances (reads : grammar.lexicon.ReadsSome) (place : Nat) (text : Text) :
    (grammar.nextToken place text).Advances text := by
  fun_induction grammar.nextToken place text with
  | case1 | case2 => exact True.intro
  | case3 place text start c rest left found matched _ none =>
    exact absurd none (reads c rest found (not_isBlank_of_dropWhile left) matched)
  | case4 place text start c rest left found matched stop after _ some ih =>
    -- What advances over the rest of a text advances over the text.
    have shorter : after.length < text.length := Nat.lt_of_lt_of_le
      (length_drop_lt some (List.cons_ne_nil c rest)) (length_le_of_dropWhile left)
    cases next : grammar.nextToken stop after with
    | token token more =>
      rw [next] at ih
      exact ⟨ih.1, Nat.lt_trans ih.2 shorter⟩
    | ending ending =>
      rw [next] at ih
      cases ending <;> exact ih
  | case5 place text start c rest left found matched stop after _ =>
    have some := reads c rest found (not_isBlank_of_dropWhile left) matched
    refine ⟨?_, ?_⟩
    · have := byteSize_pos found.text some
      show start < start + Text.byteSize found.text
      omega
    · exact Nat.lt_of_lt_of_le (length_drop_lt some (List.cons_ne_nil c rest))
        (length_le_of_dropWhile left)

theorem nextToken_of_empty (c : Char) (rest : Text) (m : Match Nat) (place : Nat)
    (solid : isBlank c = false) (matched : grammar.lexicon.longest? (c :: rest) = some m)
    (empty : m.text = []) : ¬(grammar.nextToken place (c :: rest)).Advances (c :: rest) := by
  have left : (c :: rest).dropWhile isBlank = c :: rest := by simp [solid]
  rw [nextToken]
  dsimp only
  split
  · rename_i none
    rw [left] at none
    cases none
  · rename_i c' rest' left'
    obtain ⟨rfl, rfl⟩ := List.cons.inj (left.symm.trans left')
    rw [matched]
    dsimp only
    split
    · rw [dif_pos empty]
      exact id
    · rintro ⟨forward, -⟩
      dsimp only at forward
      rw [empty, Text.byteSize_nil] at forward
      omega

theorem nextToken_stop {place : Nat} {text : Text} {token : Token} {rest : Text}
    (h : grammar.nextToken place text = .token token rest) :
    token.stop = token.start + Text.byteSize token.text := by
  fun_induction grammar.nextToken place text with
  | case1 | case2 | case3 => cases h
  | case4 _ _ _ _ _ _ _ _ _ _ _ _ ih => exact ih h
  | case5 =>
    obtain ⟨rfl, -⟩ := NextToken.token.inj h
    rfl

theorem scanFrom_final (next : ∀ place text, (grammar.nextToken place text).Advances text)
    (place : Nat) (text : Text) : (grammar.scanFrom place text).ending.Final := by
  fun_induction grammar.scanFrom place text with
  | case1 place text ending eq =>
    have advances := next place text
    rw [eq] at advances
    cases ending <;> exact advances
  | case2 place text token rest eq empty =>
    have advances := next place text
    have stop := nextToken_stop eq
    rw [eq] at advances
    rw [empty, Text.byteSize_nil] at stop
    have := advances.1
    omega
  | case3 place text token rest eq some scan ih => exact ih

/-! ## Parses -/

end Grammar

namespace Run

variable {α β : Type}

theorem ends_pure (a : α) : (pure a : Run α).Ends := by
  intro place h
  cases h

theorem ends_emit (event : Event) : (emit event).Ends := by
  intro place h
  cases h

theorem ends_fail (e : ParseError) (other : ∀ place, e ≠ .noProgress place) :
    (fail e : Run α).Ends := by
  intro place h
  exact other place (Except.error.inj h)

theorem Ends.bind {run : Run α} {next : α → Run β} (first : run.Ends)
    (second : ∀ a, (next a).Ends) : (run >>= next).Ends := by
  intro place h
  rw [result_bind] at h
  cases eq : run.result with
  | error e =>
    rw [eq] at h
    have same : e = .noProgress place := Except.error.inj h
    exact first place (same ▸ eq)
  | ok a =>
    rw [eq] at h
    exact second a place h

theorem Ends.map {run : Run α} (first : run.Ends) (f : α → β) : (f <$> run).Ends := by
  intro place h
  rw [result_map] at h
  cases eq : run.result with
  | error e =>
    rw [eq] at h
    cases h
    exact first place eq
  | ok a =>
    rw [eq] at h
    cases h

end Run

theorem ends_fetch (left : Scan) (final : left.ending.Final) (depth : Nat) :
    (fetch left depth).Ends := by
  obtain ⟨_ | ⟨token, tokens⟩, ending⟩ := left
  · cases ending with
    | finished place => exact Run.ends_emit _
    | unknown place rest => exact Run.ends_fail _ fun place => by simp
    | repeated | skipping => exact final.elim
  · exact Run.ends_emit _

namespace Grammar

theorem ends_start (left : Scan) (final : left.ending.Final) (stack : List (Frame O))
    (token : Token) : (grammar.start left stack token).Ends := by
  unfold start
  refine (ends_fetch left final _).bind fun _ => (Run.ends_emit _).bind fun _ => ?_
  split
  · exact Run.ends_pure _
  · exact Run.ends_pure _
  · exact Run.ends_pure _
  · exact Run.ends_fail _ fun place => by simp

theorem ends_follow (left : Scan) (final : left.ending.Final) (stack : List (Frame O))
    (tree : Tree O) (token : Token) : (grammar.follow left stack tree token).Ends := by
  unfold follow
  refine (ends_fetch left final _).bind fun _ => (Run.ends_emit _).bind fun _ => ?_
  split
  · exact Run.ends_pure _
  · exact Run.ends_pure _
  · exact Run.ends_pure _
  · exact Run.ends_fail _ fun place => by simp

theorem ends_close (left : Scan) (final : left.ending.Final) (stack : List (Frame O))
    (tree : Tree O) (opening : Token) (closing : Nat) (wrap : O → O) (token : Token) :
    (grammar.close left stack tree opening closing wrap token).Ends := by
  unfold close
  refine (ends_fetch left final _).bind fun _ => ?_
  split
  · exact Run.ends_pure _
  · exact Run.ends_fail _ fun place => by simp

theorem ends_resume (statements : Bool) (left : Scan) (final : left.ending.Final) (token : Token)
    (stack : List (Frame O)) (tree : Tree O) :
    (grammar.resume statements left token stack tree).Ends := by
  induction stack generalizing tree with
  | nil =>
    unfold resume
    split
    · exact (ends_follow left final [] tree token).map _
    · exact Run.ends_pure _
  | cons frame stack ih =>
    unfold resume
    split
    · exact (ends_follow left final (frame :: stack) tree token).map _
    · cases frame with
      | prefixOp operator power apply => exact ih _
      | infixOp operator power combine first => exact ih _
      | bracket opening closing wrap =>
        exact (ends_close left final stack tree opening closing wrap token).map _

theorem ends_step (statements : Bool) (left : Scan) (final : left.ending.Final) (token : Token)
    (stage : Stage O) : (grammar.step statements left token stage).Ends := by
  cases stage with
  | operand stack => exact (ends_start left final stack token).map _
  | operator stack tree => exact ends_resume statements left final token stack tree

theorem ends_finish (place : Nat) (stage : Stage O) : (grammar.finish place stage).Ends := by
  cases stage with
  | operand stack =>
    exact (Run.ends_emit _).bind fun _ => (Run.ends_emit _).bind fun _ =>
      Run.ends_fail _ fun place => by simp
  | operator stack tree =>
    show (grammar.finishTree place stack tree).Ends
    induction stack generalizing tree with
    | nil => exact Run.ends_pure _
    | cons frame stack ih =>
      cases frame with
      | prefixOp operator power apply => exact ih _
      | infixOp operator power combine first => exact ih _
      | bracket opening closing wrap =>
        exact (Run.ends_emit _).bind fun _ => Run.ends_fail _ fun place => by simp

theorem ends_readOne (input : Text) (ending : Ending) (final : ending.Final) (tokens : List Token)
    (stage : Stage O) : (grammar.readOne input ending tokens stage).Ends := by
  induction tokens generalizing stage with
  | nil => exact ends_finish ending.place stage
  | cons token tokens ih =>
    unfold readOne
    refine (ends_step false ⟨tokens, ending⟩ final token stage).bind fun outcome => ?_
    cases outcome with
    | more stage => exact ih stage
    | ended tree => exact Run.ends_fail _ fun place => by simp

theorem ends_startNext (left : Scan) (final : left.ending.Final) (token : Token) :
    (grammar.startNext left token).Ends := by
  unfold startNext
  split
  · exact (ends_fetch left final 0).bind fun _ => Run.ends_pure _
  · exact (ends_start left final [] token).map _

theorem ends_readAll (ending : Ending) (final : ending.Final) (tokens : List Token)
    (stage : Option (Stage O)) : (grammar.readAll ending tokens stage).Ends := by
  induction tokens generalizing stage with
  | nil =>
    cases stage with
    | none => exact Run.ends_pure _
    | some stage => exact (ends_finish ending.place stage).map _
  | cons token tokens ih =>
    cases stage with
    | none => exact (ends_startNext ⟨tokens, ending⟩ final token).bind fun next => ih next
    | some stage =>
      refine (ends_step true ⟨tokens, ending⟩ final token stage).bind fun outcome => ?_
      cases outcome with
      | more stage => exact ih (some stage)
      | ended tree =>
        exact (ends_startNext ⟨tokens, ending⟩ final token).bind fun next => (ih next).map _

theorem unrolled_of_final (scan : Scan) (final : scan.ending.Final) : scan.unrolled = scan := by
  obtain ⟨tokens, ending⟩ := scan
  cases ending with
  | finished | unknown | skipping => rfl
  | repeated => exact final.elim

theorem terminates_of_readsSome (reads : grammar.lexicon.ReadsSome) : grammar.Terminates := by
  have next := nextToken_advances reads
  have final (input : Text) : (grammar.scan input).ending.Final := scanFrom_final next 0 input
  refine ⟨next, fun input place h => ?_, fun input => ?_, fun input => ?_⟩
  · have last := final input
    unfold tokens at h
    dsimp only at h
    cases eq : (grammar.scan input).ending with
    | finished | unknown => simp [eq] at h
    | repeated | skipping =>
      rw [eq] at last
      exact last
  · refine Run.Ends.map ?_ _
    unfold parseTree
    rw [unrolled_of_final _ (final input)]
    exact (ends_fetch _ (final input) 0).bind fun _ => ends_readOne input _ (final input) _ _
  · refine Run.Ends.map ?_ _
    unfold parseTrees
    rw [unrolled_of_final _ (final input)]
    exact (ends_fetch _ (final input) 0).bind fun _ => ends_readAll _ (final input) _ _

end Grammar

/-! ## Patterns that take some text -/

mutual

/-- Whether an atom takes some text, whatever else is in the graph, if the names for which `known`
is true do. -/
def Atom.solid (known : Text → Bool) : Atom → Bool
  | .char _ | .oneOf _ => true
  | .group _ inner => solidBranches known inner
  | .reference _ name => known name

def solidBranches (known : Text → Bool) : List (List (Piece Atom)) → Bool
  | [] => true
  | branch :: branches => solidBranch known branch && solidBranches known branches

/-- Whether a branch takes some text: a piece of it cannot be left out, and neither that atom nor
any before it can be read as nothing. -/
def solidBranch (known : Text → Bool) : List (Piece Atom) → Bool
  | [] => false
  | ⟨atom, quantifier⟩ :: pieces =>
    atom.solid known && (!quantifier.allowsNone || solidBranch known pieces)

end

/-- The group reads nothing where nothing is: its first node has no value, and the ways on from
there are through groups of this kind. -/
inductive Group.Solid : Group → Prop
  | intro {group : Group} (value : ∀ node, group.graph[0]? = some node → node.value = none)
    (hops : ∀ node, group.graph[0]? = some node → ∀ hop ∈ node.hops, hop.group.Solid) :
    Solid group

/-- A walk does not stop at the first node, nor get away from it without reading. -/
structure Graph.Solid {ν : Type} (graph : Graph Group ν) : Prop where
  value : ∀ node, graph[0]? = some node → node.value = none
  hops : ∀ node, graph[0]? = some node → ∀ hop ∈ node.hops, hop.group.Solid

def Link.Solid : Link → Prop
  | .chars _ => True
  | .group inner _ => inner.Solid

def SolidLinks : List (Piece Link) → Prop
  | [] => False
  | piece :: pieces => piece.atom.Solid ∧ (piece.quantifier.allowsNone → SolidLinks pieces)

namespace Graph

variable {ν : Type} {graph : Graph Group ν}

theorem walk_pos (solid : graph.Solid) (run : Group → Text → Option (Found Unit))
    (groups : ∀ node, graph[0]? = some node → ∀ hop ∈ node.hops, ∀ text found,
      run hop.group text = some found → 0 < found.length)
    (text : Text) (found : Found ν) (h : graph.walk run [0] 0 text = some found) :
    0 < found.length := by
  cases present : graph[0]? with
  | none =>
    rw [walk_of_missing present] at h
    cases h
  | some node =>
    have none : node.value = none := solid.value node present
    cases edge : text.head?.bind node.edge? with
    | some next =>
      rw [walk_of_edge present edge, none, Option.map_none, Option.or_none] at h
      obtain ⟨later, -, rfl⟩ := Option.map_eq_some_iff.1 h
      simp only [Found.after]
      omega
    | none =>
      cases taken : graph.firstHop? run [0] text node.hops with
      | none =>
        rw [walk_of_stop present edge taken, none] at h
        cases h
      | some taken' =>
        obtain ⟨hop, first⟩ := taken'
        rw [walk_of_hop present edge taken, none, Option.map_none, Option.or_none] at h
        obtain ⟨later, -, rfl⟩ := Option.map_eq_some_iff.1 h
        obtain ⟨mem, ran, -⟩ := of_firstHop? taken
        have := groups node present hop mem text first ran
        simp only [Found.after]
        omega

end Graph

theorem Group.Solid.run_pos {group : Group} (solid : group.Solid) (text : Text)
    (found : Found Unit) (h : group.run text = some found) : 0 < found.length := by
  induction solid generalizing text found with
  | @intro group value hops ih =>
    rw [Group.run_eq] at h
    exact Graph.walk_pos ⟨value, hops⟩ Group.run (fun node present hop mem text found ran =>
      ih node present hop mem text found ran) text found h

namespace Graph

variable {ν : Type} {graph graph' : Graph Group ν}

/-- As long as a branch may go on from the first node, its links take some text; after it, no
branch is at the first node any more. -/
theorem addBranch_solid (proper : graph.Proper) (solid : graph.Solid) (frontier : List Nat)
    (pieces : List (Piece Link)) (links : 0 ∈ frontier → SolidLinks pieces) :
    (graph.addBranch frontier pieces).1.Solid ∧ 0 ∉ (graph.addBranch frontier pieces).2 := by
  induction pieces generalizing graph frontier with
  | nil => exact ⟨solid, fun start => links start⟩
  | cons piece pieces ih =>
    obtain ⟨graph', reached, eq, swept⟩ := addPiece_spec proper frontier piece
    have away : 0 ∉ reached := by
      intro mem
      obtain ⟨before, goes⟩ := swept.goes_to 0 mem
      exact Nat.lt_irrefl 0 (swept.proper.goes piece.atom before 0 goes).1
    have solid' : graph'.Solid := by
      refine ⟨fun node present => ?_, fun node present hop mem => ?_⟩
      · cases known : node.value with
        | none => rfl
        | some v =>
          obtain ⟨old, before, known'⟩ := swept.value 0 node v present known
          rw [solid.value old before] at known'
          cases known'
      · rcases swept.hop 0 node hop present mem with ⟨old, before, mem'⟩ | ⟨source, -, link, -⟩
        · exact solid.hops old before hop mem'
        · rcases mem_sources.1 source with start | ⟨-, mem'⟩
          · have first := (links start).1
            rw [link] at first
            exact first
          · exact absurd mem' away
    unfold addBranch
    rw [eq]
    refine ih swept.proper solid' _ fun start => ?_
    rcases (mem_after _ _ _ _).1 start with mem | ⟨none, start⟩
    · exact absurd mem away
    · exact (links start).2 none

theorem addBranches_solid (proper : graph.Proper) (solid : graph.Solid) (branches : Branches Link)
    (links : ∀ branch ∈ branches, SolidLinks branch) :
    (graph.addBranches [0] branches).1.Solid ∧ 0 ∉ (graph.addBranches [0] branches).2 := by
  induction branches generalizing graph with
  | nil => exact ⟨solid, List.not_mem_nil⟩
  | cons branch branches ih =>
    have first := addBranch_solid proper solid [0] branch fun _ => links branch List.mem_cons_self
    have later := ih (addBranch_grows proper [0] branch).2 first.1
      fun branch mem => links branch (.tail _ mem)
    refine ⟨later.1, fun mem => ?_⟩
    rcases mem_joinNodes.1 mem with mem | mem
    · exact first.2 mem
    · exact later.2 mem

theorem addPattern_solid (proper : graph.Proper) (solid : graph.Solid) (branches : Branches Link)
    (v : ν) (links : ∀ branch ∈ branches, SolidLinks branch) :
    (graph.addPattern branches v).Solid := by
  have grown := addBranches_solid proper solid branches links
  refine ⟨fun node' present => ?_, fun node' present hop mem => ?_⟩
  · obtain ⟨node, before, -, -, values⟩ := addValue_links _ v 0 node' present
    cases known : node'.value with
    | none => rfl
    | some w =>
      rcases values w known with old | ⟨ends, -⟩
      · rw [grown.1.value node before] at old
        cases old
      · exact absurd ends grown.2
  · obtain ⟨node, before, -, hops, -⟩ := addValue_links _ v 0 node' present
    exact grown.1.hops node before hop (hops ▸ mem)

theorem solid_empty : (Graph.empty : Graph Group ν).Solid := by
  have first (node : Node Group ν) (present : (Graph.empty : Graph Group ν)[0]? = some node) :
      node = Node.blank := by
    obtain ⟨-, rfl⟩ := Array.getElem?_eq_some_iff.1 present
    rfl
  refine ⟨fun node present => ?_, fun node present hop mem => ?_⟩
  · rw [first node present]
    rfl
  · rw [first node present] at mem
    cases mem

end Graph

theorem Group.solid_ofBranches (id : GroupId) (branches : Branches Link)
    (links : ∀ branch ∈ branches, SolidLinks branch) : (Group.ofBranches id branches).Solid := by
  have solid := Graph.addPattern_solid Graph.proper_empty Graph.solid_empty branches () links
  exact ⟨solid.value, solid.hops⟩

/-! ## Solid patterns have solid links -/

section Links

variable {meanings : Meanings} {known : Text → Bool}

def KeepsSolid (known : Text → Bool) (piece : Piece Atom) (link : Piece Link) : Prop :=
  link.quantifier = piece.quantifier ∧ (piece.atom.solid known → link.atom.Solid)

theorem solidLinks_of_solidBranch {pieces : List (Piece Atom)} {links : List (Piece Link)}
    (keep : List.Forall₂ (KeepsSolid known) pieces links) (solid : solidBranch known pieces) :
    SolidLinks links := by
  induction keep with
  | nil => cases solid
  | @cons piece link pieces links first _ ih =>
    obtain ⟨same, solid'⟩ := first
    simp only [solidBranch, Bool.and_eq_true, Bool.or_eq_true, Bool.not_eq_true'] at solid
    refine ⟨solid' solid.1, fun none => ih ?_⟩
    rcases solid.2 with required | rest
    · rw [same, required] at none
      cases none
    · exact rest

theorem solidLinks_of_solidBranches {branches : Pattern} {links : Branches Link}
    (keep : List.Forall₂ (List.Forall₂ (KeepsSolid known)) branches links)
    (solid : solidBranches known branches) : ∀ branch ∈ links, SolidLinks branch := by
  induction keep with
  | nil => exact fun branch mem => nomatch mem
  | cons first _ ih =>
    simp only [solidBranches, Bool.and_eq_true] at solid
    exact List.forall_mem_cons.2 ⟨solidLinks_of_solidBranch first solid.1, ih solid.2⟩

/-- Names that count as solid have groups that are. -/
def SolidNames (known : Text → Bool) (meanings : Meanings) : Prop :=
  ∀ name group, known name → meanings.group? name = some group → group.Solid

theorem Atom.solid_freshLink (names : SolidNames known meanings) (atom : Atom)
    (well : atom.WellRead) (link : Link) (made : atom.freshLink meanings = some link)
    (solid : atom.solid known) : link.Solid := by
  induction well generalizing link with
  | char | oneOf =>
    rw [freshLink] at made
    cases made
    exact True.intro
  | reference label name =>
    rw [freshLink] at made
    obtain ⟨group, known', rfl⟩ := Option.map_eq_some_iff.1 made
    rw [Atom.solid] at solid
    exact names name group solid known'
  | group source inner read parts ih =>
    rw [freshLink] at made
    obtain ⟨branches, inside, rfl⟩ := Option.map_eq_some_iff.1 made
    rw [Atom.solid] at solid
    have keep : List.Forall₂ (List.Forall₂ (KeepsSolid known)) inner branches :=
      forall₂_of_freshBranches inside
        fun branch mem piece mem' link made => ⟨made.1, ih branch mem piece mem' _ made.2⟩
    exact Group.solid_ofBranches _ branches (solidLinks_of_solidBranches keep solid)

theorem solidLinks_of_read {text : Text} {pattern : Pattern} {branches : Branches Link}
    (names : SolidNames known meanings) (read : Pattern.read text = .ok pattern)
    (made : freshBranches meanings pattern = some branches) (solid : solidBranches known pattern) :
    ∀ branch ∈ branches, SolidLinks branch :=
  solidLinks_of_solidBranches (forall₂_of_freshBranches made
    fun branch mem piece mem' _ made => ⟨made.1, piece.atom.solid_freshLink names
      (wellRead_of_read read branch mem piece mem') _ made.2⟩) solid

end Links

namespace Lexicon

variable {ν : Type}

/-- Whether a text, if it is a pattern, takes some text. -/
def solidText (known : Text → Bool) (text : Text) : Bool :=
  match Pattern.read text with
  | .ok pattern => solidBranches known pattern
  | .error _ => true

/-- Whether the pattern of an entry takes some text. That of a meaning has to only if the name
counts. -/
def solidEntry (known : Text → Bool) : Entry ν → Bool
  | .meaning name text => !known name || solidText known text
  | .pattern text _ => solidText known text

theorem solidBranches_of_read {known : Text → Bool} {text : Text} {pattern : Pattern}
    (solid : solidText known text) (read : Pattern.read text = .ok pattern) :
    solidBranches known pattern := by
  rw [solidText, read] at solid
  exact solid

theorem solidText_of_meaning {known : Text → Bool} {name text : Text}
    (solid : solidEntry known (.meaning name text : Entry ν)) (counts : known name) :
    solidText known text := by
  rw [solidEntry, counts] at solid
  exact solid

/-- No match is empty, however the lexicon goes on, if its entries do. -/
structure Solid (known : Text → Bool) (lexicon : Lexicon ν) : Prop where
  proper : lexicon.graph.Proper
  coherent : Coherent lexicon.meanings lexicon.inlineGroups
  graph : lexicon.graph.Solid
  names : SolidNames known lexicon.meanings

variable {known : Text → Bool} {lexicon : Lexicon ν}

theorem solid_empty (known : Text → Bool) : (empty : Lexicon ν).Solid known :=
  ⟨Graph.proper_empty, coherent_empty _, Graph.solid_empty, fun _ _ _ found => nomatch found⟩

theorem solidNames_cons (names : SolidNames known lexicon.meanings) (name : Text) (group : Group)
    (generation : Nat) (solid : known name → group.Solid) :
    SolidNames known ⟨(name, group) :: lexicon.meanings.groups, generation⟩ := by
  intro name' group' counts found
  rw [Meanings.group?_cons] at found
  split at found
  · rename_i same
    cases found
    exact solid (same ▸ counts)
  · exact names name' group' counts found

theorem Solid.extend (solid : lexicon.Solid known) (entry : Entry ν)
    (takes : solidEntry known entry) : (lexicon.extend entry).Solid known := by
  have grown := extend_grows lexicon solid.proper entry
  have coherent := extend_coherent lexicon solid.coherent entry
  refine ⟨grown.2, coherent, ?_, ?_⟩
  · rcases extend_graph lexicon entry with
      same | ⟨text, value, pattern, branches, groups, rfl, -, read, links, eq⟩
    · rw [same]
      exact solid.graph
    · rw [eq]
      have fresh := (fresh_of_links solid.coherent read links).1
      exact Graph.addPattern_solid solid.proper solid.graph branches value
        (solidLinks_of_read solid.names read fresh (solidBranches_of_read takes read))
  · cases entry with
    | pattern text value =>
      rw [extend_pattern]
      have cases := insert_cases lexicon text value
      generalize insert text value lexicon = result at cases
      cases cases <;> exact solid.names
    | meaning name text =>
      rw [extend_meaning]
      have cases := setMeaning_cases lexicon name text
      generalize setMeaning name text lexicon = result at cases
      cases cases with
      | refused | abandoned => exact solid.names
      | first pattern branches groups unknown read links =>
        have fresh := (fresh_of_links solid.coherent read links).1
        exact solidNames_cons solid.names name _ _ fun counts => Group.solid_ofBranches _ branches
          (solidLinks_of_read solid.names read fresh
            (solidBranches_of_read (solidText_of_meaning takes counts) read))
      | changed pattern branches groups old read links =>
        have fresh := (fresh_of_links solid.coherent read links).1
        exact solidNames_cons solid.names name _ _ fun counts => Group.solid_ofBranches _ branches
          (solidLinks_of_read solid.names read fresh
            (solidBranches_of_read (solidText_of_meaning takes counts) read))

theorem Solid.readsSome (solid : lexicon.Solid known) : lexicon.ReadsSome := by
  intro c rest m _ matched empty
  obtain ⟨found, walked, rfl⟩ := Option.map_eq_some_iff.1 matched
  have pos := Graph.walk_pos solid.graph Group.run
    (fun node present hop mem => (solid.graph.hops node present hop mem).run_pos)
    (c :: rest) found walked
  have none : (c :: rest).take found.length = [] := empty
  rw [List.take_eq_nil_iff] at none
  rcases none with zero | nil
  · omega
  · cases nil

end Lexicon

/-- Whether the patterns of a rule take some text. -/
def Rule.solid (known : Text → Bool) : Rule O → Bool
  | .name known' pattern => !known known' || Lexicon.solidText known pattern
  | rule => rule.patterns.all (Lexicon.solidText known)

theorem Rule.solidEntry_of_enters {known : Text → Bool} {rule : Rule O} (solid : rule.solid known)
    (entry : Entry Nat) (enters : rule.Enters entry) : Lexicon.solidEntry known entry := by
  cases entry with
  | meaning name text =>
    obtain ⟨pattern, rfl, rfl⟩ := enters
    exact solid
  | pattern text id =>
    have mem : text ∈ rule.patterns := enters
    cases rule with
    | name => cases mem
    | _ => exact List.all_eq_true.1 solid text mem

namespace Grammar

theorem readsSome_of_solid (rules : List (Rule O)) (known : Text → Bool)
    (solid : ∀ rule ∈ rules, rule.solid known) : (ofRules rules).lexicon.ReadsSome := by
  obtain ⟨entries, eq, all⟩ := lexicon_ofRules rules
  have takes : ∀ entry ∈ entries, Lexicon.solidEntry known entry := by
    intro entry mem
    obtain ⟨rule, mem', enters⟩ := all entry mem
    exact Rule.solidEntry_of_enters (solid rule mem') entry enters
  have run : (Lexicon.ofEntries entries).Solid known := by
    clear eq all
    induction entries using List.reverseRecOn with
    | nil => exact Lexicon.solid_empty known
    | append_singleton entries entry ih =>
      rw [Lexicon.ofEntries_concat]
      exact (ih fun entry mem => takes entry (List.mem_append_left _ mem)).extend entry
        (takes entry (by simp))
  rw [eq]
  exact run.readsSome

/-- A grammar comes to an end with every input exactly if no match where a token starts is empty.
That is so if the patterns of its rules take some text, names that they rely on included. -/
theorem terminates_iff (rules : List (Rule O)) :
    ((ofRules rules).Terminates ↔ (ofRules rules).lexicon.ReadsSome) ∧
      ∀ known, (∀ rule ∈ rules, rule.solid known) → (ofRules rules).Terminates := by
  refine ⟨⟨fun terminates c rest m solid matched empty => ?_, terminates_of_readsSome⟩,
    fun known solid => terminates_of_readsSome (readsSome_of_solid rules known solid)⟩
  exact nextToken_of_empty c rest m 0 solid matched empty (terminates.next 0 (c :: rest))

theorem terminates_number : (ofRules [.name ['n'] "[0-9]+".toList, .operand "\x7bn\x7d".toList id,
    .ignored "#+".toList]).Terminates :=
  (terminates_iff _).2 (fun _ => true) (by decide +kernel)

/-- The test does not look into the meaning of `X`, which reads nothing in front of any text. -/
example : ((ofRules [.name ['X'] "(#?)".toList, .operand "\x7bX\x7d".toList id]).lexicon.longest?
    ['b']).map Match.text = some [] := by
  decide +kernel

/-- No name is needed: after the first pattern, one node comes after `a?` at the start and after
`y`, and the second pattern ends at it. -/
example : ((ofRules [.operand "y?(a?)z".toList id, .operand "y(a?)".toList id]).lexicon.longest?
    ['b']).map Match.text = some [] := by
  decide +kernel

end Grammar

end OpGrammar
