import OpGrammar.Proofs.Completeness
import OpGrammar.Proofs.Progress
import OpGrammar.Proofs.RefusedRule
import OpGrammar.Proofs.Stages

/-!
# White space between tokens

A walk looks past the end of what it finds. Where a group always leads to a value, no group is read
in vain, so what is found does not change when the text breaks off behind it. Then more white space
between the tokens of an input changes neither the tokens nor what is made of them.
-/

namespace OpGrammar

/-! ## Graphs that end with their groups -/

/-- The edges of the node read such characters only. -/
def Node.ReadsOnly {γ ν : Type} (readable : Char → Bool) (node : Node γ ν) : Prop :=
  ∀ link ∈ node.edges, ∀ c, link.1.contains c → readable c

def Graph.endsAt {γ ν : Type} (graph : Graph γ ν) (id : Nat) : Bool :=
  (graph[id]?.bind Node.value).isSome

/-- The group reads such characters only, and some of them, and may end after each group in it. -/
inductive Group.Crisp (readable : Char → Bool) : Group → Prop
  | intro {group : Group} (some : group.graph.endsAt 0 = false)
    (edges : ∀ node ∈ group.graph, node.ReadsOnly readable)
    (ends : ∀ node ∈ group.graph, ∀ hop ∈ node.hops, group.graph.endsAt hop.next)
    (groups : ∀ node ∈ group.graph, ∀ hop ∈ node.hops, hop.group.Crisp readable) :
    Crisp readable group

/-- The graph reads such characters only, and a pattern ends after each group in it. -/
structure Graph.Crisp {ν : Type} (readable : Char → Bool) (graph : Graph Group ν) : Prop where
  edges : ∀ node ∈ graph, node.ReadsOnly readable
  ends : ∀ node ∈ graph, ∀ hop ∈ node.hops, graph.endsAt hop.next
  groups : ∀ node ∈ graph, ∀ hop ∈ node.hops, hop.group.Crisp readable

mutual

def Group.crisp (readable : Char → Bool) : Group → Bool
  | .mk _ ⟨nodes⟩ =>
    !Graph.endsAt (⟨nodes⟩ : Graph Group Unit) 0 &&
      crispNodes readable (Graph.endsAt ⟨nodes⟩) nodes

def crispNodes (readable : Char → Bool) (ends : Nat → Bool) : List (Node Group Unit) → Bool
  | [] => true
  | ⟨edges, hops, _⟩ :: nodes =>
    (edges.all (·.1.chars.all readable) && crispHops readable ends hops) &&
      crispNodes readable ends nodes

def crispHops (readable : Char → Bool) (ends : Nat → Bool) : List (Hop Group) → Bool
  | [] => true
  | ⟨group, _, next⟩ :: hops =>
    (ends next && group.crisp readable) && crispHops readable ends hops

end

def Graph.crisp {ν : Type} (readable : Char → Bool) (graph : Graph Group ν) : Bool :=
  graph.toList.all fun node =>
    node.edges.all (·.1.chars.all readable) && crispHops readable graph.endsAt node.hops

section Test

variable {ν : Type} {readable : Char → Bool}

theorem readsOnly_iff {node : Node Group ν} :
    node.edges.all (·.1.chars.all readable) = true ↔ node.ReadsOnly readable := by
  simp [Node.ReadsOnly, ClassItem.mem_chars]

mutual

theorem Group.crisp_sound : (group : Group) → group.crisp readable = true → group.Crisp readable
  | .mk id ⟨nodes⟩, test => by
    simp only [Group.crisp, Bool.and_eq_true, Bool.not_eq_true'] at test
    have parts := crispNodes_sound _ nodes test.2
    refine .intro test.1 ?_ ?_ ?_
    · exact fun node mem => (parts node (by simpa using mem)).1
    · exact fun node mem hop mem' => ((parts node (by simpa using mem)).2 hop mem').1
    · exact fun node mem hop mem' => ((parts node (by simpa using mem)).2 hop mem').2

theorem crispNodes_sound (ends : Nat → Bool) : (nodes : List (Node Group Unit)) →
    crispNodes readable ends nodes = true → ∀ node ∈ nodes, node.ReadsOnly readable ∧
      ∀ hop ∈ node.hops, ends hop.next = true ∧ hop.group.Crisp readable
  | [], _ => List.forall_mem_nil _
  | ⟨edges, hops, value⟩ :: nodes, test => by
    simp only [crispNodes, Bool.and_eq_true] at test
    refine List.forall_mem_cons.2 ⟨⟨?_, ?_⟩, crispNodes_sound ends nodes test.2⟩
    · exact readsOnly_iff.1 test.1.1
    · exact crispHops_sound ends hops test.1.2

theorem crispHops_sound (ends : Nat → Bool) : (hops : List (Hop Group)) →
    crispHops readable ends hops = true →
      ∀ hop ∈ hops, ends hop.next = true ∧ hop.group.Crisp readable
  | [], _ => List.forall_mem_nil _
  | ⟨group, label, next⟩ :: hops, test => by
    simp only [crispHops, Bool.and_eq_true] at test
    exact List.forall_mem_cons.2
      ⟨⟨test.1.1, group.crisp_sound test.1.2⟩, crispHops_sound ends hops test.2⟩

end

theorem Graph.crisp_sound {graph : Graph Group ν} (test : graph.crisp readable = true) :
    graph.Crisp readable := by
  have test (node : Node Group ν) (mem : node ∈ graph) :=
    List.all_eq_true.1 test node (by simpa using mem)
  simp only [Bool.and_eq_true] at test
  refine ⟨fun node mem => readsOnly_iff.1 (test node mem).1, ?_, ?_⟩
  · exact fun node mem hop mem' => (crispHops_sound _ _ (test node mem).2 hop mem').1
  · exact fun node mem hop mem' => (crispHops_sound _ _ (test node mem).2 hop mem').2

end Test

/-! ## Characters that are read -/

section Characters

variable {ν : Type} {readable : Char → Bool} {graph : Graph Group ν}

/-- So much of the text is there, and all of it is readable. -/
def Readable (readable : Char → Bool) (text : Text) (length : Nat) : Prop :=
  length ≤ text.length ∧ ∀ c ∈ text.take length, readable c

theorem Readable.after {text : Text} {m n : Nat} (first : Readable readable text m)
    (later : Readable readable (text.drop m) n) : Readable readable text (m + n) := by
  obtain ⟨inside, chars⟩ := first
  obtain ⟨inside', chars'⟩ := later
  rw [List.length_drop] at inside'
  refine ⟨by omega, fun c mem => ?_⟩
  rw [List.take_add, List.mem_append] at mem
  exact mem.elim (chars c) (chars' c)

theorem Node.ReadsOnly.reads {node : Node Group ν} (reads : node.ReadsOnly readable)
    {text : Text} {next : Nat} (edge : text.head?.bind node.edge? = some next) :
    Readable readable text 1 := by
  obtain ⟨c, rest, item, rfl, mem, contains⟩ := Graph.exists_edge_of_head edge
  exact ⟨by simp, by simpa using reads _ mem c contains⟩

theorem walk_readable (edges : ∀ node ∈ graph, node.ReadsOnly readable)
    (groups : ∀ node ∈ graph, ∀ hop ∈ node.hops, ∀ text found,
      hop.group.run text = some found → Readable readable text found.length)
    (entered : List Nat) (id : Nat) (text : Text) (found : Found ν)
    (walked : graph.walk Group.run entered id text = some found) :
    Readable readable text found.length := by
  have here {text : Text} {value : Option ν} {found : Found ν}
      (h : value.map Found.here = some found) : Readable readable text found.length := by
    obtain ⟨v, -, rfl⟩ := Option.map_eq_some_iff.1 h
    exact ⟨Nat.zero_le _, by simp [Found.here]⟩
  refine Graph.walk_induction (motive := fun _ _ text result => ∀ found, result = some found →
    Readable readable text found.length) ?_ ?_ ?_ ?_ entered id text found walked
  · intro entered id text _ found h
    cases h
  · intro entered id text node next present edge ih found h
    rcases Option.or_eq_some_iff.1 h with h | ⟨-, h⟩
    · obtain ⟨later, walked, rfl⟩ := Option.map_eq_some_iff.1 h
      have more := ih later walked
      rw [← List.drop_one] at more
      exact ((edges node (Array.mem_of_getElem? present)).reads edge).after more
    · exact here h
  · intro entered id text node hop first present _ taken ih found h
    rcases Option.or_eq_some_iff.1 h with h | ⟨-, h⟩
    · obtain ⟨later, walked, rfl⟩ := Option.map_eq_some_iff.1 h
      obtain ⟨mem, ran, -⟩ := Graph.of_firstHop? taken
      have group := groups node (Array.mem_of_getElem? present) hop mem text first ran
      exact group.after (ih later walked)
    · exact here h
  · intro entered id text node present _ _ found h
    exact here h

theorem Group.Crisp.reads {group : Group} (crisp : group.Crisp readable) (text : Text)
    (found : Found Unit) (ran : group.run text = some found) :
    Readable readable text found.length := by
  induction crisp generalizing text found with
  | @intro group some edges ends groups ih =>
    rw [Group.run_eq] at ran
    exact walk_readable edges ih [0] 0 text found ran

theorem Graph.Crisp.reads (crisp : graph.Crisp readable) (entered : List Nat) (id : Nat)
    (text : Text) (found : Found ν) (walked : graph.walk Group.run entered id text = some found) :
    Readable readable text found.length :=
  walk_readable crisp.edges (fun node mem hop mem' => (crisp.groups node mem hop mem').reads)
    entered id text found walked

end Characters

/-! ## Texts that break off -/

/-- The text starts with nothing that can be read. -/
def Breaks (readable : Char → Bool) (text : Text) : Prop := ∀ c ∈ text.head?, readable c = false

/-- Where the text breaks off behind what the group finds, it finds the same. -/
def Group.Steady (readable : Char → Bool) (group : Group) : Prop :=
  ∀ z y y', Breaks readable y' →
    (∀ found, group.run (z ++ y) = some found → found.length ≤ z.length) →
      group.run (z ++ y') = group.run (z ++ y)

section Break

variable {ν : Type} {readable : Char → Bool} {graph : Graph Group ν} {node : Node Group ν}
  {y y' : Text}

theorem Group.Crisp.solid {group : Group} (crisp : group.Crisp readable) : group.Solid := by
  induction crisp with
  | intro some edges ends groups ih =>
    refine .intro (fun node present => ?_) fun node present hop mem =>
      ih node (Array.mem_of_getElem? present) hop mem
    simpa [Graph.endsAt, present] using some

theorem exists_of_endsAt {id : Nat} (ends : graph.endsAt id) :
    ∃ node, graph[id]? = some node ∧ node.value.isSome := by
  rw [Graph.endsAt] at ends
  cases present : graph[id]? with
  | none =>
    rw [present] at ends
    cases ends
  | some node =>
    rw [present] at ends
    exact ⟨node, rfl, ends⟩

theorem Node.ReadsOnly.edge? (reads : node.ReadsOnly readable) {text : Text}
    (breaks : Breaks readable text) : text.head?.bind node.edge? = none := by
  cases text with
  | nil => rfl
  | cons c text =>
    have unread : readable c = false := breaks c rfl
    simp only [List.head?_cons, Option.bind_some, Node.edge?, Option.map_eq_none_iff,
      List.find?_eq_none]
    intro link mem contains
    rw [reads link mem c contains] at unread
    cases unread

theorem firstHop?_of_silent {entered : List Nat} {text : Text} {hops : List (Hop Group)}
    (silent : ∀ hop ∈ hops, hop.group.run text = none) :
    graph.firstHop? Group.run entered text hops = none := by
  rw [Graph.firstHop?, List.findSome?_eq_none_iff]
  intro hop mem
  rw [silent hop mem]
  rfl

theorem Group.Crisp.silent {group : Group} (crisp : group.Crisp readable) {text : Text}
    (breaks : Breaks readable text) : group.run text = none := by
  induction crisp with
  | @intro group some edges ends groups ih =>
    rw [Group.run_eq]
    cases present : group.graph[0]? with
    | none => exact Graph.walk_of_missing present
    | some node =>
      have mem := Array.mem_of_getElem? present
      have unvalued : node.value = none := by simpa [Graph.endsAt, present] using some
      have stop : group.graph.firstHop? Group.run [0] text node.hops = none :=
        firstHop?_of_silent fun hop mem' => ih node mem hop mem'
      rw [Graph.walk_of_stop present ((edges node mem).edge? breaks) stop, unvalued]
      rfl

theorem firstHop?_steady {entered : List Nat} {z : Text} {hops : List (Hop Group)}
    (some : z ≠ []) (breaks : Breaks readable y')
    (solid : ∀ hop ∈ hops, hop.group.Solid) (steady : ∀ hop ∈ hops, hop.group.Steady readable)
    (within : ∀ hop found, graph.firstHop? Group.run entered (z ++ y) hops = .some (hop, found) →
      found.length ≤ z.length) :
    graph.firstHop? Group.run entered (z ++ y') hops =
      graph.firstHop? Group.run entered (z ++ y) hops := by
  induction hops with
  | nil => rfl
  | cons hop hops ih =>
    rw [List.forall_mem_cons] at solid steady
    have advances (text : Text) (found : Found Unit)
        (ran : hop.group.run (z ++ text) = .some found) :
        graph.Advances entered (z ++ text) hop found := by
      have pos := solid.1.run_pos _ found ran
      rw [Graph.Advances, if_neg (by omega)]
      simp [some]
    have first (text : Text) (found : Found Unit) (ran : hop.group.run (z ++ text) = .some found) :
        graph.firstHop? Group.run entered (z ++ text) (hop :: hops) = .some (hop, found) := by
      simp [Graph.firstHop?, ran, advances text found ran]
    have later (text : Text) (failed : hop.group.run (z ++ text) = none) :
        graph.firstHop? Group.run entered (z ++ text) (hop :: hops) =
          graph.firstHop? Group.run entered (z ++ text) hops := by
      simp [Graph.firstHop?, failed]
    cases ran : hop.group.run (z ++ y) with
    | none =>
      have failed := steady.1 z y y' breaks (by simp [ran])
      rw [later y ran] at within ⊢
      rw [later y' (failed.trans ran)]
      exact ih solid.2 steady.2 within
    | some found =>
      have bound := within hop found (first y found ran)
      have same := steady.1 z y y' breaks fun found' ran' => by
        rw [ran] at ran'
        cases ran'
        exact bound
      rw [first y found ran, first y' found (same.trans ran)]

theorem Graph.Crisp.walk_of_breaks (crisp : graph.Crisp readable) (breaks : Breaks readable y)
    {id : Nat} (present : graph[id]? = some node) (entered : List Nat) :
    graph.walk Group.run entered id y = node.value.map Found.here := by
  have mem := Array.mem_of_getElem? present
  exact walk_of_stop present ((crisp.edges node mem).edge? breaks)
    (firstHop?_of_silent fun hop mem' => (crisp.groups node mem hop mem').silent breaks)

theorem Graph.Crisp.exists_of_hop (crisp : graph.Crisp readable) (mem : node ∈ graph)
    {hop : Hop Group} (mem' : hop ∈ node.hops) (entered : List Nat) (text : Text) :
    ∃ later, graph.walk Group.run entered hop.next text = some later := by
  obtain ⟨last, there, valued⟩ := exists_of_endsAt (crisp.ends node mem hop mem')
  exact Option.isSome_iff_exists.1 (walk_isSome Group.run entered hop.next text last there valued)

theorem Graph.Crisp.firstHop?_steady (crisp : graph.Crisp readable) (mem : node ∈ graph)
    (steady : ∀ hop ∈ node.hops, hop.group.Steady readable) (breaks : Breaks readable y')
    {entered : List Nat} {z : Text} (some : z ≠ []) {first : Option (Hop Group × Found Unit)}
    (taken : graph.firstHop? Group.run entered (z ++ y) node.hops = first)
    (within : ∀ hop found, first = .some (hop, found) → found.length ≤ z.length) :
    graph.firstHop? Group.run entered (z ++ y') node.hops = first := by
  have solid (hop : Hop Group) (mem' : hop ∈ node.hops) := (crisp.groups node mem hop mem').solid
  rw [← taken] at within ⊢
  exact OpGrammar.firstHop?_steady some breaks solid steady within

/-- Where the text breaks off behind what a walk finds, it finds the same. A group that reads on
behind the break would be part of what is found, as it leads to a value. -/
theorem Graph.Crisp.walk_steady (crisp : graph.Crisp readable)
    (steady : ∀ node ∈ graph, ∀ hop ∈ node.hops, hop.group.Steady readable)
    (breaks : Breaks readable y') (entered : List Nat) (id : Nat) (z : Text)
    (within : ∀ found, graph.walk Group.run entered id (z ++ y) = some found →
      found.length ≤ z.length) :
    graph.walk Group.run entered id (z ++ y') = graph.walk Group.run entered id (z ++ y) := by
  refine walk_induction (motive := fun entered id text result => ∀ z, text = z ++ y →
    (∀ found, result = some found → found.length ≤ z.length) →
      graph.walk Group.run entered id (z ++ y') = result) ?_ ?_ ?_ ?_ entered id (z ++ y) z rfl
    within
  · intro entered id text missing z _ _
    exact walk_of_missing missing
  · intro entered id text node next present edge ih z eq within
    cases z with
    | nil =>
      rw [List.nil_append, crisp.walk_of_breaks breaks present]
      cases further : graph.walk Group.run [next] next text.tail with
      | none => rfl
      | some found =>
        have bound := within _ (by rw [further]; rfl)
        simp [Found.after] at bound
    | cons c z =>
      obtain rfl := eq
      have edge' : (c :: z ++ y').head?.bind node.edge? = some next := edge
      have same := ih z rfl fun found further => by
        have bound := within _ (by rw [further]; rfl)
        simp only [Found.after, List.length_cons] at bound
        omega
      rw [walk_of_edge present edge', ← same]
      rfl
  · intro entered id text node hop found present edge taken ih z eq within
    obtain rfl := eq
    have mem := Array.mem_of_getElem? present
    obtain ⟨mem', ran, -⟩ := of_firstHop? taken
    have pos := (crisp.groups node mem hop mem').solid.run_pos _ found ran
    have bound : found.length ≤ z.length := by
      obtain ⟨later, further⟩ := crisp.exists_of_hop mem mem' (enter entered hop found)
        ((z ++ y).drop found.length)
      exact Nat.le_of_add_right_le (within _ (by rw [further]; rfl))
    have some : z ≠ [] := List.ne_nil_of_length_pos (by omega)
    have edge' : (z ++ y').head?.bind node.edge? = none := by
      rwa [List.head?_append_of_ne_nil _ some] at edge ⊢
    have taken' := crisp.firstHop?_steady mem (steady node mem) breaks some taken
      fun hop' found' same => by
        cases same
        exact bound
    have same := ih (z.drop found.length) (List.drop_append_of_le_length bound)
      fun later further => by
        have bound := within _ (by rw [further]; rfl)
        simp only [Found.after, List.length_drop] at bound ⊢
        omega
    rw [walk_of_hop present edge' taken', List.drop_append_of_le_length bound, same]
  · intro entered id text node present edge stop z eq within
    obtain rfl := eq
    have mem := Array.mem_of_getElem? present
    cases z with
    | nil => exact crisp.walk_of_breaks breaks present entered
    | cons c z =>
      have edge' : (c :: z ++ y').head?.bind node.edge? = none := edge
      have stop' := crisp.firstHop?_steady mem (steady node mem) breaks (List.cons_ne_nil c z) stop
        fun hop found same => by cases same
      exact walk_of_stop present edge' stop'

theorem Group.Crisp.steady {group : Group} (crisp : group.Crisp readable) :
    group.Steady readable := by
  induction crisp with
  | @intro group some edges ends groups ih =>
    intro z y y' breaks within
    rw [Group.run_eq, Group.run_eq] at *
    have crisp : group.graph.Crisp readable := ⟨edges, ends, groups⟩
    exact crisp.walk_steady ih breaks [0] 0 z within

end Break

/-! ## Matches -/

namespace Lexicon

variable {ν : Type} {lexicon : Lexicon ν} {readable : Char → Bool} {text : Text} {m : Match ν}

theorem reads_of_crisp (crisp : lexicon.graph.Crisp readable)
    (matched : lexicon.longest? text = some m) : ∀ c ∈ m.text, readable c := by
  obtain ⟨found, walked, rfl⟩ := Option.map_eq_some_iff.1 matched
  exact (crisp.reads [0] 0 text found walked).2

theorem longest?_steady (crisp : lexicon.graph.Crisp readable) {z y y' : Text}
    (breaks : Breaks readable y') (matched : lexicon.longest? (z ++ y) = some m)
    (within : m.text.length ≤ z.length) :
    ∃ m', lexicon.longest? (z ++ y') = some m' ∧ m'.text = m.text ∧ m'.value = m.value := by
  obtain ⟨found, walked, rfl⟩ := Option.map_eq_some_iff.1 matched
  obtain ⟨inside, -⟩ := crisp.reads [0] 0 (z ++ y) found walked
  have bound : found.length ≤ z.length := by
    rwa [Found.toMatch, List.length_take, Nat.min_eq_left inside] at within
  have same := crisp.walk_steady (fun node mem hop mem' => (crisp.groups node mem hop mem').steady)
    breaks [0] 0 z fun found' walked' => by
      cases walked.symm.trans walked'
      exact bound
  refine ⟨found.toMatch (z ++ y'), ?_, ?_, rfl⟩
  · rw [longest?, same, walked]
    rfl
  · simp [Found.toMatch, List.take_append_of_le_length bound]

end Lexicon

/-! ## Tokens -/

/-- The second text has the words of the first one, in their order, and more white space around
them. The white space that is there stays, but there may be more of it anywhere. -/
inductive Respaced : List Text → Text → Text → Prop
  | last {gap gap' : Text} (blank' : ∀ c ∈ gap', isBlank c) (more : gap.Sublist gap') :
    Respaced [] gap gap'
  | word {gap gap' word rest rest' : Text} {words : List Text} (blank' : ∀ c ∈ gap', isBlank c)
    (more : gap.Sublist gap') (others : Respaced words rest rest') :
    Respaced (word :: words) (gap ++ (word ++ rest)) (gap' ++ (word ++ rest'))

theorem Respaced.exists_break {words : List Text} {s s' : Text} (h : Respaced words s s') :
    ∃ z y y', s = z ++ y ∧ s' = z ++ y' ∧ ∀ c ∈ y'.head?, isBlank c := by
  induction h with
  | @last gap gap' blank' more =>
    exact ⟨[], gap, gap', rfl, rfl, fun c mem => blank' c (List.mem_of_mem_head? mem)⟩
  | @word gap gap' word rest rest' words blank' more _ ih =>
    cases gap' with
    | nil =>
      obtain rfl := List.sublist_nil.1 more
      obtain ⟨z, y, y', rfl, rfl, breaks⟩ := ih
      exact ⟨word ++ z, y, y', by simp, by simp, breaks⟩
    | cons c gap' =>
      refine ⟨[], _, _, rfl, rfl, fun d mem => ?_⟩
      obtain rfl : c = d := by simpa using mem
      exact blank' c List.mem_cons_self

namespace Grammar

variable {O : Type} {grammar : Grammar O} {readable : Char → Bool}

/-- No tokens are skipped like white space. -/
def IgnoresNothing (grammar : Grammar O) : Prop := ∀ id, grammar.role? id ≠ some (.aside .ignored)

/-- The token of a match, with its place left out. -/
def tokenOf (grammar : Grammar O) (found : Match Nat) : Token :=
  ⟨found.value, found.text, 0, 0, ((grammar.role? found.value).map Role.power).getD 0⟩

theorem nextToken_of_match (serious : grammar.IgnoresNothing) {text solid : Text}
    {found : Match Nat} (left : text.dropWhile isBlank = solid) (some : solid ≠ [])
    (matched : grammar.lexicon.longest? solid = .some found) (place : Nat) :
    ∃ token, grammar.nextToken place text = .token token (solid.drop found.text.length) ∧
      token.unplaced = grammar.tokenOf found := by
  obtain ⟨c, rest, rfl⟩ := List.exists_cons_of_ne_nil some
  rw [nextToken_eq]
  simp only [left, matched]
  split
  · rename_i ignored
    exact absurd ignored (serious _)
  · exact ⟨_, rfl, rfl⟩

theorem match_of_nextToken (serious : grammar.IgnoresNothing) {place : Nat} {text after : Text}
    {token : Token} (next : grammar.nextToken place text = .token token after) :
    ∃ found, text.dropWhile isBlank ≠ [] ∧
      grammar.lexicon.longest? (text.dropWhile isBlank) = some found ∧
      after = (text.dropWhile isBlank).drop found.text.length ∧
      token.unplaced = grammar.tokenOf found := by
  cases left : text.dropWhile isBlank with
  | nil =>
    rw [nextToken_eq, left] at next
    cases next
  | cons c rest =>
    cases matched : grammar.lexicon.longest? (c :: rest) with
    | none =>
      rw [nextToken_eq] at next
      simp only [left, matched] at next
      cases next
    | some found =>
      obtain ⟨token', next', same⟩ :=
        nextToken_of_match serious left (List.cons_ne_nil c rest) matched place
      obtain ⟨rfl, rfl⟩ := NextToken.token.inj (next.symm.trans next')
      exact ⟨found, List.cons_ne_nil c rest, rfl, rfl, same⟩

theorem found_of_word (serious : grammar.IgnoresNothing) {place : Nat} {gap word rest after : Text}
    {token : Token} (blank : ∀ c ∈ gap, isBlank c) (some : word ≠ [])
    (next : grammar.nextToken place (gap ++ (word ++ rest)) = .token token after)
    (text : token.text = word) :
    after = rest ∧ (∀ rest', (word ++ rest').dropWhile isBlank = word ++ rest') ∧
      ∃ found, grammar.lexicon.longest? (word ++ rest) = .some found ∧ found.text = word ∧
        token.unplaced = grammar.tokenOf found := by
  obtain ⟨found, -, matched, rfl, same⟩ := match_of_nextToken serious next
  have text' : found.text = word := (congrArg Token.text same).symm.trans text
  rw [List.dropWhile_append_of_pos blank] at matched ⊢
  obtain ⟨c, word', rfl⟩ := List.exists_cons_of_ne_nil some
  have solid : isBlank c = false := by
    obtain ⟨more, whole⟩ : found.text <+: (c :: word' ++ rest).dropWhile isBlank := by
      obtain ⟨found', -, rfl⟩ := Option.map_eq_some_iff.1 matched
      exact List.take_prefix _ _
    rw [text'] at whole
    exact not_isBlank_of_dropWhile whole.symm
  have stays (rest' : Text) : (c :: word' ++ rest').dropWhile isBlank = c :: word' ++ rest' := by
    simp [solid]
  rw [stays] at matched ⊢
  exact ⟨by rw [text', List.drop_left], stays, found, matched, text', same⟩

theorem nextToken_steady (serious : grammar.IgnoresNothing)
    (crisp : grammar.lexicon.graph.Crisp readable) {gap gap' word z y y' after : Text}
    {token : Token} {place : Nat} (blank : ∀ c ∈ gap, isBlank c) (blank' : ∀ c ∈ gap', isBlank c)
    (breaks : Breaks readable y') (some : word ≠ [])
    (next : grammar.nextToken place (gap ++ (word ++ (z ++ y))) = .token token after)
    (text : token.text = word) (place' : Nat) :
    after = z ++ y ∧ ∃ token', token'.unplaced = token.unplaced ∧
      grammar.nextToken place' (gap' ++ (word ++ (z ++ y'))) = .token token' (z ++ y') := by
  obtain ⟨rfl, stays, found, matched, word', same⟩ := found_of_word serious blank some next text
  rw [← List.append_assoc] at matched
  obtain ⟨found', matched', text', value'⟩ :=
    Lexicon.longest?_steady crisp breaks matched (by simp [word'])
  rw [List.append_assoc] at matched'
  have left : (gap' ++ (word ++ (z ++ y'))).dropWhile isBlank = word ++ (z ++ y') := by
    rw [List.dropWhile_append_of_pos blank', stays]
  obtain ⟨token', next', same'⟩ := nextToken_of_match serious left
    (List.append_ne_nil_of_left_ne_nil some _) matched' place'
  rw [text', word', List.drop_left] at next'
  refine ⟨rfl, token', ?_, next'⟩
  rw [same, same', tokenOf, tokenOf, text', value']

theorem scanFrom_of_blank (grammar : Grammar O) {text : Text} (blank : ∀ c ∈ text, isBlank c)
    (place : Nat) : ∃ last, grammar.scanFrom place text = ⟨[], .finished last⟩ := by
  have left : text.dropWhile isBlank = [] := List.dropWhile_eq_nil_iff.2 blank
  have next : grammar.nextToken place text =
      .ending (.finished (place + Text.byteSize (text.takeWhile isBlank))) := by
    rw [nextToken_eq]
    simp only [left]
  exact ⟨_, by rw [scanFrom_eq, next]⟩

theorem scanFrom_cons {place last : Nat} {text : Text} {token : Token} {tokens : List Token} :
    grammar.scanFrom place text = ⟨token :: tokens, .finished last⟩ ↔ token.text ≠ [] ∧
      ∃ rest, grammar.nextToken place text = .token token rest ∧
        grammar.scanFrom token.stop rest = ⟨tokens, .finished last⟩ := by
  rw [scanFrom_eq]
  cases next : grammar.nextToken place text with
  | ending ending => simp
  | token found rest =>
    by_cases empty : found.text = []
    · simp only [empty, if_true]
      constructor
      · intro eq
        cases eq
      · rintro ⟨some, _, next', -⟩
        obtain ⟨rfl, -⟩ := NextToken.token.inj next'
        exact absurd empty some
    · simp only [empty, if_false]
      constructor
      · intro eq
        obtain ⟨tokens', last'⟩ := Scan.mk.inj eq
        obtain ⟨rfl, rfl⟩ := List.cons.inj tokens'
        exact ⟨empty, rest, rfl, by rw [← last']⟩
      · rintro ⟨-, rest', next', scanned⟩
        obtain ⟨rfl, rfl⟩ := NextToken.token.inj next'
        rw [scanned]

theorem scanFrom_respaced (serious : grammar.IgnoresNothing)
    (crisp : grammar.lexicon.graph.Crisp readable) (solid : ∀ c, isBlank c → readable c = false)
    {words : List Text} {s s' : Text} (respaced : Respaced words s s') {tokens : List Token}
    {place last : Nat} (scanned : grammar.scanFrom place s = ⟨tokens, .finished last⟩)
    (texts : tokens.map Token.text = words) (place' : Nat) :
    ∃ tokens' last', grammar.scanFrom place' s' = ⟨tokens', .finished last'⟩ ∧
      tokens'.map Token.unplaced = tokens.map Token.unplaced := by
  induction respaced generalizing tokens place place' with
  | last blank' more =>
    obtain rfl := List.map_eq_nil_iff.1 texts
    obtain ⟨last', scanned'⟩ := grammar.scanFrom_of_blank blank' place'
    exact ⟨[], last', scanned', rfl⟩
  | @word gap gap' word rest rest' words blank' more others ih =>
    obtain ⟨token, tokens, rfl, text, texts⟩ := List.map_eq_cons_iff.1 texts
    obtain ⟨some, after, next, scannedRest⟩ := scanFrom_cons.1 scanned
    have blank (c : Char) (mem : c ∈ gap) : isBlank c := blank' c (more.subset mem)
    obtain ⟨z, y, y', rfl, rfl, breaks⟩ := others.exists_break
    obtain ⟨rfl, token', same, next'⟩ := nextToken_steady serious crisp blank blank'
      (fun c mem => solid c (breaks c mem)) (text ▸ some) next text place'
    obtain ⟨tokens', last', scanned', others'⟩ := ih scannedRest texts token'.stop
    have word' : token'.text ≠ [] := by
      have same' : token'.unplaced.text = token.unplaced.text := congrArg Token.text same
      exact fun none => some (same'.symm.trans none)
    refine ⟨token' :: tokens', last', scanFrom_cons.2 ⟨word', _, next', scanned'⟩, ?_⟩
    rw [List.map_cons, List.map_cons, same, others']

theorem tokens_respaced (serious : grammar.IgnoresNothing)
    (crisp : grammar.lexicon.graph.Crisp readable) (solid : ∀ c, isBlank c → readable c = false)
    {s s' : Text} {tokens : List Token} (divided : grammar.tokens s = .ok tokens)
    (respaced : Respaced (tokens.map Token.text) s s') :
    ∃ tokens', grammar.tokens s' = .ok tokens' ∧
      tokens'.map Token.unplaced = tokens.map Token.unplaced := by
  obtain ⟨last, scanned⟩ := scan_of_tokens s tokens divided
  obtain ⟨tokens', last', scanned', same⟩ :=
    scanFrom_respaced serious crisp solid respaced scanned rfl 0
  exact ⟨tokens', tokens_of_scan s' tokens' last' scanned', same⟩

theorem parseAll_of_unplaced {s s' : Text} {tokens tokens' : List Token}
    (divided : grammar.tokens s = .ok tokens) (divided' : grammar.tokens s' = .ok tokens')
    (same : tokens'.map Token.unplaced = tokens.map Token.unplaced) :
    (grammar.parseAll s').value? = (grammar.parseAll s).value? := by
  rw [parseAll_value divided, parseAll_value divided', grammar.values_of_unplaced same]

end Grammar

end OpGrammar
