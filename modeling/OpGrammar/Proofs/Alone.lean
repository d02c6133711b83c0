import OpGrammar.Proofs.Boundaries
import OpGrammar.Proofs.Captures
import OpGrammar.Proofs.Places

/-!
# Matches on their own

A walk through an input comes to the end of its match by characters and groups of the match. So it
makes the same steps where the input ends there, if the groups read as much as before. They need not:
behind the end of the match a group may have tried edges in vain, and where the input ends it tries
groups that read nothing instead.
-/

open StateTransition

namespace OpGrammar

/-- Unless the group reads beyond the first text, it reads just as much where that is all. -/
def Group.StandsAlone (group : Group) (text more : Text) : Prop :=
  (∀ found ∈ group.run (text ++ more), found.length ≤ text.length) →
    (group.run text).map Found.length = (group.run (text ++ more)).map Found.length

namespace Group.StandsAlone

variable {group : Group} {text more : Text}

theorem of_none (alone : group.StandsAlone text more) (ran : group.run (text ++ more) = none) :
    group.run text = none := by
  have same := alone (by simp [ran])
  simpa [ran] using same

theorem of_some (alone : group.StandsAlone text more) {found : Found Unit}
    (ran : group.run (text ++ more) = some found) (inside : found.length ≤ text.length) :
    ∃ found', group.run text = some found' ∧ found'.length = found.length := by
  have same := alone (by simpa [ran] using inside)
  simpa [ran] using same

end Group.StandsAlone

def Place.ahead (place : Place) (more : Text) : Place := { place with rest := place.rest ++ more }

def Place.ended (place : Place) : Place := { place with rest := [] }

theorem Place.ahead_injective {place place' : Place} {more : Text}
    (same : place.ahead more = place'.ahead more) : place = place' := by
  obtain ⟨entered, id, rest⟩ := place
  obtain ⟨entered', id', rest'⟩ := place'
  simpa [Place.ahead] using same

namespace Graph

variable {ν : Type} {graph : Graph Group ν} {entered : List Nat} {text more : Text}

/-! ## One step -/

theorem advances_alone {hop : Hop Group} {found found' : Found Unit}
    (same : found'.length = found.length) (inside : found.length ≤ text.length) :
    graph.Advances entered text hop found' ↔ graph.Advances entered (text ++ more) hop found := by
  by_cases empty : found.length = 0
  · simp only [Advances, same, empty, if_true]
  · have some : text ≠ [] := List.ne_nil_of_length_pos (by omega)
    simp [Advances, same, empty, some]

theorem firstHop?_cons (hop : Hop Group) (hops : List (Hop Group)) :
    graph.firstHop? Group.run entered text (hop :: hops) =
      ((hop.group.run text).bind fun found =>
        if graph.Advances entered text hop found then some (hop, found) else none).or
      (graph.firstHop? Group.run entered text hops) := by
  rw [firstHop?, firstHop?, List.findSome?_cons]
  split
  · rename_i taken
    rw [taken, Option.some_or]
  · rename_i failed
    rw [failed, Option.none_or]

theorem length_of_not_advances {hop : Hop Group} {found : Found Unit}
    (ran : hop.group.run text = some found) (stays : ¬graph.Advances entered text hop found) :
    found.length = 0 := by
  by_contra reads
  have inside := (hop.group.run_fits text found ran).length
  rw [Advances, if_neg reads, not_not] at stays
  rw [stays, List.length_nil] at inside
  omega

variable (graph entered text) in
/-- The hops that are tried at a place: in their order, up to the first that gets the walk on. -/
def tried : List (Hop Group) → List (Hop Group)
  | [] => []
  | hop :: hops =>
    hop :: if (hop.group.run text).any (graph.Advances entered text hop ·) then [] else tried hops

theorem mem_of_tried {hop : Hop Group} {hops : List (Hop Group)}
    (mem : hop ∈ graph.tried entered text hops) : hop ∈ hops := by
  induction hops with
  | nil => cases mem
  | cons first hops ih =>
    rw [tried, List.mem_cons] at mem
    rcases mem with rfl | mem
    · exact List.mem_cons_self
    · split at mem
      · cases mem
      · exact .tail _ (ih mem)

/-- A group that gets the walk on within the text does so where that is all of it. The groups before
it have failed, or have read nothing and led nowhere, and do so again. -/
theorem firstHop?_alone {hops : List (Hop Group)} {hop : Hop Group} {found : Found Unit}
    (alone : ∀ hop ∈ graph.tried entered (text ++ more) hops, hop.group.StandsAlone text more)
    (taken : graph.firstHop? Group.run entered (text ++ more) hops = some (hop, found))
    (inside : found.length ≤ text.length) :
    ∃ found', graph.firstHop? Group.run entered text hops = some (hop, found') ∧
      found'.length = found.length := by
  induction hops with
  | nil => cases taken
  | cons first hops ih =>
    rw [tried, List.forall_mem_cons] at alone
    rw [firstHop?_cons] at taken
    simp only [firstHop?_cons]
    cases ran : first.group.run (text ++ more) with
    | none =>
      have failed : first.group.run text = none := alone.1.of_none ran
      rw [ran] at taken alone
      rw [failed]
      exact ih alone.2 taken
    | some read =>
      rw [ran, Option.bind_some] at taken
      by_cases advances : graph.Advances entered (text ++ more) first read
      · rw [if_pos advances, Option.some_or] at taken
        obtain ⟨rfl, rfl⟩ := Prod.mk.inj (Option.some.inj taken)
        obtain ⟨read', ran', same⟩ := alone.1.of_some ran inside
        rw [ran', Option.bind_some, if_pos ((advances_alone same inside).2 advances)]
        exact ⟨read', rfl, same⟩
      · have empty := length_of_not_advances ran advances
        rw [if_neg advances, Option.none_or] at taken
        obtain ⟨read', ran', same⟩ := alone.1.of_some ran (by omega)
        have stays := mt (advances_alone same (by omega)).1 advances
        have others := alone.2
        rw [ran, Option.any_some, decide_eq_false advances] at others
        rw [ran', Option.bind_some, if_neg stays]
        exact ih others taken

variable {place place' last : Place}

/-- If a walk tries groups here where more comes behind, those that it tries stand alone. -/
def Settled (graph : Graph Group ν) (more : Text) (place : Place) : Prop :=
  graph.edgeAt? (place.ahead more) = none →
    ∀ node, graph[place.id]? = some node →
      ∀ hop ∈ graph.tried place.entered (place.rest ++ more) node.hops,
        hop.group.StandsAlone place.rest more

theorem ne_nil_of_edgeAt? {next : Nat} (edge : graph.edgeAt? place = some next) :
    place.rest ≠ [] := by
  obtain ⟨node, -, leads⟩ := Option.bind_eq_some_iff.1 edge
  intro empty
  rw [empty] at leads
  cases leads

theorem fits_of_hopAt? {hop : Hop Group} {found : Found Unit}
    (taken : graph.hopAt? Group.run place = some (hop, found)) :
    found.length ≤ place.rest.length := by
  obtain ⟨node, -, first⟩ := Option.bind_eq_some_iff.1 taken
  obtain ⟨-, ran, -⟩ := of_firstHop? first
  exact (hop.group.run_fits place.rest found ran).length

theorem edgeAt?_ahead (some : place.rest ≠ []) :
    graph.edgeAt? (place.ahead more) = graph.edgeAt? place := by
  simp only [edgeAt?, Place.ahead, List.head?_append_of_ne_nil _ some]

theorem edgeAt?_of_ahead (edge : graph.edgeAt? (place.ahead more) = none) :
    graph.edgeAt? place = none := by
  by_cases some : place.rest = []
  · simp [edgeAt?, some]
  · rwa [edgeAt?_ahead some] at edge

theorem hopAt?_alone (settled : graph.Settled more place)
    (edge : graph.edgeAt? (place.ahead more) = none) {hop : Hop Group} {found : Found Unit}
    (taken : graph.hopAt? Group.run (place.ahead more) = some (hop, found))
    (inside : found.length ≤ place.rest.length) :
    ∃ found', graph.hopAt? Group.run place = some (hop, found') ∧
      found'.length = found.length := by
  obtain ⟨node, present, first⟩ := Option.bind_eq_some_iff.1 taken
  obtain ⟨found', taken', same⟩ := firstHop?_alone (settled edge node present) first inside
  exact ⟨found', Option.bind_eq_some_iff.2 ⟨node, present, taken'⟩, same⟩

theorem next?_alone (settled : graph.Settled more place)
    (step : graph.next? Group.run (place.ahead more) = some place')
    (left : more <:+ place'.rest) :
    ∃ next, graph.next? Group.run place = some next ∧ place' = next.ahead more := by
  have bound := left.length_le
  rcases next?_cases step with ⟨next, edge, rfl⟩ | ⟨hop, found, edge, taken, rfl⟩
  · have some : place.rest ≠ [] := by
      intro empty
      have reads := List.length_pos_iff.2 (ne_nil_of_edgeAt? edge)
      simp only [Place.ahead, empty, List.nil_append, List.length_tail] at bound reads
      omega
    rw [edgeAt?_ahead some] at edge
    refine ⟨_, next?_of_edge edge, ?_⟩
    rw [Place.ahead, Place.ahead, List.tail_append_of_ne_nil some]
  · have inside : found.length ≤ place.rest.length := by
      have fits := fits_of_hopAt? taken
      simp only [Place.ahead, List.length_drop, List.length_append] at bound fits
      omega
    obtain ⟨found', taken', same⟩ := hopAt?_alone settled edge taken inside
    refine ⟨_, next?_of_hop (edgeAt?_of_ahead edge) taken', ?_⟩
    simp only [Place.ahead, enter, same, List.drop_append_of_le_length inside]

/-! ## All steps -/

/-- Wherever a walk tries groups on its way to the end of a text with more behind, these stand
alone. -/
def SettledTo (graph : Graph Group ν) (more : Text) (place last : Place) : Prop :=
  ∀ place', Reaches (graph.next? Group.run) (place.ahead more) (place'.ahead more) →
    Reaches₁ (graph.next? Group.run) (place'.ahead more) (last.ahead more) →
      graph.Settled more place'

theorem SettledTo.reaches (settled : graph.SettledTo more place last)
    (comes : Reaches (graph.next? Group.run) (place.ahead more) (last.ahead more)) :
    Reaches (graph.next? Group.run) place last := by
  generalize same : place.ahead more = first at comes
  induction comes using Relation.ReflTransGen.head_induction_on generalizing place with
  | refl =>
    rw [Place.ahead_injective same]
    exact .refl
  | head step rest ih =>
    subst same
    have left := (List.suffix_append last.rest more).trans (rest_of_reaches rest)
    obtain ⟨next, step', rfl⟩ := next?_alone (settled _ .refl (.head' step rest)) step left
    exact .head step' (ih (fun place' comes => settled place' (.head step comes)) rfl)

theorem SettledTo.exists_last (settled : graph.SettledTo more place last) (empty : last.rest = [])
    (ends : graph.Last Group.run (place.ahead more) (last.ahead more)) :
    ∃ last', graph.Last Group.run place last' ∧ last'.rest = [] ∧
      Reaches (graph.next? Group.run) last last' := by
  have comes := settled.reaches ends.comes
  have valued : (graph.valueAt? last).isSome := ends.valued
  obtain ⟨found, walked⟩ := Option.isSome_iff_exists.1 (walkAt_isSome comes valued)
  obtain ⟨last', ends', -, -⟩ := last_of_walkAt place found walked
  have later := ends'.of_reaches comes valued
  exact ⟨last', ends', List.suffix_nil.1 (empty ▸ rest_of_reaches later), later⟩

end Graph

theorem Group.standsAlone_of_crisp {group : Group} (crisp : group.graph.Crisp fun _ => true)
    (text more : Text) : group.StandsAlone text more := by
  intro inside
  have steady (node) (mem : node ∈ group.graph) (hop) (mem' : hop ∈ node.hops) :=
    (crisp.groups node mem hop mem').steady
  have breaks : Breaks (fun _ => true) [] := fun _ none => nomatch none
  rw [run_eq, run_eq] at *
  have same := crisp.walk_steady steady breaks [0] 0 text inside
  rw [List.append_nil] at same
  rw [same]

/-- Where no group reads in vain inside of another one, walks are settled wherever they go. -/
theorem Graph.settledTo_of_crisp {ν : Type} {graph : Graph Group ν}
    (crisp : ∀ node ∈ graph, ∀ hop ∈ node.hops, hop.group.graph.Crisp fun _ => true) (more : Text)
    (place last : Place) : graph.SettledTo more place last := by
  intro place' _ _ _ node present hop mem
  have group := crisp node (Array.mem_of_getElem? present) hop (Graph.mem_of_tried mem)
  exact Group.standsAlone_of_crisp group _ _

namespace Lexicon

variable {ν : Type}

/-- A match is found again where its text is all, if each group that the walk tries on its way there
stands alone. The value is the same unless groups that read nothing lead from the end of the match to
another one. -/
theorem match_alone (lexicon : Lexicon ν) (input : Text) (m : Match ν)
    (matched : lexicon.longest? input = some m)
    (settled : ∀ last, lexicon.graph.Last Group.run (.start input) last →
      lexicon.graph.SettledTo last.rest (.start m.text) last.ended) :
    ∃ m', lexicon.longest? m.text = some m' ∧ m'.text = m.text ∧
      (m'.value = m.value ∨ ∃ last later, lexicon.graph.Last Group.run (.start input) last ∧
        Reaches₁ (lexicon.graph.next? Group.run) last.ended later ∧
        lexicon.graph.valueAt? later = some m'.value) := by
  obtain ⟨last, ends, known, split⟩ := longest?_last matched
  have whole : Place.start input = (Place.start m.text).ahead last.rest := by
    rw [Place.ahead, Place.start, Place.start, split]
  have ends' : lexicon.graph.Last Group.run ((Place.start m.text).ahead last.rest)
      (last.ended.ahead last.rest) := whole ▸ ends
  obtain ⟨last', ends', empty, later⟩ := (settled last ends).exists_last rfl ends'
  obtain ⟨v, known'⟩ := Option.isSome_iff_exists.1 ends'.valued
  obtain ⟨m', matched', rfl, split'⟩ := longest?_of_last ends' known'
  rw [empty, List.append_nil] at split'
  refine ⟨m', matched', split', ?_⟩
  rcases Relation.reflTransGen_iff_eq_or_transGen.1 later with same | after
  · have known'' : lexicon.graph.valueAt? last.ended = some m.value := known
    rw [← same, known'] at known''
    exact .inl (Option.some.inj known'')
  · exact .inr ⟨last, last', ends, after, known'⟩

/-- The walk reads the `e` in vain, after the group for the digits behind the comma. -/
theorem match_alone_number :
    let lexicon : Lexicon Nat := ofEntries
      [.pattern "[0-9]+(,[0-9]+)?".toList 1, .pattern "[0-9]+(,[0-9]+)?e[0-9]".toList 2]
    let m : Match Nat := ⟨"1,5".toList, 1, []⟩
    lexicon.longest? "1,5ex".toList = some m ∧
      ∃ m', lexicon.longest? m.text = some m' ∧ m'.text = m.text := by
  intro lexicon m
  have matched : lexicon.longest? "1,5ex".toList = some m := by decide +kernel
  have test : lexicon.graph.toList.all (fun node => node.hops.all fun hop =>
      hop.group.graph.crisp fun _ => true) = true := by decide +kernel
  have crisp (node) (mem : node ∈ lexicon.graph) (hop) (mem' : hop ∈ node.hops) :
      hop.group.graph.Crisp fun _ => true := by
    have groups := List.all_eq_true.1 test node (by simpa using mem)
    exact Graph.crisp_sound (List.all_eq_true.1 groups hop mem')
  obtain ⟨m', found, same, -⟩ :=
    match_alone lexicon _ m matched fun _ _ => Graph.settledTo_of_crisp crisp _ _ _
  exact ⟨matched, m', found, same⟩

/-- What follows a match can decide which value it has, and whether it is found at all. Behind the
`a` a group that reads nothing is only tried where no `b` follows, and the inner group takes the `q`
alone where no `s` follows. -/
theorem match_not_alone :
    (¬∀ (entries : List (Entry Nat)) (input : Text) (m : Match Nat),
      (ofEntries entries).longest? input = some m → ∃ m',
        (ofEntries entries).longest? m.text = some m' ∧ m'.text = m.text ∧ m'.value = m.value) ∧
    (∃ (entries : List (Entry Nat)) (input : Text) (m m' : Match Nat),
      (ofEntries entries).longest? input = some m ∧
        (ofEntries entries).longest? m.text = some m' ∧ m'.text = m.text ∧ m'.value ≠ m.value) ∧
    ∃ (entries : List (Entry Nat)) (input : Text) (m : Match Nat),
      (ofEntries entries).longest? input = some m ∧
        (ofEntries entries).longest? m.text = none := by
  have matched : (ofEntries [.pattern "(p|p(q|qrs)r)qr".toList 4]).longest? "pqrsz".toList =
      some ⟨"pqr".toList, 4, []⟩ := by decide +kernel
  have lost : (ofEntries [.pattern "(p|p(q|qrs)r)qr".toList 4]).longest? "pqr".toList = none := by
    decide +kernel
  refine ⟨fun all => ?_, ?_, ⟨_, _, _, matched, lost⟩⟩
  · obtain ⟨m', found, -⟩ := all _ _ _ matched
    rw [lost] at found
    cases found
  · exact ⟨[.pattern ['a'] 1, .pattern "a(x?)".toList 2, .pattern "abc".toList 3], "ab".toList,
      ⟨['a'], 1, []⟩, ⟨['a'], 2, []⟩, by decide +kernel, by decide +kernel, rfl, by decide⟩

end Lexicon

end OpGrammar
