import OpGrammar.Proofs.Rounds
import OpGrammar.Proofs.Faults
import OpGrammar.Proofs.Stores

/-!
# Executions that check

`search` goes through a store and counts places in bytes. It makes sure of every number of a node,
of every place of a value, and that a text is only cut between its characters. No check ever fails:
what comes out is what the lexicon finds.
-/

namespace OpGrammar

variable {ν : Type}

/-! ## Parts of a text -/

namespace Text

/-- The text from a byte place on, if this is a place between characters. -/
def dropBytes? : Text → Nat → Option Text
  | text, 0 => some text
  | [], _ + 1 => none
  | c :: rest, n + 1 => if c.utf8Size ≤ n + 1 then dropBytes? rest (n + 1 - c.utf8Size) else none

/-- So many bytes of the text, if this is a number of whole characters. -/
def takeBytes? : Text → Nat → Option Text
  | _, 0 => some []
  | [], _ + 1 => none
  | c :: rest, n + 1 =>
    if c.utf8Size ≤ n + 1 then (takeBytes? rest (n + 1 - c.utf8Size)).map (c :: ·) else none

def slice? (text : Text) (start stop : Nat) : Option Text :=
  if start ≤ stop then (text.dropBytes? start).bind (·.takeBytes? (stop - start)) else none

theorem dropBytes?_byteSize (before rest : Text) :
    dropBytes? (before ++ rest) (byteSize before) = some rest := by
  induction before with
  | nil => cases rest <;> rfl
  | cons c before ih =>
    have pos := Char.utf8Size_pos c
    obtain ⟨n, size⟩ : ∃ n, byteSize (c :: before) = n + 1 :=
      Nat.exists_eq_add_one_of_ne_zero (by simp; omega)
    have left : n + 1 - c.utf8Size = byteSize before := by simp at size; omega
    rw [size, List.cons_append, dropBytes?, left, if_pos (by simp at size; omega), ih]

theorem takeBytes?_byteSize (part rest : Text) :
    takeBytes? (part ++ rest) (byteSize part) = some part := by
  induction part with
  | nil => cases rest <;> rfl
  | cons c part ih =>
    have pos := Char.utf8Size_pos c
    obtain ⟨n, size⟩ : ∃ n, byteSize (c :: part) = n + 1 :=
      Nat.exists_eq_add_one_of_ne_zero (by simp; omega)
    have left : n + 1 - c.utf8Size = byteSize part := by simp at size; omega
    rw [size, List.cons_append, takeBytes?, left, if_pos (by simp at size; omega), ih]
    rfl

theorem dropBytes?_eq_some_iff {text rest : Text} {place : Nat} :
    text.dropBytes? place = some rest ↔ text.At place rest := by
  constructor
  · intro drops
    fun_induction dropBytes? text place with
    | case1 text =>
      cases drops
      exact ⟨[], rfl, rfl⟩
    | case2 => cases drops
    | case3 c text n fits ih =>
      obtain ⟨before, rfl, size⟩ := ih drops
      exact ⟨c :: before, rfl, by simp; omega⟩
    | case4 => cases drops
  · rintro ⟨before, rfl, rfl⟩
    exact dropBytes?_byteSize before rest

theorem takeBytes?_eq_some_iff {text part : Text} {n : Nat} :
    text.takeBytes? n = some part ↔ ∃ after, text = part ++ after ∧ n = byteSize part := by
  constructor
  · intro takes
    fun_induction takeBytes? text n generalizing part with
    | case1 text =>
      cases takes
      exact ⟨text, rfl, rfl⟩
    | case2 => cases takes
    | case3 c text n fits ih =>
      obtain ⟨part, more, rfl⟩ := Option.map_eq_some_iff.1 takes
      obtain ⟨after, rfl, size⟩ := ih more
      exact ⟨after, rfl, by simp; omega⟩
    | case4 => cases takes
  · rintro ⟨after, rfl, rfl⟩
    exact takeBytes?_byteSize part after

theorem slice?_eq_some_iff {text part : Text} {start stop : Nat} :
    text.slice? start stop = some part ↔ ∃ before after, text = before ++ part ++ after ∧
      start = byteSize before ∧ stop = byteSize (before ++ part) := by
  unfold slice?
  constructor
  · intro slices
    split at slices
    · obtain ⟨rest, drops, takes⟩ := Option.bind_eq_some_iff.1 slices
      obtain ⟨before, rfl, rfl⟩ := dropBytes?_eq_some_iff.1 drops
      obtain ⟨after, rfl, size⟩ := takeBytes?_eq_some_iff.1 takes
      exact ⟨before, after, by simp, rfl, by simp; omega⟩
    · cases slices
  · rintro ⟨before, after, rfl, rfl, rfl⟩
    rw [if_pos (by simp), List.append_assoc, dropBytes?_byteSize, byteSize_append,
      Nat.add_sub_cancel_left]
    exact takeBytes?_byteSize part after

end Text

/-! ## Checked executions -/

/-- What an execution stops at, if a check fails. -/
inductive Fault where
  /-- Too many rounds. -/
  | limit
  /-- There is no node with this number. -/
  | node (id : Nat)
  /-- There is no value in this place. -/
  | value (place : Nat)
  /-- The text has no such part. -/
  | slice (start stop : Nat)
  deriving DecidableEq, Repr

def orFault {α : Type} (fault : Fault) : Option α → Except Fault α
  | some a => .ok a
  | none => .error fault

@[simp] theorem orFault_some {α : Type} (fault : Fault) (a : α) :
    orFault fault (some a) = .ok a := rfl

/-- The last value that was passed: where, in which place it is, and after how many captures. -/
structure Passed where
  stop : Nat
  value : Nat
  count : Nat

structure Cursor where
  id : Nat
  place : Nat
  captures : List Span
  last : Option Passed
  /-- The nodes entered at this place by way of groups that read nothing. -/
  stalled : List Nat

def Cursor.start : Cursor := ⟨0, 0, [], none, []⟩

/-- The last value, with the captures up to there. -/
def Passed.found (captures : List Span) (passed : Passed) : Found Nat :=
  ⟨passed.stop, passed.value, captures.take passed.count⟩

/-- What is passed last when the execution enters this node. -/
def Cursor.pass (cursor : Cursor) (value : Option Nat) : Option Passed :=
  match value with
  | some value => some ⟨cursor.place, value, cursor.captures.length⟩
  | none => cursor.last

/-- The cursor at the next node, so many bytes and some captures further. -/
def Cursor.advance (cursor : Cursor) (value : Option Nat) (next length : Nat)
    (captures : List Span) (stalled : List Nat) : Cursor :=
  ⟨next, cursor.place + length, cursor.captures ++ captures.map (·.shift cursor.place),
    cursor.pass value, stalled⟩

namespace Graph

/-- Executes the graph on a text. Here a length, a start and a stop are numbers of bytes. -/
def search : (limit : Nat) → Graph Group Nat → Text → Cursor → Except Fault (Option (Found Nat))
  | 0, _, _, _ => .error .limit
  | limit + 1, graph, text, cursor => do
    let node ← orFault (.node cursor.id) graph[cursor.id]?
    let rest ← orFault (.slice cursor.place text.byteSize) (text.dropBytes? cursor.place)
    match rest.head?.bind node.edge? with
    | some next =>
      search limit graph text
        (cursor.advance node.value next (Text.byteSize (rest.take 1)) [] [])
    | none =>
      let stalled := cursor.id :: cursor.stalled
      let taken ← node.hops.findSomeM? fun hop => do
        let found ← search limit hop.group.store.nodes rest .start
        return hop.offer stalled (found.map (.mapValue fun _ => ()))
      match taken with
      | none => return (cursor.pass node.value).map (·.found cursor.captures)
      | some (hop, found) =>
        search limit graph text (cursor.advance node.value hop.next found.length
          (hop.spans found) (if found.length = 0 then stalled else []))

end Graph

def Span.cut (text : Text) (span : Span) : Except Fault Capture := do
  let part ← orFault (.slice span.start span.stop) (text.slice? span.start span.stop)
  return ⟨span.label, part, span.start, span.stop⟩

/-- The longest start of a text that an execution of the store finds. -/
def Store.longest (limit : Nat) (store : Store ν) (text : Text) :
    Except Fault (Option (Match ν)) := do
  match ← store.nodes.search limit text .start with
  | none => return none
  | some found =>
    let captures ← found.spans.mapM (·.cut text)
    let part ← orFault (.slice 0 found.length) (text.slice? 0 found.length)
    let value ← orFault (.value found.value) store.values[found.value]?
    return some ⟨part, value, captures⟩

/-! ## Places in bytes -/

def Span.inBytes (text : Text) (span : Span) : Span :=
  ⟨span.label, Text.byteSize (text.take span.start), Text.byteSize (text.take span.stop)⟩

/-- What was found, with all places counted in bytes. -/
def Found.inBytes (text : Text) (found : Found ν) : Found ν :=
  ⟨Text.byteSize (text.take found.length), found.value, found.spans.map (·.inBytes text)⟩

theorem byteSize_take_add (text : Text) (n m : Nat) :
    Text.byteSize (text.take (n + m)) =
      Text.byteSize (text.take n) + Text.byteSize ((text.drop n).take m) := by
  rw [List.take_add, Text.byteSize_append]

theorem Span.inBytes_shift (text : Text) (n : Nat) (span : Span) :
    (span.shift n).inBytes text =
      (span.inBytes (text.drop n)).shift (Text.byteSize (text.take n)) := by
  simp only [inBytes, shift, byteSize_take_add]

theorem Found.inBytes_after (text : Text) (n : Nat) (spans : List Span) (found : Found ν) :
    (found.after n spans).inBytes text =
      (found.inBytes (text.drop n)).after (Text.byteSize (text.take n))
        (spans.map (·.inBytes text)) := by
  simp only [inBytes, after, byteSize_take_add, List.map_append, List.map_map]
  refine congrArg (Found.mk _ _) (congrArg (_ ++ ·) (List.map_congr_left fun span _ => ?_))
  exact span.inBytes_shift text n

theorem Hop.spans_inBytes {γ : Type} (hop : Hop γ) (text : Text) (found : Found Unit) :
    hop.spans (found.inBytes text) = (hop.spans found).map (·.inBytes text) := by
  unfold spans
  cases hop.label with
  | none => rfl
  | some label => simp [Found.inBytes, Span.inBytes]

theorem Found.inBytes_length_eq_zero {text : Text} {found : Found ν} (fits : found.Fits text) :
    (found.inBytes text).length = 0 ↔ found.length = 0 := by
  have inside := fits.length
  unfold inBytes
  constructor
  · intro empty
    cases text with
    | nil => simpa using inside
    | cons c text =>
      have pos := Char.utf8Size_pos c
      by_contra some
      obtain ⟨n, eq⟩ := Nat.exists_eq_add_one_of_ne_zero some
      simp [eq] at empty
      omega
  · intro none
    simp [none]

theorem Hop.offer_inBytes (hop : Hop Group) (stalled : List Nat) (text : Text) :
    hop.offer stalled ((hop.group.run text).map (.inBytes text)) =
      (hop.offer stalled (hop.group.run text)).map fun taken => (taken.1, taken.2.inBytes text) := by
  cases ran : hop.group.run text with
  | none => rfl
  | some found =>
    have same := Found.inBytes_length_eq_zero (hop.group.run_fits text found ran)
    simp only [offer, Option.map_some, Option.bind_some, same]
    split <;> rfl

theorem findSome?_offer_inBytes (hops : List (Hop Group)) (stalled : List Nat) (text : Text) :
    (hops.findSome? fun hop => hop.offer stalled ((hop.group.run text).map (.inBytes text))) =
      (hops.findSome? fun hop => hop.offer stalled (hop.group.run text)).map
        fun taken => (taken.1, taken.2.inBytes text) := by
  induction hops with
  | nil => rfl
  | cons hop hops ih =>
    rw [List.findSome?_cons, List.findSome?_cons, Hop.offer_inBytes, ih]
    cases hop.offer stalled (hop.group.run text) <;> rfl

/-! ## No check fails -/

/-- What an execution gives that is here and goes on like the walk. -/
def Cursor.outcome (cursor : Cursor) (rest : Text) (walked : Option (Found Nat)) :
    Option (Found Nat) :=
  (walked.map fun found => (found.inBytes rest).after cursor.place cursor.captures).or
    (cursor.last.map (·.found cursor.captures))

/-- The last value was passed no later than here. -/
def Cursor.Orderly (cursor : Cursor) : Prop :=
  ∀ passed ∈ cursor.last, passed.count ≤ cursor.captures.length

theorem Found.after_after (found : Found ν) (m n : Nat) (spans more : List Span) :
    (found.after m more).after n spans =
      found.after (n + m) (spans ++ more.map (·.shift n)) := by
  simp [after, Span.shift, Nat.add_assoc]

section Cursor

variable {cursor : Cursor} {rest : Text}

theorem Cursor.Orderly.advance (orderly : cursor.Orderly) (value : Option Nat) (next length : Nat)
    (captures : List Span) (stalled : List Nat) :
    (cursor.advance value next length captures stalled).Orderly := by
  intro passed mem
  have count : passed.count ≤ cursor.captures.length := by
    cases value with
    | none => exact orderly passed mem
    | some v =>
      obtain rfl := Option.some.inj mem
      exact Nat.le_refl _
  simp only [Cursor.advance, List.length_append]
  omega

theorem Cursor.outcome_stop (value : Option Nat) :
    (cursor.pass value).map (·.found cursor.captures) =
      cursor.outcome rest (value.map .here) := by
  cases value with
  | none => rfl
  | some v => simp [pass, outcome, Passed.found, Found.here, Found.inBytes, Found.after]

theorem Cursor.outcome_advance (orderly : cursor.Orderly) (value : Option Nat) (next n : Nat)
    (spans : List Span) (stalled : List Nat) (walked : Option (Found Nat)) :
    (cursor.advance value next (Text.byteSize (rest.take n)) (spans.map (·.inBytes rest))
        stalled).outcome (rest.drop n) walked =
      cursor.outcome rest ((walked.map (.after n spans)).or (value.map .here)) := by
  cases walked with
  | some found =>
    simp only [outcome, advance, Option.map_some, Option.some_or, Found.inBytes_after,
      Found.after_after]
  | none =>
    have before : ∀ passed : Passed, passed.count ≤ cursor.captures.length → ∀ more : List Span,
        passed.found (cursor.captures ++ more) = passed.found cursor.captures := by
      intro passed count more
      simp only [Passed.found, List.take_append_of_le_length count]
    rw [Option.map_none, Option.none_or, ← outcome_stop]
    simp only [outcome, advance, Option.map_none, Option.none_or]
    refine Option.map_congr fun passed mem => before passed ?_ _
    exact (orderly.advance value next 0 [] []) passed mem |>.trans (by simp [advance])

end Cursor

namespace Graph

/-- From some limit on, the execution passes all checks, with this result. -/
def Searches (graph : Graph Group Nat) (text : Text) (cursor : Cursor)
    (result : Option (Found Nat)) : Prop :=
  ∃ limit, ∀ more ≥ limit, graph.search more text cursor = .ok result

end Graph

/-- Executions of the store of the group find what the group does. -/
def Group.Follows (group : Group) : Prop :=
  ∀ text, group.store.nodes.Searches text .start
    ((group.run text).map fun found => (found.mapValue fun _ => 0).inBytes text)

theorem Text.At.drop {text rest : Text} {place : Nat} (here : text.At place rest) (n : Nat) :
    text.At (place + Text.byteSize (rest.take n)) (rest.drop n) := by
  rw [← List.take_append_drop n rest] at here
  exact here.append

namespace Graph

theorem searches_of_next {graph : Graph Group Nat} {text : Text} {cursor : Cursor}
    {result : Option (Found Nat)} (limit : Nat)
    (next : ∀ more ≥ limit, graph.search (more + 1) text cursor = .ok result) :
    graph.Searches text cursor result := by
  refine ⟨limit + 1, fun more enough => ?_⟩
  obtain ⟨more, rfl⟩ := Nat.exists_eq_add_one_of_ne_zero (n := more) (by omega)
  exact next more (by omega)

section Round

variable {graph : Graph Group Nat} {text rest : Text} {cursor : Cursor} {node : Node Group Nat}
  {result : Option (Found Nat)}

theorem Searches.edge (present : graph[cursor.id]? = some node)
    (here : text.At cursor.place rest) {next : Nat}
    (edge : rest.head?.bind node.edge? = some next)
    (searches : graph.Searches text
      (cursor.advance node.value next (Text.byteSize (rest.take 1)) [] []) result) :
    graph.Searches text cursor result := by
  obtain ⟨limit, ended⟩ := searches
  refine searches_of_next limit fun more enough => ?_
  unfold search
  rw [present, Text.dropBytes?_eq_some_iff.2 here]
  simp only [orFault_some, bind, Except.bind, edge]
  exact ended more enough

theorem exists_limit_search (follows : ∀ hop ∈ node.hops, hop.group.Follows) (stalled : List Nat)
    (rest : Text) :
    ∃ limit, ∀ more ≥ limit, (node.hops.findSomeM? fun hop => do
        let found ← search more hop.group.store.nodes rest .start
        return hop.offer stalled (found.map (.mapValue fun _ => ()))) =
      (.ok ((node.hops.findSome? fun hop => hop.offer stalled (hop.group.run rest)).map
        fun taken => (taken.1, taken.2.inBytes rest)) : Except Fault _) := by
  rw [← findSome?_offer_inBytes]
  refine exists_limit_findSomeM? (m := Except Fault) fun hop mem => ?_
  obtain ⟨limit, ended⟩ := follows hop mem rest
  refine ⟨limit, fun more enough => ?_⟩
  rw [ended more enough]
  cases hop.group.run rest <;> rfl

theorem Searches.hop (present : graph[cursor.id]? = some node)
    (here : text.At cursor.place rest) (edge : rest.head?.bind node.edge? = none)
    (follows : ∀ hop ∈ node.hops, hop.group.Follows) {hop : Hop Group} {found : Found Unit}
    (taken : node.hops.findSome? (fun hop =>
      hop.offer (cursor.id :: cursor.stalled) (hop.group.run rest)) = some (hop, found))
    (searches : graph.Searches text
      (cursor.advance node.value hop.next (Text.byteSize (rest.take found.length))
        ((hop.spans found).map (·.inBytes rest))
        (if (found.inBytes rest).length = 0 then cursor.id :: cursor.stalled else [])) result) :
    graph.Searches text cursor result := by
  rw [← Hop.spans_inBytes] at searches
  obtain ⟨limit, ended⟩ := searches
  obtain ⟨limit', hops⟩ := exists_limit_search follows (cursor.id :: cursor.stalled) rest
  refine searches_of_next (max limit limit') fun more enough => ?_
  have ended := ended more (by omega)
  have hops := hops more (by omega)
  rw [taken] at hops
  unfold search
  rw [present, Text.dropBytes?_eq_some_iff.2 here]
  simp only [orFault_some, bind, Except.bind, edge] at hops ⊢
  rw [hops]
  exact ended

theorem Searches.stop (present : graph[cursor.id]? = some node)
    (here : text.At cursor.place rest) (edge : rest.head?.bind node.edge? = none)
    (follows : ∀ hop ∈ node.hops, hop.group.Follows)
    (stop : node.hops.findSome? (fun hop =>
      hop.offer (cursor.id :: cursor.stalled) (hop.group.run rest)) = none) :
    graph.Searches text cursor ((cursor.pass node.value).map (·.found cursor.captures)) := by
  obtain ⟨limit, hops⟩ := exists_limit_search follows (cursor.id :: cursor.stalled) rest
  refine searches_of_next limit fun more enough => ?_
  have hops := hops more enough
  rw [stop] at hops
  unfold search
  rw [present, Text.dropBytes?_eq_some_iff.2 here]
  simp only [orFault_some, bind, Except.bind, edge] at hops ⊢
  rw [hops]
  rfl

end Round

/-- The execution follows the walk from wherever it is. -/
theorem exists_searches {graph : Graph Group Nat} (proper : graph.Proper)
    (follows : ∀ (id : Nat) (node : Node Group Nat) hop, graph[id]? = some node →
      hop ∈ node.hops → hop.group.Follows)
    (text rest : Text) (cursor : Cursor) (inside : cursor.id < graph.size)
    (here : text.At cursor.place rest) (orderly : cursor.Orderly) :
    graph.Searches text cursor (cursor.outcome rest
      (graph.walk Group.run (cursor.id :: cursor.stalled) cursor.id rest)) := by
  have along := @walk_induction Group Nat Group.run graph
    fun entered id rest walked => ∀ cursor : Cursor, cursor.id = id →
      entered = cursor.id :: cursor.stalled → cursor.id < graph.size → text.At cursor.place rest →
      cursor.Orderly → graph.Searches text cursor (cursor.outcome rest walked)
  refine along ?_ ?_ ?_ ?_ (cursor.id :: cursor.stalled) cursor.id rest cursor rfl rfl inside here
    orderly
  · rintro entered _ rest missing cursor rfl - inside
    exact absurd inside (by simpa using missing)
  · rintro entered _ rest node next present edge ih cursor rfl - inside here orderly
    obtain ⟨c, tail, item, rfl, -, -⟩ := exists_edge_of_head edge
    have next_inside := (proper.edge _ node c next present (by simpa using edge)).2
    have later := ih (cursor.advance node.value next _ [] []) rfl rfl next_inside (here.drop 1)
      (orderly.advance _ _ _ _ _)
    rw [← Cursor.outcome_advance orderly node.value next 1 [] []]
    exact .edge present here edge later
  · rintro entered _ rest node hop found present edge taken ih cursor rfl rfl inside here orderly
    have inside : ∀ hop ∈ node.hops, hop.next < graph.size :=
      fun hop mem => (proper.hop _ node hop present mem).2
    obtain ⟨among, ran, -⟩ := of_firstHop? taken
    have same := Found.inBytes_length_eq_zero (hop.group.run_fits rest found ran)
    rw [firstHop?_eq_offer inside] at taken
    let stalled := if (found.inBytes rest).length = 0 then cursor.id :: cursor.stalled else []
    have enters : enter (cursor.id :: cursor.stalled) hop found = hop.next :: stalled := by
      simp only [enter, stalled, same]
      split <;> rfl
    have later := ih (cursor.advance node.value hop.next _ ((hop.spans found).map (·.inBytes rest))
      stalled) rfl enters (inside hop among) (here.drop found.length) (orderly.advance _ _ _ _ _)
    rw [← Cursor.outcome_advance orderly node.value hop.next found.length (hop.spans found) stalled]
    exact .hop present here edge (follows _ node · present) taken later
  · rintro entered _ rest node present edge stop cursor rfl rfl inside here orderly
    rw [firstHop?_eq_offer fun hop mem => (proper.hop _ node hop present mem).2] at stop
    rw [← Cursor.outcome_stop]
    exact .stop present here edge (follows _ node · present) stop

theorem orderly_start : Cursor.start.Orderly := nofun

theorem outcome_start (text : Text) (walked : Option (Found Nat)) :
    Cursor.start.outcome text walked = walked.map (.inBytes text) := by
  cases walked with
  | none => rfl
  | some found => simp [Cursor.outcome, Cursor.start, Found.after, Span.shift]

theorem searches_start {graph : Graph Group Nat} (proper : graph.Proper)
    (follows : ∀ (id : Nat) (node : Node Group Nat) hop, graph[id]? = some node →
      hop ∈ node.hops → hop.group.Follows) (text : Text) :
    graph.Searches text .start ((graph.walk Group.run [0] 0 text).map (.inBytes text)) := by
  rw [← outcome_start]
  exact exists_searches proper follows text text .start proper.nonempty ⟨[], rfl, rfl⟩
    orderly_start

end Graph

theorem Group.Proper.follows {group : Group} (proper : group.Proper) : group.Follows := by
  induction proper with
  | intro group proper inner ih =>
    intro text
    have searches := Graph.searches_start ((Graph.proper_mapValue fun _ => 0).2 proper)
      (fun id node hop present mem => by
        rw [Graph.getElem?_mapValue] at present
        obtain ⟨node, before, rfl⟩ := Option.map_eq_some_iff.1 present
        exact ih id node hop before mem) text
    rwa [Graph.walk_mapValue, ← Group.run_eq, Option.map_map] at searches

/-! ## Matches -/

theorem mapM_eq_ok {α β : Type} {row : List α} {f : α → Except Fault β} {g : α → β}
    (each : ∀ a ∈ row, f a = .ok (g a)) : row.mapM f = .ok (row.map g) := by
  induction row with
  | nil => rfl
  | cons a row ih =>
    rw [List.mapM_cons, each a List.mem_cons_self, ih fun a mem => each a (.tail _ mem)]
    rfl

theorem Span.cut_inBytes {text : Text} {span : Span} (ordered : span.start ≤ span.stop) :
    (span.inBytes text).cut text = .ok (span.capture text) := by
  have part := Text.slice?_eq_some_iff.2 (span.capture_marks ordered text)
  have part : text.slice? (span.inBytes text).start (span.inBytes text).stop =
      some (span.capture text).text := part
  rw [cut, part]
  rfl

theorem Store.Reads.walk {store : Store ν} {graph : Graph Group ν} (reads : store.Reads graph)
    (text : Text) :
    (store.nodes.walk Group.run [0] 0 text).map (Found.mapValue (store.values[·]?)) =
      (graph.walk Group.run [0] 0 text).map (Found.mapValue some) := by
  rw [← Graph.walk_mapValue, ← Graph.walk_mapValue, reads]

theorem Store.Reads.longest {store : Store ν} {graph : Graph Group ν} (reads : store.Reads graph)
    (proper : graph.Proper) (groups : graph.ProperInside) (text : Text) :
    ∃ limit, ∀ more ≥ limit, store.longest more text =
      .ok ((graph.walk Group.run [0] 0 text).map (·.toMatch text)) := by
  have follows (id : Nat) (node : Node Group Nat) (hop : Hop Group)
      (present : store.nodes[id]? = some node) (mem : hop ∈ node.hops) :
      hop.group.Follows := by
    rcases reads.node_cases id with ⟨absent, -⟩ | ⟨node', twin, there, there', stands⟩
    · rw [absent] at present
      cases present
    · obtain rfl := Option.some.inj (present.symm.trans there)
      exact (groups id twin hop there' (stands.hops ▸ mem)).follows
  obtain ⟨limit, ended⟩ := Graph.searches_start (reads.proper proper) follows text
  refine ⟨limit, fun more enough => ?_⟩
  have same := reads.walk text
  have fits : ∀ found ∈ store.nodes.walk Group.run [0] 0 text, found.Fits text :=
    Graph.walk_fits (fun node _ hop _ => hop.group.run_fits) [0] 0 text
  rw [Store.longest, ended more enough]
  cases walked : store.nodes.walk Group.run [0] 0 text with
  | none =>
    rw [walked] at same
    rw [Option.map_eq_none_iff.1 same.symm]
    rfl
  | some found =>
    rw [walked] at same
    obtain ⟨found', walked', eq⟩ := Option.map_eq_some_iff.1 same.symm
    obtain ⟨length, value, spans⟩ := Found.mk.inj eq
    have nested := (fits found walked).spans
    have captures : (found.inBytes text).spans.mapM (·.cut text) =
        .ok (found.spans.map (·.capture text)) := by
      rw [Found.inBytes, List.mapM_map]
      exact mapM_eq_ok fun span mem => Span.cut_inBytes (nested.within span mem).1
    have part : text.slice? 0 (found.inBytes text).length = some (text.take found.length) :=
      Text.slice?_eq_some_iff.2 ⟨[], text.drop found.length, by simp, rfl, rfl⟩
    have known : store.values[(found.inBytes text).value]? = some found'.value := value.symm
    rw [walked']
    simp only [Option.map_some, bind, Except.bind, captures, part, known, orFault_some]
    simp only [Found.toMatch, ← length, ← spans]
    rfl

namespace Lexicon

/-- The nodes of every graph lead to nodes that are there, and to values that are kept; no group is
inside itself. So an execution passes every check, and what comes out is what the lexicon finds. -/
theorem searches_sound (entries : List (Entry ν)) :
    ((storeOf entries).Sound ∧ (storeOf entries).Reads (ofEntries entries).graph) ∧
    (∀ group, (ofEntries entries).Holds group →
      (∃ branches, group = .ofBranches group.id branches ∧
        group.store = Store.empty.addPattern branches ()) ∧
      group.store.Sound ∧ group.store.Reads group.graph ∧
      ∀ inner, Relation.TransGen Group.Nests inner group → inner.id ≠ group.id) ∧
    (∀ input, ∃ limit, ∀ more ≥ limit,
      (storeOf entries).longest more input = .ok ((ofEntries entries).longest? input)) ∧
    ∀ group, (ofEntries entries).Holds group → ∀ text, ∃ limit, ∀ more ≥ limit,
      group.store.longest more text = .ok ((group.run text).map (·.toMatch text)) := by
  have reads := storeOf_reads entries
  have proper := ofEntries_proper entries
  refine ⟨⟨reads.sound proper, reads⟩, fun group holds => ?_,
    reads.longest proper (ofEntries_proper_groups entries).1, fun group holds text => ?_⟩
  · obtain ⟨branches, built⟩ := (ofEntries_identifies entries).built group holds
    refine ⟨⟨branches, built, ?_⟩, ?_, group.store_reads, fun inner => holds.id_ne_of_nests⟩
    · rw [built, Group.store_ofBranches]
    · cases holds.proper with
      | intro _ proper _ => exact group.store_reads.sound proper
  · rw [Group.run_eq]
    cases holds.proper with
    | intro _ proper inner => exact group.store_reads.longest proper inner text

/-- The checks can fail: here a value is missing, and a text is cut inside of a character. -/
example : (⟨#[⟨[], [], some 0⟩], #[]⟩ : Store Nat).longest 1 ['a'] = .error (.value 0) ∧
    Text.slice? ['é', 'a'] 1 3 = none := by
  exact ⟨rfl, rfl⟩

end Lexicon

end OpGrammar
