import OpGrammar.Lexicon.Basic

/-!
# What leads to a value

All texts that lead to a value are looked through, from the first node on. Where ways lead round and
round, they are followed up to a value that all further ways lead to: from there on it is settled
which value is found, if not how much is read.
-/

namespace OpGrammar

namespace Graph

variable {γ ν : Type}

/-- Whether there is a value at the node for which the outcome is settled. -/
def settledAt (settled : ν → Bool) (graph : Graph γ ν) (id : Nat) : Bool :=
  (graph[id]?.bind Node.value).any settled

/-- All ways on from a settled node lead to settled nodes. -/
def Settles (settled : ν → Bool) (graph : Graph γ ν) : Prop :=
  ∀ node ∈ graph, node.value.any settled → (∀ link ∈ node.edges, graph.settledAt settled link.2) ∧
    ∀ hop ∈ node.hops, graph.settledAt settled hop.next

instance (settled : ν → Bool) (graph : Graph γ ν) : Decidable (graph.Settles settled) := by
  unfold Settles
  infer_instance

theorem settles_nothing (graph : Graph γ ν) : graph.Settles fun _ => false := by
  intro node _ valued
  cases value : node.value <;> simp [value] at valued

theorem Settles.walk {settled : ν → Bool} {graph : Graph γ ν} (settles : graph.Settles settled)
    {run : γ → Text → Option (Found Unit)} (entered : List Nat) (id : Nat) (text : Text)
    (found : Found ν) (here : graph.settledAt settled id)
    (walked : graph.walk run entered id text = some found) : settled found.value := by
  have valued {id : Nat} {node : Node γ ν} (present : graph[id]? = some node)
      (here : graph.settledAt settled id) : node.value.any settled := by
    simpa [settledAt, present] using here
  have last {value : Option ν} {found : Found ν} (valued : value.any settled)
      (h : value.map Found.here = some found) : settled found.value := by
    obtain ⟨v, rfl, rfl⟩ := Option.map_eq_some_iff.1 h
    exact valued
  refine walk_induction (motive := fun _ id _ result => graph.settledAt settled id → ∀ found,
    result = some found → settled found.value) ?_ ?_ ?_ ?_ entered id text here found walked
  · intro entered id text _ _ found h
    cases h
  · intro entered id text node next present edge ih here found h
    have here := valued present here
    obtain ⟨c, rest, item, -, mem, -⟩ := exists_edge_of_head edge
    rcases Option.or_eq_some_iff.1 h with h | ⟨-, h⟩
    · obtain ⟨later, walked, rfl⟩ := Option.map_eq_some_iff.1 h
      exact ih ((settles node (Array.mem_of_getElem? present) here).1 _ mem) later walked
    · exact last here h
  · intro entered id text node hop first present _ taken ih here found h
    have here := valued present here
    rcases Option.or_eq_some_iff.1 h with h | ⟨-, h⟩
    · obtain ⟨later, walked, rfl⟩ := Option.map_eq_some_iff.1 h
      have mem := (of_firstHop? taken).1
      exact ih ((settles node (Array.mem_of_getElem? present) here).2 _ mem) later walked
    · exact last here h
  · intro entered id text node present _ _ here found h
    exact last (valued present here) h

/-- Whether a word with its value, for every text that may lead from a node to a value, passes the
test `word`; for the ways to a settled node, the text up to there has to pass the test `start`. -/
def passes : (fuel : Nat) → {ν : Type} → (settled : ν → Bool) → (start : Text → Bool) →
    (word : Text → ν → Bool) → Graph Group ν → (id : Nat) → (read : Text) → Bool
  | 0, _, _, _, _, _, _, _ => false
  | fuel + 1, _, settled, start, word, graph, id, read =>
    match graph[id]? with
    | none => true
    | some node =>
      if node.value.any settled then start read
      else
        node.value.all (word read) &&
        node.edges.all (fun link => link.1.chars.all fun c =>
          passes fuel settled start word graph link.2 (read ++ [c])) &&
        -- A group is left with what was read in it, wherever it may end.
        node.hops.all fun hop =>
          passes fuel (fun _ => false) (fun _ => false)
            (fun more _ => passes fuel settled start word graph hop.next (read ++ more))
            hop.group.graph 0 []

theorem passes_sound (fuel : Nat) {ν : Type} {settled : ν → Bool} {start : Text → Bool}
    {word : Text → ν → Bool} {graph : Graph Group ν} (settles : graph.Settles settled)
    {id : Nat} {read : Text} (test : passes fuel settled start word graph id read)
    {entered : List Nat} {text : Text} {found : Found ν}
    (walked : graph.walk Group.run entered id text = some found) :
    word (read ++ text.take found.length) found.value ∨
      settled found.value ∧ ∃ first, first <+: read ++ text.take found.length ∧ start first := by
  induction fuel generalizing ν start word id read entered text with
  | zero => cases test
  | succ fuel ih =>
    rw [passes] at test
    cases present : graph[id]? with
    | none => cases (walk_of_missing present).symm.trans walked
    | some node =>
      simp only [present] at test
      split at test
      · rename_i here
        have here : graph.settledAt settled id := by simpa [settledAt, present] using here
        have last := settles.walk entered id text found here walked
        exact .inr ⟨last, read, List.prefix_append _ _, test⟩
      simp only [Bool.and_eq_true, List.all_eq_true] at test
      obtain ⟨⟨value, edges⟩, hops⟩ := test
      have last (h : node.value.map Found.here = some found) :
          word (read ++ text.take found.length) found.value := by
        obtain ⟨v, ends, rfl⟩ := Option.map_eq_some_iff.1 h
        simpa [ends, Found.here] using value
      cases edge : text.head?.bind node.edge? with
      | some next =>
        rw [walk_of_edge present edge] at walked
        rcases Option.or_eq_some_iff.1 walked with h | ⟨-, h⟩
        · obtain ⟨later, walked', rfl⟩ := Option.map_eq_some_iff.1 h
          obtain ⟨c, rest, item, rfl, mem, contains⟩ := exists_edge_of_head edge
          have more := ih settles (edges _ mem c (ClassItem.mem_chars.2 contains)) walked'
          simpa [Found.after, Nat.add_comm 1] using more
        · exact .inl (last h)
      | none =>
        cases taken : graph.firstHop? Group.run entered text node.hops with
        | some first =>
          obtain ⟨hop, first⟩ := first
          rw [walk_of_hop present edge taken] at walked
          rcases Option.or_eq_some_iff.1 walked with h | ⟨-, h⟩
          · obtain ⟨later, walked', rfl⟩ := Option.map_eq_some_iff.1 h
            obtain ⟨mem, ran, -⟩ := of_firstHop? taken
            rw [Group.run_eq] at ran
            have left := ih (settles_nothing _) (hops hop mem) ran
            simp only [Bool.false_eq_true, false_and, or_false, List.nil_append] at left
            have more := ih settles left walked'
            simpa [Found.after, List.take_add] using more
          · exact .inl (last h)
        | none =>
          rw [walk_of_stop present edge taken] at walked
          exact .inl (last walked)

end Graph

end OpGrammar
