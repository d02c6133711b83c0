import OpGrammar.Proofs.FirstCome
import OpGrammar.Proofs.Notation
import OpGrammar.Proofs.Values

/-!
# An alternation and its sides

Nothing that is added to a graph depends on the values in it, and which of some nodes get a value is
settled by the nodes alone. So the branches of an alternation may be added in two goes, each with
its own ends marked.
-/

namespace OpGrammar

variable {ν : Type}

/-! ## The text of an alternation -/

theorem UnionText.append {inGroup : Bool} {s t : Text} {first second : Pattern}
    (left : UnionText inGroup s first) (right : UnionText inGroup t second) :
    UnionText inGroup (s ++ '|' :: t) (first ++ second) := by
  induction first generalizing s with
  | nil => cases left
  | cons branch branches ih =>
    cases left with
    | last pieces => exact .more pieces right
    | more pieces others => simpa using UnionText.more pieces (ih others)

theorem read_append {s t : Text} {first second : Pattern} (left : Pattern.read s = .ok first)
    (right : Pattern.read t = .ok second) :
    Pattern.read (s ++ '|' :: t) = .ok (first ++ second) :=
  read_eq_ok_iff.2 ((read_eq_ok_iff.1 left).append (read_eq_ok_iff.1 right))

theorem freshBranches_append {meanings : Meanings} {first second : Pattern}
    {links links' : Branches Link} (left : freshBranches meanings first = some links)
    (right : freshBranches meanings second = some links') :
    freshBranches meanings (first ++ second) = some (links ++ links') := by
  rw [freshBranches_eq_some] at left right ⊢
  exact List.rel_append left right

/-! ## Values aside -/

namespace Node

theorem addValue_addValue (node : Node Group ν) (v : ν) :
    (node.addValue v).addValue v = node.addValue v := by
  unfold addValue
  cases node.value <;> rfl

end Node

namespace Graph

variable {graph : Graph Group ν} {ends : List Nat} {v : ν}

theorem addValue_eq_revalue : graph.addValue ends v =
    graph.revalue fun id value => if id ∈ ends then value.or (some v) else value := by
  refine Array.ext_getElem? fun id => ?_
  rw [addValue_getElem?, getElem?_revalue]
  refine congrArg (Option.map · graph[id]?) (funext fun node => ?_)
  unfold Node.revalue
  split
  · obtain ⟨edges, hops, value⟩ := node
    cases value <;> rfl
  · rfl

theorem addValue_addBranches (inside : ∀ id ∈ ends, id < graph.size) (frontier : List Nat)
    (branches : Branches Link) :
    (graph.addValue ends v).addBranches frontier branches =
      ((graph.addBranches frontier branches).1.addValue ends v,
        (graph.addBranches frontier branches).2) := by
  simp only [addValue_eq_revalue]
  refine addBranches_revalue (fun id above => ?_) frontier branches
  exact if_neg fun mem => Nat.not_lt.2 above (inside id mem)

/-! ## Two goes -/

theorem addValue_addValue (first second all : List Nat) (v : ν)
    (both : ∀ id, id ∈ all ↔ id ∈ first ∨ id ∈ second) :
    (graph.addValue first v).addValue second v = graph.addValue all v := by
  refine Array.ext_getElem? fun id => ?_
  simp only [addValue_getElem?, Option.map_map, both]
  refine congrArg (Option.map · graph[id]?) (funext fun node => ?_)
  by_cases mem : id ∈ first <;> by_cases mem' : id ∈ second <;>
    simp [mem, mem', Node.addValue_addValue]

theorem addBranches_append (graph : Graph Group ν) (frontier : List Nat)
    (first second : Branches Link) :
    (graph.addBranches frontier (first ++ second)).1 =
        ((graph.addBranches frontier first).1.addBranches frontier second).1 ∧
      ∀ id, id ∈ (graph.addBranches frontier (first ++ second)).2 ↔
        id ∈ (graph.addBranches frontier first).2 ∨
          id ∈ ((graph.addBranches frontier first).1.addBranches frontier second).2 := by
  induction first generalizing graph with
  | nil => simp [addBranches]
  | cons branch first ih =>
    obtain ⟨same, ends⟩ := ih (graph.addBranch frontier branch).1
    refine ⟨same, fun id => ?_⟩
    simp only [List.cons_append, addBranches, mem_joinNodes, ends, or_assoc]

theorem addPattern_append (proper : graph.Proper) (first second : Branches Link) (v : ν) :
    graph.addPattern (first ++ second) v = (graph.addPattern first v).addPattern second v := by
  obtain ⟨same, ends⟩ := addBranches_append graph [0] first second
  have later := addValue_addBranches (v := v) (addBranches_inside proper first) [0] second
  simp only [addPattern, same, later]
  exact (addValue_addValue _ _ _ v ends).symm

end Graph

/-! ## Patterns -/

namespace Lexicon

/-- An alternation finds what its two sides find as patterns of their own with its value, whatever
patterns there are before. -/
theorem alternation_as_two (entries : List (Entry ν)) (p q : Text) (v : ν) (input : Text)
    (first : (ofEntries entries).Accepts (.pattern p v))
    (second : (ofEntries (entries ++ [.pattern p v])).Accepts (.pattern q v))
    (joined : (ofEntries entries).Accepts (.pattern (p ++ '|' :: q) v)) :
    (ofEntries (entries ++ [.pattern (p ++ '|' :: q) v])).longest? input =
      (ofEntries (entries ++ [.pattern p v, .pattern q v])).longest? input := by
  obtain ⟨pattern, -, -, read, -⟩ := extend_of_accepts _ p v first
  obtain ⟨pattern', -, -, read', -⟩ := extend_of_accepts _ q v second
  have coherent := ofEntries_coherent entries
  obtain ⟨links, groups, fresh, current, eq⟩ := extend_of_read coherent first read
  have between := ofEntries_concat entries (.pattern p v)
  rw [eq] at between
  -- The second side is linked with the meanings that there were before the first.
  rw [between] at second
  obtain ⟨links', _, fresh', -, eq'⟩ := extend_of_read current second read'
  obtain ⟨links'', _, fresh'', -, eq''⟩ := extend_of_read coherent joined (read_append read read')
  obtain rfl : links'' = links ++ links' :=
    Option.some.inj (fresh''.symm.trans (freshBranches_append fresh fresh'))
  have both : ofEntries (entries ++ [.pattern p v, .pattern q v]) =
      (ofEntries (entries ++ [.pattern p v])).extend (.pattern q v) := by
    rw [← ofEntries_concat, List.append_assoc, List.singleton_append]
  rw [longest?, longest?, both, between, ofEntries_concat, eq', eq'',
    Graph.addPattern_append (ofEntries_proper entries)]

theorem alternation_as_two_shared :
    let entries : List (Entry Nat) :=
      [.meaning ['N'] "[0-9]+".toList, .pattern "x(ab)*y".toList 7]
    let p : Text := "x(ab)+(c|\x7bn:N\x7d)?".toList
    let q : Text := "x(ab)*y?|[xz]\x7bn:N\x7d!".toList
    (ofEntries entries).Accepts (.pattern (p ++ '|' :: q) 1) ∧
      ∀ input, (ofEntries (entries ++ [.pattern (p ++ '|' :: q) 1])).longest? input =
        (ofEntries (entries ++ [.pattern p 1, .pattern q 1])).longest? input := by
  intro entries p q
  have joined : (ofEntries entries).Accepts (.pattern (p ++ '|' :: q) 1) := by decide +kernel
  exact ⟨joined, fun input =>
    alternation_as_two entries p q 1 input (by decide +kernel) (by decide +kernel) joined⟩

end Lexicon

end OpGrammar
