import OpGrammar.Proofs.Links

/-!
# Which group it is

A group is known by its text or its name and by the generation that it was made in. No lexicon ever
makes two groups that this does not tell apart.
-/

namespace OpGrammar

namespace Meanings

variable {meanings meanings' : Meanings} {group group' : Group}

/-- A pattern that comes now can use the group. -/
inductive Offers (meanings : Meanings) (group : Group) : Prop
  | inline (source : Text) (makes : meanings.Makes source group)
  | named (name : Text) (known : meanings.group? name = some group)

/-- The group of a name has the id of the name, with the generation that the name got it in. -/
def Tidy (meanings : Meanings) : Prop :=
  ∀ name group, meanings.group? name = some group →
    ∃ generation ≤ meanings.generation, group.id = .named name generation

/-- The group was made some time ago, and it is the only one that has its id up to now. -/
def Recalls (meanings : Meanings) (group : Group) : Prop :=
  match group.id with
  | .inline source generation => generation < meanings.generation ∨
    generation = meanings.generation ∧ meanings.Makes source group
  | .named name generation => generation ≤ meanings.generation ∧
    ∃ current, meanings.group? name = some current ∧ (current.id = group.id → current = group)

theorem recalls_inline (source : Text) (generation : Nat) (same : group.id = .inline source generation) :
    meanings.Recalls group ↔ generation < meanings.generation ∨
      generation = meanings.generation ∧ meanings.Makes source group := by
  simp only [Recalls, same]

theorem recalls_named (name : Text) (generation : Nat) (same : group.id = .named name generation) :
    meanings.Recalls group ↔ generation ≤ meanings.generation ∧
      ∃ current, meanings.group? name = some current ∧ (current.id = group.id → current = group) := by
  simp only [Recalls, same]

theorem Makes.id {source : Text} (makes : meanings.Makes source group) :
    group.id = .inline source meanings.generation := by
  obtain ⟨inner, -, made⟩ := makes
  rw [Atom.freshLink] at made
  obtain ⟨branches, -, eq⟩ := Option.map_eq_some_iff.1 made
  cases eq
  rfl

theorem Makes.unique {source : Text} (makes : meanings.Makes source group)
    (makes' : meanings.Makes source group') : group = group' := by
  obtain ⟨inner, read, made⟩ := makes
  obtain ⟨inner', read', made'⟩ := makes'
  obtain rfl : inner = inner' := Except.ok.inj (read.symm.trans read')
  cases made.symm.trans made'
  rfl

theorem Offers.recalls (tidy : meanings.Tidy) (offers : meanings.Offers group) :
    meanings.Recalls group := by
  cases offers with
  | inline source makes => exact (recalls_inline source _ makes.id).2 (Or.inr ⟨rfl, makes⟩)
  | named name known =>
    obtain ⟨generation, early, same⟩ := tidy name group known
    exact (recalls_named name generation same).2 ⟨early, group, known, fun _ => rfl⟩

/-- What is offered now is no other group than the one that is recalled under its id. -/
theorem Offers.eq_of_id (tidy : meanings.Tidy) (offers : meanings.Offers group)
    (recalls : meanings.Recalls group') (same : group'.id = group.id) : group' = group := by
  cases offers with
  | inline source makes =>
    rcases (recalls_inline source _ (same.trans makes.id)).1 recalls with early | ⟨-, makes'⟩
    · exact absurd early (Nat.lt_irrefl _)
    · exact makes'.unique makes
  | named name known =>
    obtain ⟨generation, -, id⟩ := tidy name group known
    obtain ⟨-, current, known', unique⟩ := (recalls_named name _ (same.trans id)).1 recalls
    obtain rfl : group = current := Option.some.inj (known.symm.trans known')
    exact (unique same.symm).symm

/-! ## Later meanings -/

theorem Recalls.grows (grows : meanings.Grows meanings') (recalls : meanings.Recalls group) :
    meanings'.Recalls group := by
  cases id : group.id with
  | inline source generation =>
    rw [recalls_inline source generation id] at recalls ⊢
    rw [grows.generation]
    exact recalls.imp_right fun ⟨same, makes⟩ => ⟨same, makes.grows grows⟩
  | named name generation =>
    rw [recalls_named name generation id] at recalls ⊢
    obtain ⟨early, current, known, unique⟩ := recalls
    rw [grows.generation]
    exact ⟨early, current, grows.group name current known, unique⟩

theorem Recalls.changed (recalls : meanings.Recalls group) (name : Text)
    (new : group'.id = .named name (meanings.generation + 1)) :
    (⟨(name, group') :: meanings.groups, meanings.generation + 1⟩ : Meanings).Recalls group := by
  cases id : group.id with
  | inline source generation =>
    rw [recalls_inline source generation id] at recalls ⊢
    exact Or.inl (by rcases recalls with early | ⟨same, -⟩ <;> dsimp only <;> omega)
  | named name' generation =>
    rw [recalls_named name' generation id] at recalls ⊢
    obtain ⟨early, current, known, unique⟩ := recalls
    refine ⟨Nat.le_succ_of_le early, ?_⟩
    rw [group?_cons]
    split
    · refine ⟨group', rfl, fun same => ?_⟩
      rw [new, id] at same
      cases same
      exact absurd early (by omega)
    · exact ⟨current, known, unique⟩

theorem Tidy.cons (tidy : meanings.Tidy) (name : Text) (generation : Nat)
    (early : meanings.generation ≤ generation) (id : group.id = .named name generation) :
    (⟨(name, group) :: meanings.groups, generation⟩ : Meanings).Tidy := by
  intro name' group' known
  rw [group?_cons] at known
  split at known
  · rename_i same
    cases known
    exact ⟨generation, le_rfl, same ▸ id⟩
  · obtain ⟨generation', early', id'⟩ := tidy name' group' known
    exact ⟨generation', early'.trans early, id'⟩

end Meanings

end OpGrammar
