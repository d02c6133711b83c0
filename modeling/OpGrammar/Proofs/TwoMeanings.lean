import Mathlib.Data.List.Find
import OpGrammar.Proofs.Emptiness
import OpGrammar.Proofs.Identity
import OpGrammar.Proofs.Twins

/-!
# One pattern, two meanings

When the names in a pattern mean groups that read the same, the pattern is taken or refused for the
same reason, and what is made of it reads the same. The groups on both sides need not have the same
ids: it is enough that two atoms get one group on both sides or on neither.
-/

namespace OpGrammar

variable {ν : Type} {meanings meanings' : Meanings}

/-- Groups that read the same, with ids that are related. -/
structure Group.Twin (ids : GroupId → GroupId → Prop) (group group' : Group) : Prop where
  id : ids group.id group'.id
  reads : group.ReadsAs group'

theorem pairs_twin {ids : GroupId → GroupId → Prop}
    (one : ∀ id id' other other', ids id id' → ids other other' → (id = other ↔ id' = other')) :
    Pairs (Group.Twin ids) :=
  ⟨fun _ _ twin => twin.reads, fun _ _ _ _ twin twin' => one _ _ _ _ twin.id twin'.id⟩

/-- The names mean groups that read the same, or nothing on both sides. -/
def Meanings.AgreeOn (meanings meanings' : Meanings) (names : List Text) : Prop :=
  ∀ name ∈ names, Option.Rel Group.ReadsAs (meanings.group? name) (meanings'.group? name)

/-! ## The checks of a pattern -/

namespace Meanings.AgreeOn

variable {names more : List Text}

theorem append : meanings.AgreeOn meanings' (names ++ more) ↔
    meanings.AgreeOn meanings' names ∧ meanings.AgreeOn meanings' more := by
  simp [AgreeOn, or_imp, forall_and]

theorem knows (agree : meanings.AgreeOn meanings' names) {name : Text} (mem : name ∈ names) :
    meanings.knows name = meanings'.knows name := by
  have same := map_eq_of_rel (agree name mem) fun _ _ _ => (rfl : () = ())
  rw [Meanings.knows, Meanings.knows, ← Option.isSome_map, same, Option.isSome_map]

theorem nullable (agree : meanings.AgreeOn meanings' names) {name : Text} (mem : name ∈ names) :
    meanings.nullable name = meanings'.nullable name := by
  have reads := agree name mem
  rw [Meanings.nullable, Meanings.nullable]
  generalize meanings.group? name = group at reads ⊢
  generalize meanings'.group? name = group' at reads ⊢
  cases reads with
  | none => rfl
  | some reads => exact reads.nullable

theorem find?_unknown (agree : meanings.AgreeOn meanings' names) :
    names.find? (!meanings.knows ·) = names.find? (!meanings'.knows ·) :=
  List.find?_congr fun name mem => by rw [agree.knows mem]

end Meanings.AgreeOn

theorem Pattern.nullable_congr (pattern : Pattern)
    (agree : meanings.AgreeOn meanings' pattern.names) :
    pattern.nullable meanings.nullable = pattern.nullable meanings'.nullable := by
  rw [Bool.eq_iff_iff]
  constructor
  · exact nullableBranches_mono pattern fun name mem empty => by rwa [← agree.nullable mem]
  · exact nullableBranches_mono pattern fun name mem empty => by rwa [agree.nullable mem]

/-! ## What is made of a pattern -/

def Atom.groupId? (meanings : Meanings) : Atom → Option GroupId
  | .char _ | .oneOf _ => none
  | .group source _ => some (.inline source meanings.generation)
  | .reference _ name => (meanings.group? name).map Group.id

theorem Atom.groupId?_congr (tidy : meanings.Tidy) (meanings' : Meanings) {atom other : Atom}
    {id : GroupId} (h : atom.groupId? meanings = some id)
    (h' : other.groupId? meanings = some id) :
    atom.groupId? meanings' = other.groupId? meanings' := by
  have named {name : Text} (h : (meanings.group? name).map Group.id = some id) :
      ∃ generation, id = .named name generation := by
    obtain ⟨group, known, rfl⟩ := Option.map_eq_some_iff.1 h
    obtain ⟨generation, -, id⟩ := tidy name group known
    exact ⟨generation, id⟩
  cases atom with
  | char | oneOf => cases h
  | group source inner =>
    obtain rfl := Option.some.inj h
    cases other with
    | char | oneOf => cases h'
    | group source' inner' =>
      cases h'
      rfl
    | reference label name =>
      obtain ⟨_, same⟩ := named h'
      cases same
  | reference label name =>
    obtain ⟨_, rfl⟩ := named h
    cases other with
    | char | oneOf => cases h'
    | group source' inner' => cases h'
    | reference label' name' =>
      obtain ⟨_, same⟩ := named h'
      cases same
      rfl

/-- The ids of the group that an atom stands for, on both sides. -/
def Atom.Ids (meanings meanings' : Meanings) (atom : Atom) (id id' : GroupId) : Prop :=
  atom.groupId? meanings = some id ∧ atom.groupId? meanings' = some id'

/-- The ids of a group that some atom stands for, on both sides. -/
def Meanings.Ids (meanings meanings' : Meanings) (id id' : GroupId) : Prop :=
  ∃ atom : Atom, atom.Ids meanings meanings' id id'

theorem pairs_ids (tidy : meanings.Tidy) (tidy' : meanings'.Tidy) :
    Pairs (Group.Twin (meanings.Ids meanings')) := by
  refine pairs_twin ?_
  rintro id id' other other' ⟨atom, h, h'⟩ ⟨atom₁, h₁, h₁'⟩
  constructor
  · rintro rfl
    exact Option.some.inj (h'.symm.trans ((Atom.groupId?_congr tidy meanings' h h₁).trans h₁'))
  · rintro rfl
    exact Option.some.inj (h.symm.trans ((Atom.groupId?_congr tidy' meanings h' h₁').trans h₁))

mutual

/-- The links of an atom are twins if the ids of the group that it stands for are related. Inside
this group, it does not matter how the ids are related, as long as they are so one to one. -/
theorem Atom.freshLink_twin (pairs : Pairs (Group.Twin (meanings.Ids meanings'))) (atom : Atom)
    {ids : GroupId → GroupId → Prop} (allows : ∀ id id', atom.Ids meanings meanings' id id' → ids id id')
    (agree : meanings.AgreeOn meanings' atom.names) :
    Option.Rel (Link.Twin (Group.Twin ids)) (atom.freshLink meanings) (atom.freshLink meanings') := by
  cases atom with
  | char c | oneOf items =>
    rw [Atom.freshLink, Atom.freshLink]
    exact .some (.chars _)
  | group source inner =>
    rw [Atom.freshLink, Atom.freshLink]
    rw [Atom.names] at agree
    -- Inside the group, ids are related as atoms give them. How its own id is related is not asked.
    have rows := freshBranches_twin pairs inner
      (fun _ _ piece _ _ _ id => (⟨piece.atom, id⟩ : meanings.Ids meanings' _ _)) agree
    refine rel_map rows fun branches branches' rows => .group _ _ none ⟨?_, ?_⟩
    · exact allows _ _ ⟨rfl, rfl⟩
    · exact Group.readsAs_ofBranches pairs rows _ _
  | reference label name =>
    rw [Atom.freshLink, Atom.freshLink]
    have reads := agree name (by simp [Atom.names])
    simp only [Atom.Ids, Atom.groupId?] at allows
    generalize meanings.group? name = group at reads allows ⊢
    generalize meanings'.group? name = group' at reads allows ⊢
    cases reads with
    | none => exact .none
    | some reads => exact .some (.group _ _ label ⟨allows _ _ ⟨rfl, rfl⟩, reads⟩)

theorem freshBranches_twin (pairs : Pairs (Group.Twin (meanings.Ids meanings')))
    (branches : List (List (Piece Atom))) {ids : GroupId → GroupId → Prop}
    (allows : ∀ branch ∈ branches, ∀ piece ∈ branch, ∀ id id',
      piece.atom.Ids meanings meanings' id id' → ids id id')
    (agree : meanings.AgreeOn meanings' (namesOfBranches branches)) :
    Option.Rel (Branches.Twin (Group.Twin ids)) (freshBranches meanings branches)
      (freshBranches meanings' branches) := by
  cases branches with
  | nil =>
    rw [freshBranches, freshBranches]
    exact .some .nil
  | cons branch branches =>
    rw [freshBranches, freshBranches]
    rw [namesOfBranches, Meanings.AgreeOn.append] at agree
    rw [List.forall_mem_cons] at allows
    refine rel_bind (freshBranch_twin pairs branch allows.1 agree.1) fun links links' first => ?_
    exact rel_map (freshBranches_twin pairs branches allows.2 agree.2) fun _ _ more => .cons first more

theorem freshBranch_twin (pairs : Pairs (Group.Twin (meanings.Ids meanings')))
    (pieces : List (Piece Atom)) {ids : GroupId → GroupId → Prop}
    (allows : ∀ piece ∈ pieces, ∀ id id', piece.atom.Ids meanings meanings' id id' → ids id id')
    (agree : meanings.AgreeOn meanings' (namesOfBranch pieces)) :
    Option.Rel (List.Forall₂ (Piece.Twin (Group.Twin ids))) (freshBranch meanings pieces)
      (freshBranch meanings' pieces) := by
  cases pieces with
  | nil =>
    rw [freshBranch, freshBranch]
    exact .some .nil
  | cons piece pieces =>
    obtain ⟨atom, quantifier⟩ := piece
    rw [freshBranch, freshBranch]
    rw [namesOfBranch, Meanings.AgreeOn.append] at agree
    rw [List.forall_mem_cons] at allows
    refine rel_bind (atom.freshLink_twin pairs allows.1 agree.1) fun link link' first => ?_
    exact rel_map (freshBranch_twin pairs pieces allows.2 agree.2) fun _ _ more => .cons ⟨first, rfl⟩ more

end

/-! ## What is wrong with a pattern -/

/-- If something is wrong, it is the first of the names that has no meaning. -/
def BlamesFirst {α : Type} (meanings : Meanings) (names : List Text) :
    EStateM.Result LexiconError InlineGroups α → Prop
  | .ok _ _ => True
  | .error e _ =>
    ∃ name, names.find? (!meanings.knows ·) = some name ∧ e = .unknownName name

theorem find?_unknown_eq_none {names : List Text} (known : meanings.KnowsAll names) :
    names.find? (!meanings.knows ·) = none :=
  List.find?_eq_none.2 fun name mem => by simp [known name mem]

theorem BlamesFirst.bind {α β : Type} {names more : List Text}
    {run : EStateM LexiconError InlineGroups α} {next : α → EStateM LexiconError InlineGroups β}
    {groups : InlineGroups} (first : BlamesFirst meanings names (run groups))
    (second : ∀ a groups', run groups = .ok a groups' → meanings.KnowsAll names ∧
      BlamesFirst meanings more (next a groups')) :
    BlamesFirst meanings (names ++ more) ((run >>= next) groups) := by
  rw [bind_apply]
  unfold BlamesFirst at first second ⊢
  rw [List.find?_append]
  cases eq : run groups with
  | ok a groups' =>
    obtain ⟨known, second⟩ := second a groups' eq
    rw [find?_unknown_eq_none known, Option.none_or]
    exact second
  | error e groups' =>
    rw [eq] at first
    obtain ⟨name, found, rfl⟩ := first
    exact ⟨name, by rw [found, Option.some_or], rfl⟩

theorem BlamesFirst.map {α β : Type} {names : List Text}
    {run : EStateM LexiconError InlineGroups α} {groups : InlineGroups} (f : α → β)
    (first : BlamesFirst meanings names (run groups)) :
    BlamesFirst meanings names ((run >>= fun a => pure (f a)) groups) := by
  rw [bind_apply]
  unfold BlamesFirst at first ⊢
  cases eq : run groups with
  | ok a groups' => trivial
  | error e groups' =>
    rw [eq] at first
    exact first

theorem linksOfBranch_blames (pieces : List (Piece Atom))
    (well : ∀ piece ∈ pieces, piece.atom.WellRead)
    (atoms : ∀ piece ∈ pieces, ∀ groups, Coherent meanings groups →
      BlamesFirst meanings piece.atom.names (piece.atom.link meanings groups))
    (groups : InlineGroups) (coherent : Coherent meanings groups) :
    BlamesFirst meanings (namesOfBranch pieces) (linksOfBranch meanings pieces groups) := by
  induction pieces generalizing groups with
  | nil =>
    rw [linksOfBranch]
    trivial
  | cons piece pieces ih =>
    obtain ⟨atom, quantifier⟩ := piece
    rw [List.forall_mem_cons] at well atoms
    rw [namesOfBranch, linksOfBranch]
    refine (atoms.1 groups coherent).bind fun link groups' linked => ?_
    have compiled := atom.link_compiles well.1 groups coherent
    rw [linked] at compiled
    refine ⟨atom.isSome_freshLink.1 (by rw [compiled.1]; rfl), .map _ ?_⟩
    exact ih well.2 atoms.2 groups' compiled.2

theorem linksOfBranches_blames (branches : Pattern) (well : branches.WellRead)
    (atoms : ∀ branch ∈ branches, ∀ piece ∈ branch, ∀ groups, Coherent meanings groups →
      BlamesFirst meanings piece.atom.names (piece.atom.link meanings groups))
    (groups : InlineGroups) (coherent : Coherent meanings groups) :
    BlamesFirst meanings (namesOfBranches branches) (linksOfBranches meanings branches groups) := by
  induction branches generalizing groups with
  | nil =>
    rw [linksOfBranches]
    trivial
  | cons branch branches ih =>
    rw [Pattern.WellRead, List.forall_mem_cons] at well
    rw [List.forall_mem_cons] at atoms
    rw [namesOfBranches, linksOfBranches]
    refine (linksOfBranch_blames branch well.1 atoms.1 groups coherent).bind
      fun links groups' linked => ?_
    have compiled := linksOfBranch_compiles branch
      (fun piece mem => piece.atom.link_compiles (well.1 piece mem)) groups coherent
    rw [linked] at compiled
    refine ⟨(isSome_freshBranch branch).1 (by rw [compiled.1]; rfl), .map _ ?_⟩
    exact ih well.2 atoms.2 groups' compiled.2

theorem Atom.link_blames (atom : Atom) (well : atom.WellRead) (groups : InlineGroups)
    (coherent : Coherent meanings groups) :
    BlamesFirst meanings atom.names (atom.link meanings groups) := by
  induction well generalizing groups with
  | char c | oneOf items =>
    rw [link]
    trivial
  | reference label name =>
    rw [link, names]
    cases known : meanings.group? name with
    | none => exact ⟨name, by simp [Meanings.knows, known], rfl⟩
    | some group => trivial
  | group source inner read parts ih =>
    -- A kept group has no unknown names, so an error is that of the branches inside.
    unfold BlamesFirst
    cases failed : (Atom.group source inner).link meanings groups with
    | ok link groups' => trivial
    | error e groups' =>
      have blames := linksOfBranches_blames inner parts ih groups coherent
      rw [inner_error failed] at blames
      exact blames

theorem Pattern.links_blames (pattern : Pattern) (well : pattern.WellRead) (groups : InlineGroups)
    (coherent : Coherent meanings groups) :
    BlamesFirst meanings pattern.names (pattern.links meanings groups) :=
  linksOfBranches_blames pattern well
    (fun branch mem piece mem' => piece.atom.link_blames (well branch mem piece mem')) groups coherent

/-! ## Both sides -/

/-- Both results are related, or both are the same error. -/
inductive Alongside {ε σ α : Type} (S : α → α → Prop) :
    EStateM.Result ε σ α → EStateM.Result ε σ α → Prop
  | ok (a a' : α) (state state' : σ) (related : S a a') : Alongside S (.ok a state) (.ok a' state')
  | error (e : ε) (state state' : σ) : Alongside S (.error e state) (.error e state')

theorem Pattern.links_alongside (pattern : Pattern) (well : pattern.WellRead)
    {groups groups' : InlineGroups} (coherent : Coherent meanings groups)
    (coherent' : Coherent meanings' groups')
    (pairs : Pairs (Group.Twin (meanings.Ids meanings'))) {ids : GroupId → GroupId → Prop}
    (allows : ∀ branch ∈ pattern, ∀ piece ∈ branch, ∀ id id',
      piece.atom.Ids meanings meanings' id id' → ids id id')
    (agree : meanings.AgreeOn meanings' pattern.names) :
    Alongside (Branches.Twin (Group.Twin ids)) (pattern.links meanings groups)
      (pattern.links meanings' groups') := by
  have twins := freshBranches_twin pairs pattern allows agree
  have compiled := pattern.links_compiles well groups coherent
  have compiled' := pattern.links_compiles well groups' coherent'
  have blames := pattern.links_blames well groups coherent
  have blames' := pattern.links_blames well groups' coherent'
  generalize pattern.links meanings groups = result at compiled blames ⊢
  generalize pattern.links meanings' groups' = result' at compiled' blames' ⊢
  cases result with
  | ok branches after =>
    rw [compiled.1] at twins
    cases result' with
    | ok branches' after' =>
      rw [compiled'.1] at twins
      cases twins with
      | some twins => exact .ok _ _ _ _ twins
    | error e' after' =>
      rw [compiled'.1] at twins
      cases twins
  | error e after =>
    rw [compiled.1] at twins
    cases result' with
    | ok branches' after' =>
      rw [compiled'.1] at twins
      cases twins
    | error e' after' =>
      obtain ⟨name, first, rfl⟩ := blames
      obtain ⟨name', first', rfl⟩ := blames'
      rw [agree.find?_unknown, first'] at first
      cases first
      exact .error _ _ _

end OpGrammar
