import OpGrammar.Lexicon.Basic
import OpGrammar.Proofs.Growth

/-!
# The history of a lexicon

A lexicon is what its entries made of it, one after the other. `insert_cases` and `setMeaning_cases`
say all that one entry can do; what holds of every lexicon follows from them.
-/

namespace OpGrammar

variable {ν : Type}

/-! ## Steps with a state -/

@[simp] theorem bind_apply {σ ε α β : Type} (x : EStateM ε σ α) (next : α → EStateM ε σ β) (s : σ) :
    (x >>= next) s =
      match x s with
      | .ok a s => next a s
      | .error e s => .error e s := by
  simp only [bind, EStateM.bind]
  cases x s <;> rfl

@[simp] theorem pure_apply {σ ε α : Type} (a : α) (s : σ) :
    (pure a : EStateM ε σ α) s = .ok a s := rfl

@[simp] theorem throw_apply {σ ε α : Type} (e : ε) (s : σ) :
    (throw e : EStateM ε σ α) s = .error e s := rfl

@[simp] theorem get_apply {σ ε : Type} (s : σ) : (get : EStateM ε σ σ) s = .ok s s := rfl

@[simp] theorem modify_apply {σ ε : Type} (f : σ → σ) (s : σ) :
    (modify f : EStateM ε σ PUnit) s = .ok ⟨⟩ (f s) := rfl

namespace Lexicon

/-! ## One entry -/

def Accepts (lexicon : Lexicon ν) (entry : Entry ν) : Prop :=
  ∃ lexicon', enter entry lexicon = .ok () lexicon'

instance (lexicon : Lexicon ν) (entry : Entry ν) : Decidable (lexicon.Accepts entry) :=
  match taken : enter entry lexicon with
  | .ok _ lexicon' => isTrue ⟨lexicon', taken⟩
  | .error _ _ => isFalse fun ⟨_, taken'⟩ => by rw [taken] at taken'; cases taken'

/-- Why a pattern does not pass the checks before it is inserted. -/
inductive Refuses (lexicon : Lexicon ν) (text : Text) : LexiconError → Prop
  | again (old : text ∈ lexicon.patterns) : Refuses lexicon text (.redundant text)
  | unread (e : PatternError) (read : Pattern.read text = .error e) :
    Refuses lexicon text (.malformed e)
  | unknown (pattern : Pattern) (name : Text) (read : Pattern.read text = .ok pattern)
    (first : pattern.names.find? (!lexicon.meanings.knows ·) = some name) :
    Refuses lexicon text (.unknownName name)
  | empty (pattern : Pattern) (read : Pattern.read text = .ok pattern)
    (nullable : pattern.nullable lexicon.meanings.nullable = true) :
    Refuses lexicon text (.redundant text)

/-- What becomes of a lexicon when a pattern is inserted. -/
inductive Inserts (lexicon : Lexicon ν) (text : Text) (value : ν) :
    EStateM.Result LexiconError (Lexicon ν) Unit → Prop
  | refused (e : LexiconError) (reason : lexicon.Refuses text e) :
    Inserts lexicon text value (.error e lexicon)
  /-- Some groups of a pattern that is refused may have been made. -/
  | abandoned (e : LexiconError) (pattern : Pattern) (groups : InlineGroups)
    (read : Pattern.read text = .ok pattern)
    (links : pattern.links lexicon.meanings lexicon.inlineGroups = .error e groups)
    (known : ∀ name ∈ pattern.names, lexicon.meanings.knows name) :
    Inserts lexicon text value (.error e { lexicon with inlineGroups := groups })
  | inserted (pattern : Pattern) (branches : Branches Link) (groups : InlineGroups)
    (new : text ∉ lexicon.patterns) (read : Pattern.read text = .ok pattern)
    (known : ∀ name ∈ pattern.names, lexicon.meanings.knows name)
    (solid : pattern.nullable lexicon.meanings.nullable = false)
    (links : pattern.links lexicon.meanings lexicon.inlineGroups = .ok branches groups) :
    Inserts lexicon text value (.ok () ⟨lexicon.graph.addPattern branches value, lexicon.meanings,
      groups, text :: lexicon.patterns⟩)

theorem insert_cases (lexicon : Lexicon ν) (text : Text) (value : ν) :
    lexicon.Inserts text value (insert text value lexicon) := by
  unfold insert
  by_cases old : text ∈ lexicon.patterns
  · simpa [old] using .refused _ (.again old)
  simp only [bind_apply, get_apply, old, if_false]
  unfold readPattern
  cases read : Pattern.read text with
  | error e => exact .refused _ (.unread e read)
  | ok pattern =>
    simp only [pure_apply]
    cases unknown : pattern.names.find? (!lexicon.meanings.knows ·) with
    | some name => exact .refused _ (.unknown pattern name read unknown)
    | none =>
      have known (name : Text) (mem : name ∈ pattern.names) : lexicon.meanings.knows name := by
        simpa using List.find?_eq_none.1 unknown name mem
      dsimp only
      cases solid : pattern.nullable lexicon.meanings.nullable with
      | true => exact .refused _ (.empty pattern read solid)
      | false =>
        simp only [if_false, bind_apply, Bool.false_eq_true]
        unfold Lexicon.links
        cases links : pattern.links lexicon.meanings lexicon.inlineGroups with
        | error e groups => exact .abandoned e pattern groups read links known
        | ok branches groups => exact .inserted pattern branches groups old read known solid links

/-- What becomes of a lexicon when a name is given a meaning. -/
inductive SetsMeaning (lexicon : Lexicon ν) (name text : Text) :
    EStateM.Result LexiconError (Lexicon ν) Unit → Prop
  | refused (e : LexiconError) : SetsMeaning lexicon name text (.error e lexicon)
  /-- Some groups of a pattern that is refused may have been made. -/
  | abandoned (e : LexiconError) (pattern : Pattern) (groups : InlineGroups)
    (read : Pattern.read text = .ok pattern)
    (links : pattern.links lexicon.meanings lexicon.inlineGroups = .error e groups) :
    SetsMeaning lexicon name text (.error e { lexicon with inlineGroups := groups })
  | first (pattern : Pattern) (branches : Branches Link) (groups : InlineGroups)
    (unknown : lexicon.knows name = false) (read : Pattern.read text = .ok pattern)
    (links : pattern.links lexicon.meanings lexicon.inlineGroups = .ok branches groups)
    (proper : isName name) :
    SetsMeaning lexicon name text (.ok () ⟨lexicon.graph,
      ⟨(name, .ofBranches (.named name lexicon.meanings.generation) branches) ::
        lexicon.meanings.groups, lexicon.meanings.generation⟩, groups, lexicon.patterns⟩)
  /-- The groups in parentheses are made anew after this. -/
  | changed (pattern : Pattern) (branches : Branches Link) (groups : InlineGroups)
    (known : lexicon.knows name) (read : Pattern.read text = .ok pattern)
    (links : pattern.links lexicon.meanings lexicon.inlineGroups = .ok branches groups)
    (proper : isName name) :
    SetsMeaning lexicon name text (.ok () ⟨lexicon.graph,
      ⟨(name, .ofBranches (.named name (lexicon.meanings.generation + 1)) branches) ::
        lexicon.meanings.groups, lexicon.meanings.generation + 1⟩, [], lexicon.patterns⟩)

theorem setMeaning_cases (lexicon : Lexicon ν) (name text : Text) :
    lexicon.SetsMeaning name text (setMeaning name text lexicon) := by
  unfold setMeaning
  cases proper : isName name with
  | false => exact .refused (.malformedName name)
  | true =>
    simp only [bind_apply, Bool.not_true, Bool.false_eq_true, if_false]
    unfold readPattern
    cases read : Pattern.read text with
    | error e => exact .refused (.malformed e)
    | ok pattern =>
      simp only [pure_apply]
      unfold Lexicon.links
      cases links : pattern.links lexicon.meanings lexicon.inlineGroups with
      | error e groups => exact .abandoned e pattern groups read links
      | ok branches groups =>
        dsimp only [modify_apply]
        cases known : lexicon.knows name with
        | false =>
          have unknown : lexicon.meanings.knows name = false := known
          simp only [Lexicon.knows, unknown, Bool.false_eq_true, if_false]
          exact .first pattern branches groups known read links proper
        | true =>
          have old : lexicon.meanings.knows name = true := known
          simp only [Lexicon.knows, old, if_true]
          exact .changed pattern branches groups known read links proper

theorem extend_pattern (lexicon : Lexicon ν) (text : Text) (value : ν) :
    lexicon.extend (.pattern text value) =
      match insert text value lexicon with
      | .ok _ lexicon => lexicon
      | .error _ lexicon => lexicon := rfl

theorem extend_meaning (lexicon : Lexicon ν) (name text : Text) :
    lexicon.extend (.meaning name text) =
      match setMeaning name text lexicon with
      | .ok _ lexicon => lexicon
      | .error _ lexicon => lexicon := rfl

theorem extend_of_accepts (lexicon : Lexicon ν) (text : Text) (value : ν)
    (accepts : lexicon.Accepts (.pattern text value)) :
    ∃ pattern branches groups, Pattern.read text = .ok pattern ∧
      pattern.nullable lexicon.meanings.nullable = false ∧
      pattern.links lexicon.meanings lexicon.inlineGroups = .ok branches groups ∧
      lexicon.extend (.pattern text value) = ⟨lexicon.graph.addPattern branches value,
        lexicon.meanings, groups, text :: lexicon.patterns⟩ := by
  obtain ⟨lexicon', eq⟩ := accepts
  have eq : insert text value lexicon = .ok () lexicon' := eq
  have cases := insert_cases lexicon text value
  rw [extend_pattern]
  rw [eq] at cases ⊢
  cases cases with
  | inserted pattern branches groups _ read _ solid links =>
    exact ⟨pattern, branches, groups, read, solid, links, rfl⟩

theorem extend_graph (lexicon : Lexicon ν) (entry : Entry ν) :
    (lexicon.extend entry).graph = lexicon.graph ∨
      ∃ text value pattern branches groups, entry = .pattern text value ∧ lexicon.Accepts entry ∧
        Pattern.read text = .ok pattern ∧
        pattern.links lexicon.meanings lexicon.inlineGroups = .ok branches groups ∧
        (lexicon.extend entry).graph = lexicon.graph.addPattern branches value := by
  cases entry with
  | meaning name text =>
    left
    rw [extend_meaning]
    have cases := setMeaning_cases lexicon name text
    generalize setMeaning name text lexicon = result at cases
    cases cases <;> rfl
  | pattern text value =>
    cases eq : insert text value lexicon with
    | error e lexicon' =>
      left
      have cases := insert_cases lexicon text value
      rw [extend_pattern]
      rw [eq] at cases ⊢
      cases cases <;> rfl
    | ok u lexicon' =>
      right
      have accepts : lexicon.Accepts (.pattern text value) := ⟨lexicon', eq⟩
      obtain ⟨pattern, branches, groups, read, -, links, eq⟩ :=
        extend_of_accepts lexicon text value accepts
      refine ⟨text, value, pattern, branches, groups, rfl, accepts, read, links, ?_⟩
      rw [eq]

theorem extend_grows (lexicon : Lexicon ν) (proper : lexicon.graph.Proper) (entry : Entry ν) :
    lexicon.graph.Extends (lexicon.extend entry).graph ∧ (lexicon.extend entry).graph.Proper := by
  rcases extend_graph lexicon entry with same | ⟨text, value, pattern, branches, groups, -, -, -, -, eq⟩
  · rw [same]
    exact ⟨.refl _, proper⟩
  · rw [eq]
    exact Graph.addPattern_grows proper branches value

theorem mem_patterns_extend (lexicon : Lexicon ν) (entry : Entry ν) (text : Text) :
    text ∈ (lexicon.extend entry).patterns ↔ text ∈ lexicon.patterns ∨
      ∃ value, entry = .pattern text value ∧ lexicon.Accepts entry := by
  cases entry with
  | meaning name pattern =>
    have cases := setMeaning_cases lexicon name pattern
    rw [extend_meaning]
    generalize setMeaning name pattern lexicon = result at cases
    cases cases <;> simp
  | pattern text' value =>
    have cases := insert_cases lexicon text' value
    rw [extend_pattern]
    cases eq : insert text' value lexicon with
    | error e left =>
      have refused : ¬lexicon.Accepts (.pattern text' value) := by
        rintro ⟨_, taken⟩
        rw [show insert text' value lexicon = _ from taken] at eq
        cases eq
      rw [eq] at cases
      cases cases <;> simp [refused]
    | ok _ left =>
      have taken : lexicon.Accepts (.pattern text' value) := ⟨left, eq⟩
      rw [eq] at cases
      cases cases
      simp only [List.mem_cons, taken, and_true, Entry.pattern.injEq, exists_and_left,
        exists_eq', or_comm]
      simp only [eq_comm]

/-! ## All entries -/

def Took (entries before : List (Entry ν)) (entry : Entry ν) : Prop :=
  ∃ after, entries = before ++ entry :: after ∧ (ofEntries before).Accepts entry

/-- Among the entries there is a pattern with this value that was taken. -/
def Registers (entries : List (Entry ν)) (text : Text) (value : ν) : Prop :=
  ∃ before, Took entries before (.pattern text value)

variable {entries before : List (Entry ν)}

theorem ofEntries_concat (entries : List (Entry ν)) (entry : Entry ν) :
    ofEntries (entries ++ [entry]) = (ofEntries entries).extend entry := by
  simp [ofEntries]

theorem fst_foldl_extend {α : Type} (step : Lexicon ν → α → Entry ν → α) (start : α)
    (entries : List (Entry ν)) :
    (entries.foldl (fun state entry => (state.1.extend entry, step state.1 state.2 entry))
      (empty, start)).1 = ofEntries entries := by
  induction entries using List.reverseRecOn with
  | nil => rfl
  | append_singleton entries entry ih => rw [List.foldl_concat, ih, ofEntries_concat]

theorem Took.mem {entry : Entry ν} (took : Took entries before entry) : entry ∈ entries := by
  obtain ⟨after, rfl, -⟩ := took
  exact List.mem_append_right _ List.mem_cons_self

theorem took_concat (entry : Entry ν) (accepts : (ofEntries entries).Accepts entry) :
    Took (entries ++ [entry]) entries entry :=
  ⟨[], rfl, accepts⟩

theorem Took.concat {entry : Entry ν} (took : Took entries before entry) (later : Entry ν) :
    Took (entries ++ [later]) before entry := by
  obtain ⟨after, rfl, accepts⟩ := took
  exact ⟨after ++ [later], by simp, accepts⟩

theorem took_concat_iff {later entry : Entry ν} : Took (entries ++ [later]) before entry ↔
    Took entries before entry ∨
      before = entries ∧ entry = later ∧ (ofEntries entries).Accepts entry := by
  constructor
  · rintro ⟨after, eq, accepts⟩
    rcases List.eq_nil_or_concat after with rfl | ⟨after, last, rfl⟩
    · obtain ⟨rfl, same⟩ := List.append_inj' eq rfl
      cases same
      exact .inr ⟨rfl, rfl, accepts⟩
    · rw [List.concat_eq_append, ← List.cons_append, ← List.append_assoc] at eq
      exact .inl ⟨after, (List.append_inj' eq rfl).1, accepts⟩
  · rintro (took | ⟨rfl, rfl, accepts⟩)
    · exact took.concat later
    · exact took_concat entry accepts

theorem Registers.concat {text : Text} {value : ν} (registers : Registers entries text value)
    (later : Entry ν) : Registers (entries ++ [later]) text value := by
  obtain ⟨before, took⟩ := registers
  exact ⟨before, took.concat later⟩

theorem registers_concat_iff {later : Entry ν} {text : Text} {value : ν} :
    Registers (entries ++ [later]) text value ↔
      Registers entries text value ∨ later = .pattern text value ∧ (ofEntries entries).Accepts later := by
  constructor
  · rintro ⟨before, took⟩
    rcases took_concat_iff.1 took with took | ⟨rfl, rfl, accepts⟩
    · exact .inl ⟨before, took⟩
    · exact .inr ⟨rfl, accepts⟩
  · rintro (registers | ⟨rfl, accepts⟩)
    · exact registers.concat later
    · exact ⟨entries, took_concat _ accepts⟩

theorem mem_patterns_iff (entries : List (Entry ν)) (text : Text) :
    text ∈ (ofEntries entries).patterns ↔ ∃ value, Registers entries text value := by
  induction entries using List.reverseRecOn with
  | nil =>
    refine ⟨fun mem => (by cases mem), ?_⟩
    rintro ⟨value, before, after, eq, -⟩
    simp at eq
  | append_singleton entries entry ih =>
    simp only [ofEntries_concat, mem_patterns_extend, ih, registers_concat_iff, exists_or]

theorem ofEntries_proper (entries : List (Entry ν)) : (ofEntries entries).graph.Proper := by
  induction entries using List.reverseRecOn with
  | nil => exact Graph.proper_empty
  | append_singleton entries entry ih =>
    rw [ofEntries_concat]
    exact (extend_grows _ ih entry).2

theorem ofEntries_extends (before after : List (Entry ν)) :
    (ofEntries before).graph.Extends (ofEntries (before ++ after)).graph := by
  induction after using List.reverseRecOn with
  | nil =>
    rw [List.append_nil]
    exact .refl _
  | append_singleton after entry ih =>
    rw [← List.append_assoc, ofEntries_concat]
    exact ih.trans (extend_grows _ (ofEntries_proper _) entry).1

theorem registers_of_value (entries : List (Entry ν)) (id : Nat) (node : Node Group ν) (v : ν)
    (present : (ofEntries entries).graph[id]? = some node) (known : node.value = some v) :
    ∃ text, Registers entries text v := by
  induction entries using List.reverseRecOn generalizing id node with
  | nil =>
    obtain ⟨inside, rfl⟩ := Array.getElem?_eq_some_iff.1 present
    simp [ofEntries, empty, Graph.empty, Node.blank] at known
  | append_singleton entries entry ih =>
    rw [ofEntries_concat] at present
    rcases extend_graph (ofEntries entries) entry with
      same | ⟨text, value, pattern, branches, groups, rfl, accepts, -, -, eq⟩
    · rw [same] at present
      obtain ⟨text, registers⟩ := ih id node present known
      exact ⟨text, registers.concat entry⟩
    · rw [eq] at present
      rcases Graph.addPattern_value (ofEntries_proper entries) branches value id node v present
        known with ⟨node', before, old⟩ | ⟨rfl, -⟩
      · obtain ⟨text', registers⟩ := ih id node' before old
        exact ⟨text', registers.concat _⟩
      · exact ⟨text, entries, took_concat _ accepts⟩

end Lexicon

end OpGrammar
