import DiamondScript.Proofs.NativeCalls

namespace DiamondScript

section

variable {α β σ : Type} {f : σ → α → σ} {p : α → Bool} {g : α → β} (view : σ → Option β)

theorem view_foldl_replace
    (hstep : ∀ s a, view (f s a) = if p a then some (g a) else view s) (as : List α) (s : σ) :
    view (as.foldl f s) = ((as.reverse.find? p).map g).or (view s) := by
  induction as generalizing s with
  | nil => rfl
  | cons a rest ih =>
      rw [List.foldl_cons, ih, hstep, List.reverse_cons, List.find?_append]
      cases rest.reverse.find? p with
      | some b => rfl
      | none => cases hp : p a <;> simp [hp]

theorem view_foldl_keep
    (hstep : ∀ s a, view (f s a) = (view s).or (if p a then some (g a) else none)) (as : List α)
    (s : σ) : view (as.foldl f s) = (view s).or ((as.find? p).map g) := by
  induction as generalizing s with
  | nil => exact (Option.or_none).symm
  | cons a rest ih =>
      rw [List.foldl_cons, ih, hstep, Option.or_assoc, List.find?_cons]
      cases p a <;> rfl

end

namespace Catalog

/-- What an action offers. Its arguments without a type are only remarks. -/
def Action.offer (a : Catalog.Action) : ActionSpec where
  name := a.name
  tags := a.tags
  arguments := (a.arguments.filter fun arg => arg.type.isSome).map fun arg =>
    ⟨arg.type.getD "", arg.plural, arg.optional⟩

variable (catalog : Catalog)

def Mentions (category : String) : Prop :=
  (∃ a ∈ catalog.actions, a.category = category) ∨ ∃ b ∈ catalog.codeblocks, b.name = category

def lastAction? (category action : String) : Option Catalog.Action :=
  catalog.actions.reverse.find? fun a => a.category == category && a.name == action

def lastCodeblock? (category : String) : Option Catalog.Codeblock :=
  catalog.codeblocks.reverse.find? fun b => b.name == category

def HasDynamic (category : String) : Prop :=
  ∃ b ∈ catalog.codeblocks, b.name = category ∧ Schema.isDynamic b.identifier

instance (category : String) : Decidable (catalog.Mentions category) :=
  inferInstanceAs (Decidable (_ ∨ _))

instance (category : String) : Decidable (catalog.HasDynamic category) :=
  inferInstanceAs (Decidable (∃ b ∈ catalog.codeblocks, _))

/-- The action that a name stands for in a category: the last one listed, or else the dynamic one
where the category has it. -/
def offer? (category action : String) : Option ActionSpec :=
  match catalog.lastAction? category action with
  | some a => some a.offer
  | none =>
    if action = Schema.dynamicAction ∧ catalog.HasDynamic category then
      some ⟨Schema.dynamicAction, [], []⟩
    else none

end Catalog

namespace Schema

theorem specOf_eq_offer (a : Catalog.Action) : specOf a = a.offer := by
  have harguments : ∀ args : List Catalog.Argument, args.filterMap ArgumentSpec.ofArgument? =
      (args.filter fun arg => arg.type.isSome).map fun arg =>
        ⟨arg.type.getD "", arg.plural, arg.optional⟩ := by
    intro args
    induction args with
    | nil => rfl
    | cons arg rest ih =>
        obtain ⟨type, plural, optional⟩ := arg
        cases type with
        | none => exact ih
        | some type => exact congrArg (⟨type, plural, optional⟩ :: ·) ih
  rw [specOf, harguments, Catalog.Action.offer]

def action? (s : Schema) (category action : String) : Option ActionSpec :=
  (s.categories.find? category).bind fun c => c.actions.find? action

def identifier? (s : Schema) (category : String) : Option String :=
  (s.categories.find? category).bind Category.identifier

def Knows (s : Schema) (category : String) : Prop := (s.categories.find? category).isSome

instance (s : Schema) (category : String) : Decidable (s.Knows category) :=
  inferInstanceAs (Decidable ((s.categories.find? category).isSome = true))

variable (s : Schema) (category : String)

theorem category_eq_ok : (∃ c, s.category category = .ok c) ↔ s.Knows category := by
  rw [Schema.category, Knows]
  cases s.categories.find? category <;> simp

theorem action_eq (action : String) :
    s.action category action = (s.action? category action).elim
      (.error (if s.Knows category then .unknownAction category action
        else .unknownCategory category)) .ok := by
  rw [Schema.action, Schema.category, action?]
  cases hfind : s.categories.find? category with
  | none =>
      have hknows : ¬ s.Knows category := by simp [Knows, hfind]
      rw [if_neg hknows]
      rfl
  | some c =>
      have hknows : s.Knows category := by simp [Knows, hfind]
      simp only [if_pos hknows, bind, Except.bind, Option.bind_some]
      cases c.actions.find? action <;> rfl

theorem identifierOf_eq :
    s.identifierOf category = (s.identifier? category).elim
      (.error (if s.Knows category then .missingIdentifier category
        else .unknownCategory category)) .ok := by
  rw [identifierOf, Schema.category, identifier?]
  cases hfind : s.categories.find? category with
  | none =>
      have hknows : ¬ s.Knows category := by simp [Knows, hfind]
      rw [if_neg hknows]
      rfl
  | some c =>
      have hknows : s.Knows category := by simp [Knows, hfind]
      simp only [if_pos hknows, bind, Except.bind, Option.bind_some]
      cases c.identifier <;> rfl

theorem actions_categoryOrNew (action : String) :
    (s.categoryOrNew category).actions.find? action = s.action? category action := by
  rw [categoryOrNew, action?]
  cases s.categories.find? category <;> rfl

theorem identifier_categoryOrNew :
    (s.categoryOrNew category).identifier = s.identifier? category := by
  rw [categoryOrNew, identifier?]
  cases s.categories.find? category <;> rfl

section

variable (a : Catalog.Action)

theorem categories_addAction :
    (s.addAction a).categories.find? category =
      if category = a.category then
        some { s.categoryOrNew a.category with
          actions := (s.categoryOrNew a.category).actions.insert a.name (specOf a) }
      else s.categories.find? category := by
  rw [addAction, Table.find?_insert]

theorem action?_addAction (action : String) :
    (s.addAction a).action? category action =
      if a.category == category && a.name == action then some (specOf a)
      else s.action? category action := by
  rw [action?, categories_addAction]
  by_cases hc : category = a.category
  · subst hc
    rw [if_pos rfl, Option.bind_some, Table.find?_insert, actions_categoryOrNew]
    by_cases ha : action = a.name
    · simp [ha]
    · simp [ha, Ne.symm ha]
  · rw [if_neg hc, ← action?]
    simp [Ne.symm hc]

theorem identifier?_addAction :
    (s.addAction a).identifier? category = s.identifier? category := by
  rw [identifier?, categories_addAction]
  by_cases hc : category = a.category
  · subst hc
    rw [if_pos rfl]
    exact s.identifier_categoryOrNew a.category
  · rw [if_neg hc, ← identifier?]

theorem knows_addAction :
    (s.addAction a).Knows category ↔ a.category = category ∨ s.Knows category := by
  rw [Knows, categories_addAction]
  by_cases hc : category = a.category
  · simp [hc]
  · rw [if_neg hc, ← Knows]
    simp [Ne.symm hc]

end

section

variable (b : Catalog.Codeblock)

theorem categories_addCodeblock :
    (s.addCodeblock b).categories.find? category =
      if category = b.name then
        some { s.categoryOrNew b.name with
          identifier := some b.identifier
          actions :=
            if isDynamic b.identifier then
              (s.categoryOrNew b.name).actions.insertNew dynamicAction ⟨dynamicAction, [], []⟩
            else (s.categoryOrNew b.name).actions }
      else s.categories.find? category := by
  rw [addCodeblock, Table.find?_insert]

theorem action?_addCodeblock (action : String) :
    (s.addCodeblock b).action? category action =
      (s.action? category action).or
        (if action == dynamicAction && (b.name == category && isDynamic b.identifier) then
          some ⟨dynamicAction, [], []⟩ else none) := by
  rw [action?, categories_addCodeblock]
  by_cases hc : category = b.name
  · subst hc
    rw [if_pos rfl, Option.bind_some]
    by_cases hd : isDynamic b.identifier
    · rw [if_pos hd, Table.find?_insertNew, actions_categoryOrNew]
      simp [hd]
    · rw [if_neg hd, actions_categoryOrNew]
      simp [hd]
  · rw [if_neg hc, ← action?]
    simp [Ne.symm hc]

theorem identifier?_addCodeblock :
    (s.addCodeblock b).identifier? category =
      if b.name == category then some b.identifier else s.identifier? category := by
  rw [identifier?, categories_addCodeblock]
  by_cases hc : category = b.name
  · simp [hc]
  · rw [if_neg hc, ← identifier?]
    simp [Ne.symm hc]

theorem knows_addCodeblock :
    (s.addCodeblock b).Knows category ↔ b.name = category ∨ s.Knows category := by
  rw [Knows, categories_addCodeblock]
  by_cases hc : category = b.name
  · simp [hc]
  · rw [if_neg hc, ← Knows]
    simp [Ne.symm hc]

end

theorem knows_foldl {α : Type} {f : Schema → α → Schema} {name : α → String}
    (hstep : ∀ s a, (f s a).Knows category ↔ name a = category ∨ s.Knows category) (as : List α) :
    (as.foldl f s).Knows category ↔ (∃ a ∈ as, name a = category) ∨ s.Knows category := by
  induction as generalizing s with
  | nil => simp
  | cons a rest ih =>
      rw [List.foldl_cons, ih, hstep, List.exists_mem_cons_iff, or_left_comm, or_assoc]

end Schema

namespace Schema

variable (catalog : Catalog) (category : String)

theorem knows_ofCatalog : (ofCatalog catalog).Knows category ↔ catalog.Mentions category := by
  have hempty : ¬ empty.Knows category := Bool.false_ne_true
  rw [ofCatalog, knows_foldl _ category (knows_addCodeblock · category),
    knows_foldl _ category (knows_addAction · category), or_iff_left hempty, or_comm,
    Catalog.Mentions]

theorem find?_dynamic (action : String) :
    ((catalog.codeblocks.find? fun b =>
      action == dynamicAction && (b.name == category && isDynamic b.identifier)).map
        fun _ => (⟨dynamicAction, [], []⟩ : ActionSpec)) =
      if action = dynamicAction ∧ catalog.HasDynamic category then
        some ⟨dynamicAction, [], []⟩ else none := by
  cases hfind : catalog.codeblocks.find? fun b =>
      action == dynamicAction && (b.name == category && isDynamic b.identifier) with
  | some b =>
      have hb := List.find?_some hfind
      simp only [Bool.and_eq_true, beq_iff_eq] at hb
      rw [if_pos ⟨hb.1, b, List.mem_of_find?_eq_some hfind, hb.2⟩]
      rfl
  | none =>
      rw [if_neg]
      · rfl
      · rintro ⟨haction, b, hb, hname, hdynamic⟩
        simpa [haction, hname, hdynamic] using List.find?_eq_none.mp hfind b hb

theorem action?_ofCatalog (action : String) :
    (ofCatalog catalog).action? category action = catalog.offer? category action := by
  have hactions := view_foldl_replace (fun s => s.action? category action)
    (fun s a => s.action?_addAction category a action) catalog.actions empty
  have hcodeblocks := view_foldl_keep (fun s => s.action? category action)
    (fun s b => s.action?_addCodeblock category b action) catalog.codeblocks
    (catalog.actions.foldl addAction empty)
  rw [ofCatalog, hcodeblocks, hactions, find?_dynamic, Catalog.offer?, Catalog.lastAction?]
  cases catalog.actions.reverse.find? fun a => a.category == category && a.name == action with
  | some a => exact congrArg some (specOf_eq_offer a)
  | none => rfl

theorem identifier?_ofCatalog :
    (ofCatalog catalog).identifier? category =
      (catalog.lastCodeblock? category).map Catalog.Codeblock.identifier := by
  have hactions : (catalog.actions.foldl addAction empty).identifier? category = none :=
    List.foldlRecOn (motive := fun s => s.identifier? category = none) catalog.actions addAction rfl
      fun s hs a _ => (s.identifier?_addAction category a).trans hs
  have hcodeblocks := view_foldl_replace (fun s => s.identifier? category)
    (fun s b => s.identifier?_addCodeblock category b) catalog.codeblocks
    (catalog.actions.foldl addAction empty)
  rw [ofCatalog, hcodeblocks, hactions, Option.or_none, Catalog.lastCodeblock?]

theorem categoryOf_ofCatalog (identifier : String) :
    (ofCatalog catalog).categoryOf identifier =
      (catalog.owner? identifier).elim (.error (.unknownIdentifier identifier)) .ok := by
  rw [categoryOf, find?_identifiers]
  cases catalog.owner? identifier <;> rfl

/-- A block of a dynamic kind has a specification whatever its action is: the category that its
identifier leads to has the identifier itself. -/
theorem exists_blockAction {catalog : Catalog} {b : Catalog.Codeblock}
    (hb : b ∈ catalog.codeblocks) (hdynamic : isDynamic b.identifier) (action : Option String) :
    ∃ spec, (ofCatalog catalog).blockAction b.identifier action = .ok spec := by
  obtain ⟨first, hfirst⟩ : ∃ first,
      catalog.codeblocks.find? (fun c => c.identifier == b.identifier) = some first :=
    Option.isSome_iff_exists.mp (List.find?_isSome.mpr ⟨b, hb, beq_self_eq_true _⟩)
  have hidentifier : first.identifier = b.identifier := by simpa using List.find?_some hfirst
  have howner : (ofCatalog catalog).categoryOf b.identifier = .ok first.name := by
    rw [categoryOf_eq_ok, Catalog.owner?, hfirst, Option.map_some]
  have hoffer : ∃ spec, catalog.offer? first.name dynamicAction = some spec := by
    have hfound : catalog.HasDynamic first.name :=
      ⟨first, List.mem_of_find?_eq_some hfirst, rfl, hidentifier ▸ hdynamic⟩
    rw [Catalog.offer?]
    cases catalog.lastAction? first.name dynamicAction with
    | some a => exact ⟨_, rfl⟩
    | none => exact ⟨_, if_pos ⟨rfl, hfound⟩⟩
  obtain ⟨spec, hspec⟩ := hoffer
  refine ⟨spec, ?_⟩
  rw [blockAction_of_categoryOf howner, if_pos hdynamic, action_eq, action?_ofCatalog, hspec]
  rfl

end Schema

/-- A schema answers every look-up as its catalog says. Of several actions of one name the last
one counts, and so does the last identifier of a category; an identifier leads to the first
category that has it. The dynamic action stands in where a category of a dynamic kind lists none,
so that a block of such a kind always has its specification. -/
theorem ofCatalog_answers (catalog : Catalog) :
    let schema := Schema.ofCatalog catalog
    (∀ category, (∃ c, schema.category category = .ok c) ↔ catalog.Mentions category) ∧
    (∀ category action, schema.action category action =
      (catalog.offer? category action).elim
        (.error (if catalog.Mentions category then .unknownAction category action
          else .unknownCategory category)) .ok) ∧
    (∀ category, schema.identifierOf category =
      (catalog.lastCodeblock? category).elim
        (.error (if catalog.Mentions category then .missingIdentifier category
          else .unknownCategory category)) (.ok ·.identifier)) ∧
    (∀ identifier, schema.categoryOf identifier =
      (catalog.owner? identifier).elim (.error (.unknownIdentifier identifier)) .ok) ∧
    (∀ b ∈ catalog.codeblocks, Schema.isDynamic b.identifier →
      ∀ action, ∃ spec, schema.blockAction b.identifier action = .ok spec) := by
  refine ⟨fun category => ?_, fun category action => ?_, fun category => ?_, fun identifier => ?_,
    fun b hb hdynamic action => ?_⟩
  · rw [Schema.category_eq_ok, Schema.knows_ofCatalog]
  · simp only [Schema.action_eq, Schema.action?_ofCatalog, Schema.knows_ofCatalog]
  · simp only [Schema.identifierOf_eq, Schema.identifier?_ofCatalog, Schema.knows_ofCatalog,
      Option.elim_map]
    rfl
  · exact Schema.categoryOf_ofCatalog catalog identifier
  · exact Schema.exists_blockAction hb hdynamic action

/-- The schema of a catalog in which an action comes twice, a category has no action, another no
identifier, and two categories share a dynamic identifier. -/
theorem ofCatalog_answers_shared :
    let catalog : Catalog := ⟨
      [⟨"PLAYER ACTION", "Go", [], [⟨none, false, false⟩]⟩, ⟨"EVENT", "Join", [], []⟩,
        ⟨"PLAYER ACTION", "Go", [], [⟨some "NUMBER", true, false⟩, ⟨none, false, false⟩]⟩],
      [⟨"FUNCTION", "func"⟩, ⟨"PLAYER ACTION", "player_action"⟩, ⟨"ROUTINE", "func"⟩]⟩
    let schema := Schema.ofCatalog catalog
    Schema.isDynamic "func" ∧
    schema.action "PLAYER ACTION" "Go" = .ok ⟨"Go", [], [⟨"NUMBER", true, false⟩]⟩ ∧
    schema.action "PLAYER ACTION" "dynamic" = .error (.unknownAction "PLAYER ACTION" "dynamic") ∧
    schema.identifierOf "EVENT" = .error (.missingIdentifier "EVENT") ∧
    schema.categoryOf "func" = .ok "FUNCTION" ∧
    ∃ spec, schema.blockAction "func" (some "Missing") = .ok spec := by
  intro catalog schema
  obtain ⟨-, haction, hidentifier, howner, hdynamic⟩ := ofCatalog_answers catalog
  refine ⟨by decide, (haction _ _).trans rfl, (haction _ _).trans rfl, (hidentifier _).trans rfl,
    (howner _).trans rfl, hdynamic ⟨"FUNCTION", "func"⟩ (by decide) (by decide) _⟩

end DiamondScript
