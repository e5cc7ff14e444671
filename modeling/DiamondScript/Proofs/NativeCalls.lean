import DiamondScript.Proofs.Defaults

namespace DiamondScript

namespace Table

variable {α : Type}

theorem find?_insertNew (t : Table α) (name : String) (a : α) (query : String) :
    (t.insertNew name a).find? query =
      (t.find? query).or (if query = name then some a else none) := by
  rw [insertNew]
  cases hname : t.find? name with
  | some b =>
      rw [Option.isSome_some, if_pos rfl]
      by_cases hq : query = name
      · rw [hq, hname, Option.some_or]
      · rw [if_neg hq, Option.or_none]
  | none =>
      rw [Option.isSome_none, if_neg Bool.false_ne_true, find?_insert]
      by_cases hq : query = name
      · rw [if_pos hq, if_pos hq, hq, hname, Option.none_or]
      · rw [if_neg hq, if_neg hq, Option.or_none]

end Table

/-- The category that a catalog lists first with an identifier. -/
def Catalog.owner? (catalog : Catalog) (identifier : String) : Option String :=
  (catalog.codeblocks.find? fun c => c.identifier == identifier).map Catalog.Codeblock.name

namespace Schema

theorem identifiers_foldl_addAction (actions : List Catalog.Action) (s : Schema) :
    (actions.foldl addAction s).identifiers = s.identifiers := by
  induction actions generalizing s with
  | nil => rfl
  | cons a rest ih => rw [List.foldl_cons, ih, addAction]

theorem find?_foldl_addCodeblock (codeblocks : List Catalog.Codeblock) (s : Schema)
    (identifier : String) :
    (codeblocks.foldl addCodeblock s).identifiers.find? identifier =
      (s.identifiers.find? identifier).or
        ((codeblocks.find? fun c => c.identifier == identifier).map Catalog.Codeblock.name) := by
  induction codeblocks generalizing s with
  | nil => rw [List.foldl_nil, List.find?_nil, Option.map_none, Option.or_none]
  | cons c rest ih =>
      have hstep : (s.addCodeblock c).identifiers.find? identifier =
          (s.identifiers.find? identifier).or
            (if identifier = c.identifier then some c.name else none) :=
        s.identifiers.find?_insertNew c.identifier c.name identifier
      rw [List.foldl_cons, ih, hstep, Option.or_assoc, List.find?_cons]
      by_cases hc : identifier = c.identifier
      · rw [if_pos hc, Option.some_or, beq_iff_eq.mpr hc.symm]
        rfl
      · rw [if_neg hc, Option.none_or, beq_false_of_ne (Ne.symm hc)]

theorem find?_identifiers (catalog : Catalog) (identifier : String) :
    (ofCatalog catalog).identifiers.find? identifier = catalog.owner? identifier := by
  rw [ofCatalog, find?_foldl_addCodeblock, identifiers_foldl_addAction]
  exact Option.none_or

theorem categoryOf_eq_ok {catalog : Catalog} {identifier category : String} :
    (ofCatalog catalog).categoryOf identifier = .ok category ↔
      catalog.owner? identifier = some category := by
  rw [categoryOf, find?_identifiers]
  cases catalog.owner? identifier with
  | none => simp
  | some owner => simp

theorem blockAction_of_categoryOf {s : Schema} {identifier category : String}
    (h : s.categoryOf identifier = .ok category) (action : Option String) :
    s.blockAction identifier action =
      s.action category (if isDynamic identifier then dynamicAction
        else action.getD dynamicAction) := by
  rw [blockAction, h]
  rfl

end Schema

namespace Codeblock

/-- The block has the tags of an action: it starts with their defaults, and they are written
behind its arguments. -/
structure HasTagsOf (schema : Schema) (b : Codeblock) (spec : ActionSpec) : Prop where
  seeded : b.tags = defaultTags spec.tags
  written : ∀ items, b.items schema = .ok items → ∃ tags, items = b.args ++ tags ∧
    List.Forall₂ (fun item t => item.kind = .tag b.kind spec.name t.name (t.initial spec.tags))
      tags (sortTags spec.tags)

theorem tagItems_chosen {schema : Schema} {b : Codeblock} {action : String} {slot : Nat}
    {tags : List TagSpec} {items : List Item}
    (h : b.tagItems schema action slot tags = .ok items) :
    List.Forall₂ (fun item t => item.kind = .tag b.kind action t.name (b.chosen t)) items tags := by
  induction tags generalizing slot items with
  | nil =>
      cases h
      exact .nil
  | cons t rest ih =>
      rw [tagItems] at h
      split at h
      case isTrue =>
        obtain ⟨later, hlater, h⟩ := bind_eq_ok.mp h
        cases h
        exact .cons rfl (ih hlater)
      case isFalse =>
        obtain ⟨category, -, h⟩ := bind_eq_ok.mp h
        cases h

theorem hasTagsOf_of_blockAction {schema : Schema} {b : Codeblock} {spec : ActionSpec}
    (hspec : schema.blockAction b.kind b.action = .ok spec)
    (htags : b.tags = defaultTags spec.tags) : b.HasTagsOf schema spec := by
  refine ⟨htags, fun items hitems => ?_⟩
  obtain ⟨spec', tags, hspec', htagItems, rfl⟩ := items_eq_ok hitems
  cases hspec.symm.trans hspec'
  refine ⟨tags, rfl, ?_⟩
  simpa only [chosen_of_seeded htags] using tagItems_chosen htagItems

end Codeblock

namespace Machine

open Codegen

/-- The two look-ups of a native call. The arguments are checked against the action of the named
category; the block carries the identifier of that category and goes by what the identifier leads
to. The two agree where the category is the first one with its identifier. Blocks of a dynamic
kind carry no action and have the tags of the dynamic one. -/
theorem genAction_lookups {catalog : Catalog} {scope : Scope} {n : Nat} {ref : ActionRef}
    {args : List Expr} {span : Span} {em : Emitted Unit}
    (h : genAction ⟨.ofCatalog catalog, scope⟩ n ref args span = .ok em) :
    let schema := Schema.ofCatalog catalog
    ∃ spec items block,
      schema.action ref.category ref.action = .ok spec ∧
      resolveArgs ⟨schema, scope⟩ .codeblock span (spec.arguments.map Expectation.ofArgument) n
        args = .ok items ∧
      em.blocks = items.blocks ++ [block] ∧ block.args = numberSlots 0 items.result ∧
      schema.identifierOf ref.category = .ok block.kind ∧
      block.action = (if Schema.isDynamic block.kind then none else some ref.action) ∧
      (schema.categoryOf block.kind = .ok ref.category ↔
        catalog.owner? block.kind = some ref.category) ∧
      (catalog.owner? block.kind = some ref.category → ∃ shown,
        schema.action ref.category
          (if Schema.isDynamic block.kind then Schema.dynamicAction else ref.action) = .ok shown ∧
        block.HasTagsOf schema shown ∧ (Schema.isDynamic block.kind = false → shown = spec)) := by
  intro schema
  obtain ⟨spec, kind, items, _, hspec, hkind, hargs, hblock, rfl⟩ := genAction_eq_ok h
  obtain ⟨shown, hshown, rfl⟩ := newBlock_eq_ok.mp hblock
  refine ⟨spec, items, _, hspec, hargs, rfl, rfl, hkind, rfl, Schema.categoryOf_eq_ok, ?_⟩
  intro howner
  have hcategory := Schema.categoryOf_eq_ok.mpr howner
  have hfound := (Schema.blockAction_of_categoryOf hcategory (some ref.action)).symm.trans hshown
  have hstored := (schema.blockAction_stored kind (some ref.action)).trans hshown
  refine ⟨shown, hfound, Codeblock.hasTagsOf_of_blockAction hstored rfl, fun hdynamic => ?_⟩
  have hsame : schema.action ref.category ref.action = .ok shown := by
    simpa [hdynamic] using hfound
  cases hspec.symm.trans hsame
  rfl

/-- A category that is the first of two with one identifier. -/
theorem genAction_lookups_first :
    let mode : TagSpec := ⟨"Mode", 0, "Walk", ["Walk", "Run"]⟩
    let speed : TagSpec := ⟨"Speed", 0, "Slow", ["Slow", "Fast"]⟩
    let catalog : Catalog := ⟨
      [⟨"PLAYER ACTION", "Go", [mode], [⟨some "NUMBER", false, false⟩]⟩,
        ⟨"ENTITY ACTION", "Go", [speed], []⟩],
      [⟨"PLAYER ACTION", "action"⟩, ⟨"ENTITY ACTION", "action"⟩]⟩
    let schema := Schema.ofCatalog catalog
    ∃ em spec block, genAction ⟨schema, .empty⟩ 0 ⟨"Go", "PLAYER ACTION", none⟩
        [.number default (.ofPattern false 1)] default = .ok em ∧ em.blocks = [block] ∧
      schema.action "PLAYER ACTION" "Go" = .ok spec ∧ spec.tags = [mode] ∧
      schema.categoryOf block.kind = .ok "PLAYER ACTION" ∧ block.action = some "Go" ∧
      block.HasTagsOf schema spec := by
  intro mode speed catalog schema
  obtain ⟨em, hok⟩ : ∃ em, genAction ⟨schema, .empty⟩ 0 ⟨"Go", "PLAYER ACTION", none⟩
      [.number default (.ofPattern false 1)] default = .ok em := ⟨_, rfl⟩
  obtain ⟨spec, items, block, hspec, hargs, hblocks, -, hkind, haction, hcategory, hshown⟩ :=
    genAction_lookups hok
  have hkind : block.kind = "action" := (Except.ok.inj hkind).symm
  have howner : catalog.owner? block.kind = some "PLAYER ACTION" := by
    rw [hkind]
    rfl
  obtain ⟨shown, -, htags, hsame⟩ := hshown howner
  rw [hkind] at haction
  cases hsame (by rw [hkind]; rfl)
  refine ⟨em, spec, block, hok, ?_, hspec, ?_, hcategory.mpr howner, haction, htags⟩
  · cases hspec
    cases hargs
    exact hblocks
  · cases hspec
    rfl

/-- A later category with the same identifier, whose block has the tags of the first one, and a
category of a dynamic kind, whose block has neither the action nor its tags. -/
theorem genAction_lookups_differ :
    let mode : TagSpec := ⟨"Mode", 0, "Walk", ["Walk", "Run"]⟩
    let speed : TagSpec := ⟨"Speed", 0, "Slow", ["Slow", "Fast"]⟩
    let hidden : TagSpec := ⟨"Is Hidden", 0, "True", ["True", "False"]⟩
    let shared := Schema.ofCatalog ⟨
      [⟨"PLAYER ACTION", "Go", [mode], []⟩, ⟨"ENTITY ACTION", "Go", [speed], []⟩],
      [⟨"FUNCTION", "func"⟩, ⟨"PLAYER ACTION", "action"⟩, ⟨"ENTITY ACTION", "action"⟩]⟩
    let dynamic := Schema.ofCatalog ⟨[⟨"FUNCTION", "Hide", [hidden], []⟩], [⟨"FUNCTION", "func"⟩]⟩
    (∃ em block spec, genAction ⟨shared, .empty⟩ 0 ⟨"Go", "ENTITY ACTION", none⟩ [] default =
        .ok em ∧ em.blocks = [block] ∧ shared.action "ENTITY ACTION" "Go" = .ok spec ∧
      shared.categoryOf block.kind ≠ .ok "ENTITY ACTION" ∧ ¬ block.HasTagsOf shared spec) ∧
    (∃ em block spec, genAction ⟨dynamic, .empty⟩ 0 ⟨"Hide", "FUNCTION", none⟩ [] default =
        .ok em ∧ em.blocks = [block] ∧ dynamic.action "FUNCTION" "Hide" = .ok spec ∧
      dynamic.categoryOf block.kind = .ok "FUNCTION" ∧ block.action ≠ some "Hide" ∧
      ¬ block.HasTagsOf dynamic spec) := by
  intro mode speed hidden shared dynamic
  refine ⟨⟨_, _, _, rfl, rfl, rfl, ?_, ?_⟩, ⟨_, _, _, rfl, rfl, rfl, rfl, ?_, ?_⟩⟩
  · decide
  · intro h
    exact absurd h.seeded (by decide)
  · decide
  · intro h
    exact absurd h.seeded (by decide)

end Machine
end DiamondScript
