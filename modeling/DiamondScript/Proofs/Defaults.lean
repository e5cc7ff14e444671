import DiamondScript.Proofs.Wire

namespace DiamondScript

/-- The option that a block starts with at a tag. Where the action lists several tags of one name,
the last of them decides. -/
def TagSpec.initial (tags : List TagSpec) (t : TagSpec) : String :=
  ((tags.reverse.find? fun u => u.name == t.name).getD t).defaultOption

/-- Every tag allows the option that a block starts with. -/
def ActionSpec.DefaultsAllowed (spec : ActionSpec) : Prop :=
  ∀ t ∈ spec.tags, t.allows (t.initial spec.tags)

instance (spec : ActionSpec) : Decidable spec.DefaultsAllowed :=
  inferInstanceAs (Decidable (∀ t ∈ spec.tags, t.allows (t.initial spec.tags)))

namespace Schema

def Every (P : ActionSpec → Prop) (s : Schema) : Prop :=
  ∀ name c, s.categories.find? name = some c → ∀ action spec,
    c.actions.find? action = some spec → P spec

variable {P : ActionSpec → Prop} {s : Schema}

theorem every_categoryOrNew (h : s.Every P) (name : String) {action : String} {spec : ActionSpec}
    (hspec : (s.categoryOrNew name).actions.find? action = some spec) : P spec := by
  rw [categoryOrNew] at hspec
  cases hc : s.categories.find? name with
  | none =>
      rw [hc] at hspec
      cases hspec
  | some c =>
      rw [hc] at hspec
      exact h name c hc action spec hspec

theorem every_insert (h : s.Every P) {name : String} {new : Category} {identifiers : Table String}
    (hnew : ∀ action spec, new.actions.find? action = some spec → P spec) :
    Every P ⟨s.categories.insert name new, identifiers⟩ := by
  intro query c hc
  rw [Table.find?_insert] at hc
  by_cases hq : query = name
  · rw [if_pos hq] at hc
    cases hc
    exact hnew
  · rw [if_neg hq] at hc
    exact h query c hc

theorem every_addAction (h : s.Every P) {a : Catalog.Action} (ha : P (specOf a)) :
    (s.addAction a).Every P := by
  apply every_insert h
  intro action spec hspec
  rw [Table.find?_insert] at hspec
  by_cases hq : action = a.name
  · rw [if_pos hq] at hspec
    cases hspec
    exact ha
  · rw [if_neg hq] at hspec
    exact every_categoryOrNew h _ hspec

theorem every_addCodeblock (h : s.Every P) (hdynamic : P ⟨dynamicAction, [], []⟩)
    (c : Catalog.Codeblock) : (s.addCodeblock c).Every P := by
  apply every_insert h
  intro action spec hspec
  have hold : (s.categoryOrNew c.name).actions.find? action = some spec → P spec :=
    every_categoryOrNew h c.name
  by_cases hd : isDynamic c.identifier
  · simp only [hd, if_true, Table.insertNew] at hspec
    split at hspec
    · exact hold hspec
    · rw [Table.find?_insert] at hspec
      by_cases hq : action = dynamicAction
      · rw [if_pos hq] at hspec
        cases hspec
        exact hdynamic
      · rw [if_neg hq] at hspec
        exact hold hspec
  · simp only [hd, Bool.false_eq_true, if_false] at hspec
    exact hold hspec

theorem every_ofCatalog {catalog : Catalog} (hactions : ∀ a ∈ catalog.actions, P (specOf a))
    (hdynamic : P ⟨dynamicAction, [], []⟩) : (ofCatalog catalog).Every P := by
  have hempty : empty.Every P := by
    intro name c hc
    cases hc
  have hadded : (catalog.actions.foldl addAction empty).Every P := by
    refine List.foldlRecOn catalog.actions addAction hempty ?_
    intro s hs a ha
    exact every_addAction hs (hactions a ha)
  refine List.foldlRecOn catalog.codeblocks addCodeblock hadded ?_
  intro s hs c _
  exact every_addCodeblock hs hdynamic c

theorem every_blockAction (h : s.Every P) {kind : String} {action : Option String}
    {spec : ActionSpec} (hspec : s.blockAction kind action = .ok spec) : P spec := by
  rw [blockAction] at hspec
  obtain ⟨category, -, hspec⟩ := bind_eq_ok.mp hspec
  rw [Schema.action] at hspec
  obtain ⟨c, hc, hspec⟩ := bind_eq_ok.mp hspec
  rw [Schema.category] at hc
  split at hc
  case h_2 => cases hc
  case h_1 c' hfound =>
    cases hc
    split at hspec
    case h_2 => cases hspec
    case h_1 spec' haction =>
      cases hspec
      exact h _ _ hfound _ _ haction

/-- A block's stored action leads to the same specification as the action it was made for. -/
theorem blockAction_stored (s : Schema) (kind : String) (action : Option String) :
    s.blockAction kind (if isDynamic kind then none else action) = s.blockAction kind action := by
  rw [blockAction, blockAction]
  by_cases hd : isDynamic kind
  · simp only [hd, if_true]
  · simp only [hd, Bool.false_eq_true, if_false]

end Schema

namespace Codeblock

variable {schema : Schema}

theorem find?_defaultTags (tags : List TagSpec) (t : TagSpec) :
    ((defaultTags tags).find? t.name).getD t.defaultOption = t.initial tags := by
  rw [defaultTags, Table.find?_foldl_insert, TagSpec.initial]
  cases tags.reverse.find? fun u => u.name == t.name with
  | none => rfl
  | some u => rfl

def chosen (b : Codeblock) (t : TagSpec) : String := (b.tags.find? t.name).getD t.defaultOption

def refusing? (b : Codeblock) (tags : List TagSpec) : Option TagSpec :=
  tags.find? fun t => !t.allows (b.chosen t)

theorem refusing?_eq_none {b : Codeblock} {tags : List TagSpec} :
    b.refusing? tags = none ↔ ∀ t ∈ tags, t.allows (b.chosen t) := by
  simp [refusing?]

theorem tagItems_ok (schema : Schema) {b : Codeblock} {tags : List TagSpec}
    (h : b.refusing? tags = none) (action : String) (slot : Nat) :
    ∃ items, b.tagItems schema action slot tags = .ok items := by
  rw [refusing?_eq_none] at h
  induction tags generalizing slot with
  | nil => exact ⟨[], rfl⟩
  | cons t rest ih =>
      rw [List.forall_mem_cons] at h
      obtain ⟨items, hitems⟩ := ih h.2 (slot + 1)
      have hallows : t.allows ((b.tags.find? t.name).getD t.defaultOption) := h.1
      rw [tagItems]
      simp only [hallows, if_true, hitems]
      exact ⟨_, rfl⟩

theorem tagItems_refused {b : Codeblock} {category : String}
    (hcategory : schema.categoryOf b.kind = .ok category) {tags : List TagSpec} {t : TagSpec}
    (h : b.refusing? tags = some t) (action : String) (slot : Nat) :
    b.tagItems schema action slot tags =
      .error (.invalidOption (b.chosen t) t.name action category) := by
  induction tags generalizing slot with
  | nil => cases h
  | cons u rest ih =>
      rw [refusing?, List.find?_cons] at h
      rw [tagItems]
      change (if u.allows (b.chosen u) then _ else _) = _
      cases hallows : u.allows (b.chosen u) with
      | true =>
          rw [hallows] at h
          rw [if_pos rfl, ih h]
          rfl
      | false =>
          rw [hallows] at h
          cases h
          rw [if_neg Bool.false_ne_true, invalidOption, hcategory]
          rfl

theorem toJson_ok {b : Codeblock} {spec : ActionSpec}
    (hspec : schema.blockAction b.kind b.action = .ok spec)
    (h : b.refusing? (sortTags spec.tags) = none) : ∃ j, b.toJson schema = .ok j := by
  obtain ⟨items, hitems⟩ := tagItems_ok schema h spec.name b.args.length
  simp only [toJson, Codeblock.items, Codeblock.spec, hspec, liftSchema, hitems, bind, Except.bind]
  exact ⟨_, rfl⟩

/-- The only complaint about a block with a specification is an option that is not allowed: the one
at the first tag, by ascending slot, that refuses what the block shows. -/
theorem toJson_refused {b : Codeblock} {spec : ActionSpec} {category : String}
    (hspec : schema.blockAction b.kind b.action = .ok spec)
    (hcategory : schema.categoryOf b.kind = .ok category) {t : TagSpec}
    (h : b.refusing? (sortTags spec.tags) = some t) :
    b.toJson schema = .error (.invalidOption (b.chosen t) t.name spec.name category) := by
  have hitems := tagItems_refused hcategory h spec.name b.args.length
  simp only [toJson, Codeblock.items, Codeblock.spec, hspec, liftSchema, hitems, bind, Except.bind]

theorem categoryOf_of_blockAction {kind : String} {action : Option String} {spec : ActionSpec}
    (h : schema.blockAction kind action = .ok spec) :
    ∃ category, schema.categoryOf kind = .ok category := by
  rw [Schema.blockAction] at h
  obtain ⟨category, hcategory, -⟩ := bind_eq_ok.mp h
  exact ⟨category, hcategory⟩

def Seeded (schema : Schema) (b : Codeblock) : Prop :=
  ∃ spec, schema.blockAction b.kind b.action = .ok spec ∧ b.tags = defaultTags spec.tags

theorem Seeded.withData {b : Codeblock} (h : b.Seeded schema) (data : String) :
    (b.withData data).Seeded schema := h

theorem Seeded.withTarget {b : Codeblock} (h : b.Seeded schema) (target : Option String) :
    (b.withTarget target).Seeded schema := h

theorem chosen_of_seeded {b : Codeblock} {spec : ActionSpec}
    (htags : b.tags = defaultTags spec.tags) (t : TagSpec) :
    b.chosen t = t.initial spec.tags := by
  rw [chosen, htags, find?_defaultTags]

theorem refusing?_of_seeded {b : Codeblock} {spec : ActionSpec}
    (htags : b.tags = defaultTags spec.tags) :
    b.refusing? (sortTags spec.tags) = none ↔ spec.DefaultsAllowed := by
  have hperm := (inSlotOrder_sortTags spec.tags).perm
  rw [refusing?_eq_none]
  simp only [chosen_of_seeded htags, hperm.mem_iff]
  rfl

theorem Seeded.toJson_ok_iff {b : Codeblock} (h : b.Seeded schema) :
    (∃ j, b.toJson schema = .ok j) ↔
      ∀ spec, schema.blockAction b.kind b.action = .ok spec → spec.DefaultsAllowed := by
  obtain ⟨spec, hspec, htags⟩ := h
  obtain ⟨category, hcategory⟩ := categoryOf_of_blockAction hspec
  have hdefaults := refusing?_of_seeded htags
  constructor
  · rintro ⟨j, hj⟩ spec' hspec'
    cases hspec.symm.trans hspec'
    rw [← hdefaults]
    cases hr : b.refusing? (sortTags spec.tags) with
    | none => rfl
    | some t =>
        rw [toJson_refused hspec hcategory hr] at hj
        cases hj
  · intro hall
    exact toJson_ok hspec (hdefaults.mpr (hall spec hspec))

theorem Seeded.toJson_error {b : Codeblock} (h : b.Seeded schema) {e : BlockError}
    (he : b.toJson schema = .error e) :
    ∃ option tag action category, e = .invalidOption option tag action category := by
  obtain ⟨spec, hspec, -⟩ := h
  obtain ⟨category, hcategory⟩ := categoryOf_of_blockAction hspec
  cases hr : b.refusing? (sortTags spec.tags) with
  | none =>
      obtain ⟨j, hj⟩ := toJson_ok hspec hr
      rw [hj] at he
      cases he
  | some t =>
      rw [toJson_refused hspec hcategory hr] at he
      cases he
      exact ⟨_, _, _, _, rfl⟩

end Codeblock

namespace Machine

open Codegen

variable {schema : Schema} {ctx : Context}

/-- A block as it is made: without data, and with the tags of its action at their defaults. -/
def Made (schema : Schema) (b : Codeblock) : Prop :=
  ∃ kind action args span, newBlock schema kind action args span = .ok b

theorem made_newBlock {kind : String} {action : Option String} {args : List Item} {span : Span}
    {b : Codeblock} (h : newBlock schema kind action args span = .ok b) : Made schema b :=
  ⟨kind, action, args, span, h⟩

theorem Made.seeded {b : Codeblock} (h : Made schema b) : b.Seeded schema := by
  obtain ⟨kind, action, args, span, h⟩ := h
  obtain ⟨spec, hspec, rfl⟩ := newBlock_eq_ok.mp h
  exact ⟨spec, (schema.blockAction_stored kind action).trans hspec, rfl⟩

theorem made_fillDict {target : Item} {span : Span} {entries : List (String × Item)}
    {fill : List Codeblock} (h : fillDict schema target span entries = .ok fill) :
    ∀ b ∈ fill, Made schema b := by
  induction entries generalizing fill with
  | nil =>
      cases h
      simp
  | cons entry rest ih =>
      rw [fillDict] at h
      obtain ⟨block, hblock, h⟩ := bind_eq_ok.mp h
      obtain ⟨blocks, hblocks, h⟩ := bind_eq_ok.mp h
      cases h
      rw [List.forall_mem_cons]
      exact ⟨made_newBlock hblock, ih hblocks⟩

theorem made_finish {target : Item} {e : Expr} {vs : List Value} {type : ValueType}
    {blocks : List Codeblock} (h : Finishes schema target e vs type blocks) :
    ∀ b ∈ blocks, Made schema b := by
  cases h with
  | dict created filled =>
      rw [List.forall_mem_cons]
      exact ⟨made_newBlock created, made_fillDict filled⟩
  | list created | binary _ _ _ _ created | index _ _ _ _ created =>
      rw [List.forall_mem_singleton]
      exact made_newBlock created

theorem made_each {n : Nat} {ops : List (String × Expr)} {vs : Emitted (List Value)}
    (h : Each (fun _ _ _ v => ∀ b ∈ v.blocks, Made schema b) n ops vs) :
    ∀ b ∈ vs.blocks, Made schema b := by
  induction h with
  | nil => simp
  | cons head _ ih =>
      rw [List.forall_mem_append]
      exact ⟨head, ih⟩

theorem made_compiles {dest : Dest} {n : Nat} {e : Expr} {v : Emitted Value}
    (h : Compiles ctx dest n e v) : ∀ b ∈ v.blocks, Made ctx.schema b := by
  induction h with
  | number | str | styledText | vector | name => simp
  | computed values placed finish ih =>
      rw [List.forall_mem_append]
      exact ⟨made_each (ih.imp fun ⟨_, hb⟩ => hb), made_finish finish⟩
  | cast span type inner hv => exact hv

theorem made_operands {n : Nat} {ops : List (String × Expr)} {vs : Emitted (List Value)}
    (h : Each (fun hint => Compiles ctx (.temp hint)) n ops vs) :
    ∀ b ∈ vs.blocks, Made ctx.schema b :=
  made_each (h.imp made_compiles)

theorem made_assignInto {name : String} {storage : Storage} {declared : ValueType} {n : Nat}
    {value : Expr} {span : Span} {em : Emitted Unit}
    (h : assignInto ctx name storage declared n value span = .ok em) :
    ∀ b ∈ em.blocks, Made ctx.schema b := by
  obtain ⟨v, copy, hc, -, hcopy, rfl⟩ := assignInto_eq_ok.mp h
  rw [List.forall_mem_append]
  refine ⟨made_compiles hc, ?_⟩
  unfold Copies at hcopy
  split at hcopy
  case isTrue => simp [hcopy]
  case isFalse =>
    obtain ⟨block, hblock, rfl⟩ := hcopy
    rw [List.forall_mem_singleton]
    exact made_newBlock hblock

theorem made_genSetIndex {n : Nat} {object index value : Expr} {span : Span} {em : Emitted Unit}
    (h : genSetIndex ctx n object index value span = .ok em) :
    ∀ b ∈ em.blocks, Made ctx.schema b := by
  obtain ⟨vs, o, i, v, container, block, hops, -, -, -, -, hblock, rfl⟩ := genSetIndex_eq_ok h
  rw [List.forall_mem_append, List.forall_mem_singleton]
  exact ⟨made_operands hops, made_newBlock hblock⟩

theorem made_resolveArgs {callee : Callee} {span : Span} {params : List Expectation} {n : Nat}
    {args : List Expr} {em : Emitted (List Item)}
    (h : resolveArgs ctx callee span params n args = .ok em) :
    ∀ b ∈ em.blocks, Made ctx.schema b := by
  obtain ⟨vs, hops, hblocks, -⟩ := resolveArgs_eq_ok h
  rw [hblocks]
  exact made_operands hops

theorem seeded_genCall {n : Nat} {name : String} {args : List Expr} {span : Span}
    {em : Emitted Unit} (h : genCall ctx n name args span = .ok em) :
    ∀ b ∈ em.blocks, b.Seeded ctx.schema := by
  obtain ⟨signature, items, block, -, hargs, hblock, rfl⟩ := genCall_eq_ok h
  rw [List.forall_mem_append, List.forall_mem_singleton]
  exact ⟨fun b hb => (made_resolveArgs hargs b hb).seeded,
    (made_newBlock hblock).seeded.withData name⟩

theorem seeded_genAction {n : Nat} {ref : ActionRef} {args : List Expr} {span : Span}
    {em : Emitted Unit} (h : genAction ctx n ref args span = .ok em) :
    ∀ b ∈ em.blocks, b.Seeded ctx.schema := by
  obtain ⟨spec, kind, items, block, -, -, hargs, hblock, rfl⟩ := genAction_eq_ok h
  rw [List.forall_mem_append, List.forall_mem_singleton]
  exact ⟨fun b hb => (made_resolveArgs hargs b hb).seeded,
    (made_newBlock hblock).seeded.withTarget _⟩

theorem seeded_genStmt {n : Nat} {stmt : Stmt} {em : Emitted Scope}
    (h : genStmt ctx n stmt = .ok em) : ∀ b ∈ em.blocks, b.Seeded ctx.schema := by
  cases stmt with
  | var d =>
      obtain ⟨storage, name, type, value, span⟩ := d
      cases value with
      | none =>
          cases h
          simp
      | some value =>
          obtain ⟨em', h', rfl⟩ := genStmt_var.mp h
          exact fun b hb => (made_assignInto h' b hb).seeded
  | expr e =>
      cases e with
      | assign span name value =>
          obtain ⟨b, em', -, h', rfl⟩ := genStmt_assign.mp h
          exact fun b hb => (made_assignInto h' b hb).seeded
      | setIndex span object index value =>
          obtain ⟨em', h', rfl⟩ := genStmt_setIndex.mp h
          exact fun b hb => (made_genSetIndex h' b hb).seeded
      | call span name args =>
          obtain ⟨em', h', hem⟩ := bind_eq_ok.mp h
          cases hem
          exact seeded_genCall h'
      | action span ref args =>
          obtain ⟨em', h', hem⟩ := bind_eq_ok.mp h
          cases hem
          exact seeded_genAction h'
      | _ => simp [genStmt, bind_eq_ok] at h

theorem seeded_genBody {scope : Scope} {n : Nat} {body : List Stmt} {blocks : List Codeblock}
    (h : genBody schema scope n body = .ok blocks) : ∀ b ∈ blocks, b.Seeded schema := by
  induction body generalizing scope n blocks with
  | nil =>
      cases h
      simp
  | cons stmt rest ih =>
      rw [genBody] at h
      obtain ⟨em, hem, h⟩ := bind_eq_ok.mp h
      obtain ⟨later, hlater, h⟩ := bind_eq_ok.mp h
      cases h
      rw [List.forall_mem_append]
      exact ⟨seeded_genStmt hem, ih hlater⟩

theorem seeded_genFunction {scope : Scope} {func : FuncDef} {body : List Stmt} {line : Codeline}
    (h : genFunction schema scope func body = .ok line) : ∀ b ∈ line.blocks, b.Seeded schema := by
  rw [genFunction] at h
  obtain ⟨⟨params, inner⟩, -, h⟩ := bind_eq_ok.mp h
  obtain ⟨head, hhead, h⟩ := bind_eq_ok.mp h
  obtain ⟨blocks, hblocks, h⟩ := bind_eq_ok.mp h
  cases h
  have hhead := (made_newBlock hhead).seeded.withData func.name
  exact List.forall_mem_cons.mpr ⟨hhead, seeded_genBody hblocks⟩

theorem seeded_generate {definitions : List Definition} {program : Program}
    (h : generate schema definitions = .ok program) {line : Codeline}
    (hline : line ∈ program.lines) : ∀ b ∈ line.blocks, b.Seeded schema := by
  obtain ⟨k, hk⟩ := List.mem_iff_getElem?.mp hline
  obtain ⟨r, -, hr⟩ := forall₂_getElem? (generate_lines h).flip hk
  exact seeded_genFunction hr

theorem toJson_line {line : Codeline} :
    (∃ j, line.toJson schema = .ok j) ↔ ∀ b ∈ line.blocks, ∃ j, b.toJson schema = .ok j := by
  rw [← exists_mapM_eq_ok, Codeline.toJson]
  simp only [bind_eq_ok]
  constructor
  · rintro ⟨j, js, hjs, -⟩
    exact ⟨js, hjs⟩
  · rintro ⟨js, hjs⟩
    exact ⟨_, js, hjs, rfl⟩

theorem toJson_line_error {line : Codeline} {e : BlockError} (h : line.toJson schema = .error e) :
    ∃ b ∈ line.blocks, b.toJson schema = .error e := by
  rw [Codeline.toJson] at h
  cases hjs : line.blocks.mapM (Codeblock.toJson schema) with
  | ok js =>
      rw [hjs] at h
      cases h
  | error e' =>
      rw [hjs] at h
      cases h
      exact mapM_eq_error hjs

/-- When a generated line can be delivered. Every block finds its specification again and still
has the options that it was made with, so that a line is refused only for an option, and exactly
if an action of the line has a tag whose initial option is not allowed. Where no action of the
catalog has such a tag, every line is delivered. -/
theorem generate_deliverable {catalog : Catalog} {definitions : List Definition}
    {program : Program} (h : generate (.ofCatalog catalog) definitions = .ok program)
    {line : Codeline} (hline : line ∈ program.lines) :
    let schema := Schema.ofCatalog catalog
    (∀ b ∈ line.blocks, ∃ spec, schema.blockAction b.kind b.action = .ok spec ∧
      ∀ t ∈ spec.tags, b.chosen t = t.initial spec.tags) ∧
    ((∃ j code, line.toJson schema = .ok j ∧ line.encode schema = .ok code) ↔
      ∀ b ∈ line.blocks, ∀ spec, schema.blockAction b.kind b.action = .ok spec →
        spec.DefaultsAllowed) ∧
    (∀ e, line.toJson schema = .error e →
      ∃ option tag action category, e = .invalidOption option tag action category) ∧
    ((∀ a ∈ catalog.actions, (Schema.specOf a).DefaultsAllowed) →
      ∃ j code, line.toJson schema = .ok j ∧ line.encode schema = .ok code) := by
  intro schema
  have hseeded := seeded_generate h hline
  have hencode : (∃ j code, line.toJson schema = .ok j ∧ line.encode schema = .ok code) ↔
      ∃ j, line.toJson schema = .ok j := by
    constructor
    · rintro ⟨j, code, hj, -⟩
      exact ⟨j, hj⟩
    · rintro ⟨j, hj⟩
      exact ⟨j, Code.encode j, hj, by rw [Codeline.encode, hj]; rfl⟩
  have hiff : (∃ j code, line.toJson schema = .ok j ∧ line.encode schema = .ok code) ↔
      ∀ b ∈ line.blocks, ∀ spec, schema.blockAction b.kind b.action = .ok spec →
        spec.DefaultsAllowed := by
    rw [hencode, toJson_line]
    exact forall₂_congr fun b hb => (hseeded b hb).toJson_ok_iff
  refine ⟨?_, hiff, ?_, ?_⟩
  · intro b hb
    obtain ⟨spec, hspec, htags⟩ := hseeded b hb
    exact ⟨spec, hspec, fun t _ => Codeblock.chosen_of_seeded htags t⟩
  · intro e he
    obtain ⟨b, hb, he⟩ := toJson_line_error he
    exact (hseeded b hb).toJson_error he
  · intro hcatalog
    rw [hiff]
    have hevery := Schema.every_ofCatalog hcatalog (by decide)
    exact fun b _ spec hspec => Schema.every_blockAction hevery hspec

/-- Of two tags with one name the first would refuse its own default, but it never shows it. -/
theorem generate_deliverable_same_name :
    let mode : TagSpec := ⟨"Mode", 3, "A", ["B"]⟩
    let later : TagSpec := ⟨"Mode", 1, "B", ["A", "B"]⟩
    let catalog : Catalog := ⟨[⟨"GAME ACTION", "Twice", [mode, later], []⟩],
      [⟨"FUNCTION", "func"⟩, ⟨"GAME ACTION", "game_action"⟩]⟩
    let twice : Expr := .action default ⟨"Twice", "GAME ACTION", none⟩ []
    let definitions : List Definition := [.func ⟨"main", [], some [.expr twice], default⟩]
    ∃ program line, generate (.ofCatalog catalog) definitions = .ok program ∧
      line ∈ program.lines ∧ (∀ a ∈ catalog.actions, (Schema.specOf a).DefaultsAllowed) ∧
      ∃ j code, line.toJson (.ofCatalog catalog) = .ok j ∧
        line.encode (.ofCatalog catalog) = .ok code := by
  intro mode later catalog twice definitions
  obtain ⟨program, line, hok, hline⟩ : ∃ program line,
      generate (.ofCatalog catalog) definitions = .ok program ∧ line ∈ program.lines :=
    ⟨_, _, rfl, List.mem_cons_self⟩
  have hcatalog : ∀ a ∈ catalog.actions, (Schema.specOf a).DefaultsAllowed := by decide
  exact ⟨program, line, hok, hline, hcatalog, (generate_deliverable hok hline).2.2.2 hcatalog⟩

/-- A tag whose default is not among its options: the program is generated, but its line is
refused. -/
theorem generate_refused_default :
    let mode : TagSpec := ⟨"Mode", 0, "Missing", ["A", "B"]⟩
    let catalog : Catalog := ⟨[⟨"GAME ACTION", "BadDefault", [mode], []⟩],
      [⟨"FUNCTION", "func"⟩, ⟨"GAME ACTION", "game_action"⟩]⟩
    let schema := Schema.ofCatalog catalog
    let bad : Expr := .action default ⟨"BadDefault", "GAME ACTION", none⟩ []
    let definitions : List Definition := [.func ⟨"main", [], some [.expr bad], default⟩]
    ∃ program line, generate schema definitions = .ok program ∧ line ∈ program.lines ∧
      line.toJson schema =
        .error (.invalidOption "Missing" "Mode" "BadDefault" "GAME ACTION") ∧
      line.encode schema =
        .error (.invalidOption "Missing" "Mode" "BadDefault" "GAME ACTION") := by
  intro mode catalog schema bad definitions
  obtain ⟨program, line, hok, hline, hj⟩ : ∃ program line,
      generate schema definitions = .ok program ∧ line ∈ program.lines ∧ line.toJson schema =
        .error (.invalidOption "Missing" "Mode" "BadDefault" "GAME ACTION") :=
    ⟨_, _, rfl, List.mem_cons_self, by with_unfolding_all rfl⟩
  refine ⟨program, line, hok, hline, hj, ?_⟩
  rw [Codeline.encode, hj]
  rfl

end Machine
end DiamondScript
