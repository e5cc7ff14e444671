import DiamondScript.Proofs.CompactText
import DiamondScript.Proofs.RoundTrip
import DiamondScript.Proofs.TagChoices

namespace DiamondScript

open Json (AllFinite)

theorem Table.eq_of_find? {α : Type} {t t' : Table α} (hkeys : t.map Prod.fst = t'.map Prod.fst)
    (hdistinct : (t.map Prod.fst).Nodup)
    (h : ∀ name ∈ t.map Prod.fst, t.find? name = t'.find? name) : t = t' := by
  induction t generalizing t' with
  | nil => exact (List.map_eq_nil_iff.mp hkeys.symm).symm
  | cons e rest ih =>
      obtain ⟨name, a⟩ := e
      cases t' with
      | nil => cases hkeys
      | cons e' rest' =>
          obtain ⟨name', a'⟩ := e'
          simp only [List.map_cons, List.cons.injEq, List.nodup_cons] at hkeys hdistinct
          obtain ⟨rfl, hkeys⟩ := hkeys
          rw [List.map_cons, List.forall_mem_cons] at h
          have hhead := h.1
          rw [find?_cons, find?_cons, if_pos rfl, if_pos rfl, Option.some.injEq] at hhead
          have hrest : ∀ query ∈ rest.map Prod.fst, find? rest query = find? rest' query := by
            intro query hquery
            have hne : query ≠ name := by
              rintro rfl
              exact hdistinct.1 hquery
            have := h.2 query hquery
            rwa [find?_cons, find?_cons, if_neg hne, if_neg hne] at this
          rw [hhead, ih hkeys hdistinct.2 hrest]

namespace Json

variable {fields fields' : List (String × Json)}

theorem allFinite_object (h : ∀ f ∈ fields, f.2.AllFinite) : (object fields).AllFinite := by
  obtain ⟨sorted, hobject, -, hmem⟩ := exists_object fields
  rw [hobject, allFinite_obj]
  exact fun f hf => h f (hmem f hf)

theorem object_injective (h : object fields = object fields')
    (hkeys : fields.map Prod.fst = fields'.map Prod.fst)
    (hdistinct : (fields.map Prod.fst).Nodup) : fields = fields' := by
  apply List.reverse_injective
  apply Table.eq_of_find?
  · rw [List.map_reverse, List.map_reverse, hkeys]
  · rw [List.map_reverse]
    exact List.nodup_reverse.mpr hdistinct
  · intro name _
    rw [← field?_object, h, field?_object]

end Json

namespace ItemKind

/-- Whether the numbers of an item can be told from their texts. -/
def Legible : ItemKind → Prop
  | .number x => ¬ x.isNaN
  | .vector x y z => x.isFinite ∧ y.isFinite ∧ z.isFinite
  | _ => True

theorem allFinite_component (x : Binary64) : (component x).AllFinite := by
  rw [component]
  split
  · next h => exact List.forall_mem_singleton.mpr h
  · exact List.forall_mem_nil _

theorem allFinite_data (kind : ItemKind) : kind.data.AllFinite := by
  have hscalar : ∀ s : String, (Json.str s).AllFinite := fun _ => List.forall_mem_nil _
  have hbool : ∀ b : Bool, (Json.bool b).AllFinite := fun _ => List.forall_mem_nil _
  cases kind <;> apply Json.allFinite_object <;> simp [hscalar, hbool, allFinite_component]

theorem component_injective {x y : Binary64} (hx : x.isFinite) (hy : y.isFinite)
    (h : component x = component y) : x = y := by
  rw [component, component, if_pos hx, if_pos hy] at h
  exact Json.float.inj h

/-- The code tells the kinds of items apart, and the fields what they hold. -/
theorem eq_of_data {k k' : ItemKind} (hk : k.Legible) (hk' : k'.Legible) (hcode : k.code = k'.code)
    (h : k.data = k'.data) : k = k' := by
  cases k <;> cases k' <;> simp only [code, String.reduceEq] at hcode <;>
    have hfields := Json.object_injective h (by simp) (by simp) <;>
    simp only [List.cons.injEq, Prod.mk.injEq, Json.str.injEq, Json.bool.injEq, true_and,
      and_true] at hfields
  case tag =>
    obtain ⟨rfl, rfl, rfl, rfl⟩ := hfields
    rfl
  case string | styledText =>
    rw [hfields]
  case number =>
    rw [eq_of_numberText hk hk' hfields]
  case «variable» =>
    obtain ⟨rfl, rfl⟩ := hfields
    rfl
  case vector =>
    obtain ⟨hx, hy, hz⟩ := hk
    obtain ⟨hx', hy', hz'⟩ := hk'
    rw [component_injective hx hx' hfields.1, component_injective hy hy' hfields.2.1,
      component_injective hz hz' hfields.2.2]
  case parameter =>
    obtain ⟨rfl, rfl, rfl, rfl, rfl⟩ := hfields
    rfl

end ItemKind

namespace Item

theorem allFinite_toJson (item : Item) : item.toJson.AllFinite := by
  apply Json.allFinite_object
  rw [List.forall_mem_cons, List.forall_mem_singleton]
  constructor
  · apply Json.allFinite_object
    rw [List.forall_mem_cons, List.forall_mem_singleton]
    exact ⟨List.forall_mem_nil _, item.kind.allFinite_data⟩
  · exact List.forall_mem_nil _

theorem eq_of_toJson {item item' : Item} (h : item.kind.Legible) (h' : item'.kind.Legible)
    (heq : item.toJson = item'.toJson) : item = item' := by
  obtain ⟨slot, kind⟩ := item
  obtain ⟨slot', kind'⟩ := item'
  have hfields := Json.object_injective heq (by simp) (by simp)
  simp only [List.cons.injEq, Prod.mk.injEq, true_and, and_true, Json.nat, Json.int.injEq,
    Nat.cast_inj] at hfields
  obtain ⟨hitem, rfl⟩ := hfields
  have hkind := Json.object_injective hitem (by simp) (by simp)
  simp only [List.cons.injEq, Prod.mk.injEq, true_and, and_true, Json.str.injEq] at hkind
  exact congrArg (Item.mk slot) (ItemKind.eq_of_data h h' hkind.1 hkind.2)

theorem eq_of_map_toJson {items items' : List Item} (h : ∀ item ∈ items, item.kind.Legible)
    (h' : ∀ item ∈ items', item.kind.Legible)
    (heq : items.map toJson = items'.map toJson) : items = items' := by
  induction items generalizing items' with
  | nil => exact (List.map_eq_nil_iff.mp heq.symm).symm
  | cons item rest ih =>
      cases items' with
      | nil => cases heq
      | cons item' rest' =>
          rw [List.forall_mem_cons] at h h'
          obtain ⟨hitem, hrest⟩ := List.cons.inj heq
          rw [eq_of_toJson h.1 h'.1 hitem, ih h.2 h'.2 hrest]

end Item

namespace Codeblock

variable {schema : Schema} {b b' : Codeblock} {j : Json}

/-- The blocks that a schema allows to make, for actions whose tags have different names. -/
inductive Built (schema : Schema) : Codeblock → Prop
  | new {kind : String} {action : Option String} {args : List Item} {b : Codeblock}
      {spec : ActionSpec} (known : schema.blockAction kind action = .ok spec)
      (distinct : (spec.tags.map TagSpec.name).Nodup)
      (made : Codeblock.new schema kind action args = .ok b) : Built schema b
  | withData {b : Codeblock} (data : String) (h : Built schema b) : Built schema (b.withData data)
  | withTarget {b : Codeblock} (target : Option String) (h : Built schema b) :
      Built schema (b.withTarget target)
  | setTag {b next : Codeblock} {tag option : String} (h : Built schema b)
      (set : b.setTag schema tag option = .ok next) : Built schema next

theorem Built.tagged (h : Built schema b) :
    ∃ spec, (spec.tags.map TagSpec.name).Nodup ∧ b.Tagged schema spec := by
  induction h with
  | @new kind action args b spec known distinct made =>
      obtain ⟨spec', hspec, rfl⟩ := new_eq_ok.mp made
      cases known.symm.trans hspec
      exact ⟨spec, distinct,
        tagged_of_defaults distinct ((schema.blockAction_stored kind action).trans known) rfl⟩
  | withData _ _ ih | withTarget _ _ ih =>
      obtain ⟨spec, hdistinct, htagged⟩ := ih
      exact ⟨spec, hdistinct, htagged.known, htagged.keys⟩
  | @setTag b next tag option _ set ih =>
      obtain ⟨spec, hdistinct, htagged⟩ := ih
      have hchoice := chooses_afterChoice htagged (tag, option)
      rw [afterChoice_of_ok set] at hchoice
      exact ⟨spec, hdistinct, hchoice.tagged htagged⟩

theorem toJson_field (h : b.toJson schema = .ok j) :
    j.field? "block" = some (.str b.kind) ∧ j.field? "data" = b.data.map .str ∧
      j.field? "action" = b.action.map .str ∧ j.field? "target" = b.target.map .str := by
  obtain ⟨items, -, h⟩ := bind_eq_ok.mp h
  cases h
  simp only [Json.field?_object]
  cases b.data <;> cases b.action <;> cases b.target <;> exact ⟨rfl, rfl, rfl, rfl⟩

theorem allFinite_optionalField (name : String) (s : Option String) :
    ∀ f ∈ optionalField name s, f.2.AllFinite := by
  cases s with
  | none => exact List.forall_mem_nil _
  | some s => exact List.forall_mem_singleton.mpr (List.forall_mem_nil _)

theorem allFinite_toJson (h : b.toJson schema = .ok j) : j.AllFinite := by
  obtain ⟨items, -, h⟩ := bind_eq_ok.mp h
  cases h
  have hitems : (Json.arr (items.map Item.toJson)).AllFinite := by
    rw [Json.allFinite_arr, List.forall_mem_map]
    exact fun item _ => item.allFinite_toJson
  have hargs : (Json.object [("items", .arr (items.map Item.toJson))]).AllFinite :=
    Json.allFinite_object (List.forall_mem_singleton.mpr hitems)
  have hname (s : String) : (Json.str s).AllFinite := List.forall_mem_nil _
  apply Json.allFinite_object
  simp only [List.forall_mem_append, List.forall_mem_cons]
  exact ⟨⟨⟨⟨hname _, hname _, hargs, List.forall_mem_nil _⟩, allFinite_optionalField _ _⟩,
    allFinite_optionalField _ _⟩, allFinite_optionalField _ _⟩

theorem legible_of_tagItems {action : String} {slot : Nat} {tags : List TagSpec}
    {items : List Item} (h : b.tagItems schema action slot tags = .ok items) :
    ∀ item ∈ items, item.kind.Legible := by
  have hchosen := tagItems_chosen h
  clear h
  induction hchosen with
  | nil => exact List.forall_mem_nil _
  | cons head _ ih =>
      rw [List.forall_mem_cons, head]
      exact ⟨trivial, ih⟩

theorem chosen_eq_of_items {action : String} {tags : List TagSpec} {items : List Item}
    (h : List.Forall₂ (fun item t => item.kind = .tag b.kind action t.name (b.chosen t)) items tags)
    (h' : List.Forall₂ (fun item t => item.kind = .tag b'.kind action t.name (b'.chosen t))
      items tags) : ∀ t ∈ tags, b.chosen t = b'.chosen t := by
  induction h with
  | nil => exact List.forall_mem_nil _
  | cons head _ ih =>
      obtain ⟨head', hrest⟩ := List.forall₂_cons.mp h'
      rw [head] at head'
      exact List.forall_mem_cons.mpr ⟨(ItemKind.tag.inj head').2.2.2, ih hrest⟩

theorem tags_eq_of_chosen {spec : ActionSpec} (hdistinct : (spec.tags.map TagSpec.name).Nodup)
    (h : b.Tagged schema spec) (h' : b'.Tagged schema spec)
    (hchosen : ∀ t ∈ spec.tags, b.chosen t = b'.chosen t) : b.tags = b'.tags := by
  apply Table.eq_of_find? (h.keys.trans h'.keys.symm)
  · rw [h.keys]
    exact hdistinct
  · intro name hname
    have hname' : name ∈ b'.tags.map Prod.fst := by rwa [h'.keys, ← h.keys]
    rw [h.keys] at hname
    obtain ⟨t, ht, rfl⟩ := List.mem_map.mp hname
    have hoption := hchosen t ht
    rw [h.keys.symm] at hname
    cases hfind : b.tags.find? t.name with
    | none => exact absurd hname (Table.find?_eq_none.mp hfind)
    | some option =>
        cases hfind' : b'.tags.find? t.name with
        | none => exact absurd hname' (Table.find?_eq_none.mp hfind')
        | some option' =>
            rw [chosen, chosen, hfind, hfind'] at hoption
            exact congrArg some hoption

/-- The arguments are those items that no tag of the action accounts for. -/
theorem args_eq_of_items {spec : ActionSpec} {tags tags' : List Item}
    (htags : b.tagItems schema spec.name b.args.length (sortTags spec.tags) = .ok tags)
    (htags' : b'.tagItems schema spec.name b'.args.length (sortTags spec.tags) = .ok tags')
    (h : b.args ++ tags = b'.args ++ tags') : b.args = b'.args ∧ tags = tags' := by
  apply List.append_inj' h
  rw [(tagItems_chosen htags).length_eq, (tagItems_chosen htags').length_eq]

theorem eq_of_toJson (hb : Built schema b) (hb' : Built schema b')
    (hargs : ∀ item ∈ b.args, item.kind.Legible) (hargs' : ∀ item ∈ b'.args, item.kind.Legible)
    (hj : b.toJson schema = .ok j) (hj' : b'.toJson schema = .ok j) : b = b' := by
  obtain ⟨hkind, hdata, haction, htarget⟩ := toJson_field hj
  obtain ⟨hkind', hdata', haction', htarget'⟩ := toJson_field hj'
  have hstr : Function.Injective Json.str := fun _ _ h => Json.str.inj h
  have hsamekind : b.kind = b'.kind := hstr (Option.some.inj (hkind.symm.trans hkind'))
  have hsamedata : b.data = b'.data := Option.map_injective hstr (hdata.symm.trans hdata')
  have hsameaction : b.action = b'.action := Option.map_injective hstr (haction.symm.trans haction')
  have hsametarget : b.target = b'.target := Option.map_injective hstr (htarget.symm.trans htarget')
  obtain ⟨items, hitems, hjson⟩ := toJson_items hj
  obtain ⟨items', hitems', hjson'⟩ := toJson_items hj'
  obtain ⟨spec, tags, hspec, htags, rfl⟩ := items_eq_ok hitems
  obtain ⟨spec', tags', hspec', htags', rfl⟩ := items_eq_ok hitems'
  -- The kind and the action are read first: only the specification tells how many tags there are.
  rw [hsamekind, hsameaction, hspec'] at hspec
  cases hspec
  have hsameitems := Item.eq_of_map_toJson
    (List.forall_mem_append.mpr ⟨hargs, legible_of_tagItems htags⟩)
    (List.forall_mem_append.mpr ⟨hargs', legible_of_tagItems htags'⟩)
    (Option.some.inj (hjson.symm.trans hjson'))
  obtain ⟨hsameargs, rfl⟩ := args_eq_of_items htags htags' hsameitems
  have hchosen := chosen_eq_of_items (tagItems_chosen htags) (tagItems_chosen htags')
  have hsametags : b.tags = b'.tags := by
    obtain ⟨known, hdistinct, htagged⟩ := hb.tagged
    obtain ⟨known', -, htagged'⟩ := hb'.tagged
    have hknown := htagged'.known.symm.trans hspec'
    cases hknown
    have hsame := htagged.known
    rw [hsamekind, hsameaction, hspec'] at hsame
    cases hsame
    apply tags_eq_of_chosen hdistinct htagged htagged'
    exact fun t ht => hchosen t ((inSlotOrder_sortTags _).perm.mem_iff.mpr ht)
  obtain ⟨kind, data, action, args, target, table⟩ := b
  obtain ⟨kind', data', action', args', target', table'⟩ := b'
  cases hsamekind
  cases hsamedata
  cases hsameaction
  cases hsametarget
  cases hsameargs
  cases hsametags
  rfl

/-- What is written of a block tells all of it: blocks of one text are equal. -/
theorem eq_of_compactText {schema : Schema} {b b' : Codeblock} {j j' : Json}
    (hb : Built schema b) (hb' : Built schema b') (hargs : ∀ item ∈ b.args, item.kind.Legible)
    (hargs' : ∀ item ∈ b'.args, item.kind.Legible) (hj : b.toJson schema = .ok j)
    (hj' : b'.toJson schema = .ok j') (h : j.compactText = j'.compactText) : b = b' := by
  have hjson := Json.compactText_injective (allFinite_toJson hj) (allFinite_toJson hj') h
  subst hjson
  exact eq_of_toJson hb hb' hargs hargs' hj hj'

/-- A block made in two ways, with a tag item among the arguments, an infinite number and a negative
zero in a vector. -/
theorem eq_of_compactText_ways :
    let tag (name : String) (slot : Nat) : TagSpec := ⟨name, slot, "on", ["off", "on"]⟩
    let spec : ActionSpec := ⟨"Heal", [tag "b" 5, tag "a" 2], []⟩
    let schema := Schema.ofCatalog
      ⟨[⟨"PLAYER ACTION", "Heal", spec.tags, []⟩], [⟨"PLAYER ACTION", "player_action"⟩]⟩
    let args : List Item := [⟨0, .number (.infinite true)⟩,
      ⟨1, .vector (.zero true) (.zero false) (.ofPattern false 1)⟩,
      ⟨2, .tag "player_action" "Heal" "a" "off"⟩]
    let start : Codeblock :=
      ⟨"player_action", none, some "Heal", args, none, [("b", "on"), ("a", "on")]⟩
    let b := { start.withTarget (some "Victim") with tags := [("b", "on"), ("a", "off")] }
    let b' := { start with tags := [("b", "on"), ("a", "off")] }.withTarget (some "Victim")
    Codeblock.new schema "player_action" (some "Heal") args = .ok start ∧
      (start.withTarget (some "Victim")).setTag schema "a" "off" = .ok b ∧
      start.setTag schema "a" "off" = .ok { start with tags := [("b", "on"), ("a", "off")] } ∧
      (∀ item ∈ args, item.kind.Legible) ∧ (∃ j, b.toJson schema = .ok j) ∧ b = b' := by
  intro tag spec schema args start b b'
  have hnew : Codeblock.new schema "player_action" (some "Heal") args = .ok start := rfl
  have hspec : schema.blockAction "player_action" (some "Heal") = .ok spec := rfl
  have hset : (start.withTarget (some "Victim")).setTag schema "a" "off" = .ok b := rfl
  have hset' : start.setTag schema "a" "off" =
      .ok { start with tags := [("b", "on"), ("a", "off")] } := rfl
  have hstart : Built schema start := .new hspec (by decide) hnew
  have hlegible : ∀ item ∈ args, item.kind.Legible := by
    simp only [args, List.forall_mem_cons, ItemKind.Legible]
    exact ⟨by decide, ⟨rfl, rfl, rfl⟩, trivial, List.forall_mem_nil _⟩
  obtain ⟨j, hj⟩ : ∃ j, b.toJson schema = .ok j := by
    have hstored : schema.blockAction b.kind b.action = .ok spec := rfl
    apply toJson_ok hstored
    rw [refusing?_eq_none]
    intro t ht
    rw [(inSlotOrder_sortTags _).perm.mem_iff] at ht
    revert t
    decide
  exact ⟨hnew, hset, hset', hlegible, ⟨j, hj⟩,
    eq_of_compactText ((hstart.withTarget _).setTag hset) ((hstart.setTag hset').withTarget _)
      hlegible hlegible hj hj rfl⟩

end Codeblock

end DiamondScript
