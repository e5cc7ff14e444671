import DiamondScript.Proofs.Items
import DiamondScript.Proofs.Lookup

namespace DiamondScript

namespace Json

def field? (name : String) : Json → Option Json
  | .obj fields => Table.find? fields name
  | _ => none

theorem find?_insertField (name : String) (value : Json) (fields : List (String × Json))
    (query : String) :
    Table.find? (insertField name value fields) query =
      if query = name then some value else Table.find? fields query := by
  induction fields with
  | nil => rw [insertField, Table.find?_cons]
  | cons field rest ih =>
      obtain ⟨key, v⟩ := field
      rw [insertField]
      by_cases hlt : name < key
      · rw [if_pos hlt, Table.find?_cons]
      · rw [if_neg hlt]
        by_cases heq : name = key
        · rw [if_pos heq, Table.find?_cons, Table.find?_cons, heq]
          split <;> rfl
        · rw [if_neg heq, Table.find?_cons, Table.find?_cons, ih]
          by_cases h : query = key
          · rw [if_pos h, if_pos h, if_neg fun hname => heq (hname.symm.trans h)]
          · rw [if_neg h, if_neg h]

theorem find?_foldl_insertField (fields sorted : List (String × Json)) (query : String) :
    Table.find? (fields.foldl (fun sorted (n, v) => insertField n v sorted) sorted) query =
      (Table.find? fields.reverse query).or (Table.find? sorted query) := by
  induction fields generalizing sorted with
  | nil => rfl
  | cons field rest ih =>
      obtain ⟨key, v⟩ := field
      have hone : Table.find? [(key, v)] query = if query = key then some v else none :=
        Table.find?_cons key v [] query
      rw [List.foldl_cons, ih, find?_insertField, List.reverse_cons, Table.find?_append,
        Option.or_assoc, hone]
      congr 1
      split <;> rfl

/-- Of equal fields the last one stands. -/
theorem field?_object (fields : List (String × Json)) (name : String) :
    (object fields).field? name = Table.find? fields.reverse name := by
  rw [object, field?, find?_foldl_insertField]
  exact Option.or_none

end Json

namespace Codeblock

/-- The tags in ascending slots, in their own order where slots agree. -/
structure InSlotOrder (sorted tags : List TagSpec) : Prop where
  perm : sorted.Perm tags
  ascending : sorted.Pairwise fun a b => a.slot ≤ b.slot
  stable : ∀ slot, sorted.filter (fun t => t.slot = slot) = tags.filter fun t => t.slot = slot

theorem inSlotOrder_sortTags (tags : List TagSpec) : InSlotOrder (sortTags tags) tags := by
  have htrans : ∀ a b c : TagSpec, decide (a.slot ≤ b.slot) = true →
      decide (b.slot ≤ c.slot) = true → decide (a.slot ≤ c.slot) = true := by
    intro a b c hab hbc
    simp only [decide_eq_true_eq] at hab hbc ⊢
    exact Nat.le_trans hab hbc
  have htotal : ∀ a b : TagSpec, (decide (a.slot ≤ b.slot) || decide (b.slot ≤ a.slot)) = true := by
    intro a b
    simpa using Nat.le_total a.slot b.slot
  have hperm := List.mergeSort_perm tags fun a b => a.slot ≤ b.slot
  refine ⟨hperm, ?_, fun slot => ?_⟩
  · exact (List.pairwise_mergeSort htrans htotal tags).imp fun h => of_decide_eq_true h
  · -- Tags of one slot are sorted as they stand, so the sort keeps them as a sublist.
    have hsame : (tags.filter fun t => t.slot = slot).Pairwise
        fun a b => decide (a.slot ≤ b.slot) = true := by
      refine List.pairwise_of_forall_mem_list fun a ha b hb => ?_
      have ha := (List.mem_filter.mp ha).2
      have hb := (List.mem_filter.mp hb).2
      simp only [decide_eq_true_eq] at ha hb ⊢
      exact Nat.le_of_eq (ha.trans hb.symm)
    have hsub := (List.sublist_mergeSort htrans htotal hsame List.filter_sublist).filter
      fun t => t.slot = slot
    rw [List.filter_filter] at hsub
    simp only [Bool.and_self] at hsub
    exact (hsub.eq_of_length (hperm.filter _).length_eq.symm).symm

theorem tagItems_cons {schema : Schema} {b : Codeblock} {action : String} {slot : Nat}
    {t : TagSpec} {rest : List TagSpec} {items : List Item}
    (h : b.tagItems schema action slot (t :: rest) = .ok items) :
    ∃ option later, t.allows option ∧ b.tagItems schema action (slot + 1) rest = .ok later ∧
      items = ⟨slot, .tag b.kind action t.name option⟩ :: later := by
  rw [tagItems] at h
  split at h
  case isTrue hallows =>
    obtain ⟨later, hlater, h⟩ := bind_eq_ok.mp h
    cases h
    exact ⟨_, later, hallows, hlater, rfl⟩
  case isFalse =>
    obtain ⟨category, -, h⟩ := bind_eq_ok.mp h
    cases h

theorem tagItems_slots {schema : Schema} {b : Codeblock} {action : String} {slot : Nat}
    {tags : List TagSpec} {items : List Item}
    (h : b.tagItems schema action slot tags = .ok items) :
    items.map Item.slot = List.range' slot items.length := by
  induction tags generalizing slot items with
  | nil =>
      cases h
      rfl
  | cons t rest ih =>
      obtain ⟨option, later, -, hlater, rfl⟩ := tagItems_cons h
      rw [List.map_cons, ih hlater]
      rfl

theorem tagItems_kinds {schema : Schema} {b : Codeblock} {action : String} {slot : Nat}
    {tags : List TagSpec} {items : List Item}
    (h : b.tagItems schema action slot tags = .ok items) :
    List.Forall₂ (fun item t => ∃ option, t.allows option ∧
      item.kind = .tag b.kind action t.name option) items tags := by
  induction tags generalizing slot items with
  | nil =>
      cases h
      exact .nil
  | cons t rest ih =>
      obtain ⟨option, later, hallows, hlater, rfl⟩ := tagItems_cons h
      exact .cons ⟨option, hallows, rfl⟩ (ih hlater)

theorem items_eq_ok {schema : Schema} {b : Codeblock} {items : List Item}
    (h : b.items schema = .ok items) :
    ∃ spec tags, schema.blockAction b.kind b.action = .ok spec ∧
      b.tagItems schema spec.name b.args.length (sortTags spec.tags) = .ok tags ∧
      items = b.args ++ tags := by
  rw [Codeblock.items] at h
  obtain ⟨spec, hspec, h⟩ := bind_eq_ok.mp h
  obtain ⟨tags, htags, h⟩ := bind_eq_ok.mp h
  cases h
  refine ⟨spec, tags, ?_, htags, rfl⟩
  rw [Codeblock.spec] at hspec
  cases haction : schema.blockAction b.kind b.action with
  | error e =>
      rw [haction] at hspec
      cases hspec
  | ok spec' =>
      rw [haction] at hspec
      cases hspec
      rfl

def jsonItems? (j : Json) : Option (List Json) :=
  match (j.field? "args").bind (Json.field? "items") with
  | some (.arr items) => some items
  | _ => none

theorem toJson_items {schema : Schema} {b : Codeblock} {j : Json} (h : b.toJson schema = .ok j) :
    ∃ items, b.items schema = .ok items ∧ jsonItems? j = some (items.map Item.toJson) := by
  obtain ⟨items, hitems, h⟩ := bind_eq_ok.mp h
  cases h
  refine ⟨items, hitems, ?_⟩
  have hargs : Json.field? "args" (.object ([("id", .str "block"), ("block", .str b.kind),
      ("args", .object [("items", .arr (items.map Item.toJson))])]
      ++ optionalField "data" b.data ++ optionalField "action" b.action
      ++ optionalField "target" b.target)) =
      some (.object [("items", .arr (items.map Item.toJson))]) := by
    rw [Json.field?_object]
    cases b.data <;> cases b.action <;> cases b.target <;> rfl
  rw [jsonItems?, hargs, Option.bind_some, Json.field?_object]
  rfl

theorem slot_toJson (item : Item) : item.toJson.field? "slot" = some (.nat item.slot) := by
  rw [Item.toJson, Json.field?_object]
  rfl

end Codeblock

namespace Machine

open Codegen

theorem Within.code_ne {vars : List Var} {item : Item} (h : Within vars item) :
    item.kind.code ≠ "bl_tag" := by
  obtain ⟨slot, kind⟩ := item
  cases kind with
  | tag => cases h
  | _ => simp [ItemKind.code]

theorem numberSlots_slots (items : List Item) (slot : Nat) :
    (numberSlots slot items).map Item.slot =
      List.range' slot (numberSlots slot items).length := by
  induction items generalizing slot with
  | nil => rfl
  | cons item rest ih =>
      rw [numberSlots, List.map_cons, ih]
      rfl

theorem uses_generate {schema : Schema} {definitions : List Definition} {program : Program}
    (h : generate schema definitions = .ok program) {line : Codeline}
    (hline : line ∈ program.lines) {b : Codeblock} (hb : b ∈ line.blocks) :
    ∃ vars, Uses vars b := by
  obtain ⟨k, hk⟩ := List.mem_iff_getElem?.mp hline
  obtain ⟨r, -, hr⟩ := forall₂_getElem? (generate_lines h).flip hk
  obtain ⟨head, parts, rfl, hhead, hlength, hparts⟩ := genFunction_parts hr
  rcases List.mem_cons.mp hb with rfl | hb
  · exact ⟨[], hhead⟩
  · obtain ⟨part, hpart, hb⟩ := List.mem_flatten.mp hb
    obtain ⟨i, hi⟩ := List.mem_iff_getElem?.mp hpart
    have hlt : i < r.body.length := by
      rw [← hlength]
      exact (List.getElem?_eq_some_iff.mp hi).1
    obtain ⟨em, hem, rfl⟩ := hparts i _ part (List.getElem?_eq_getElem hlt) hi
    exact ⟨_, uses_genStmt hem b hb⟩

/-- The items of a block as written: the arguments and behind them one item for each tag of its
action by ascending slot, in consecutive slots from 0 on. -/
theorem generate_wire {schema : Schema} {definitions : List Definition} {program : Program}
    (h : generate schema definitions = .ok program) {line : Codeline}
    (hline : line ∈ program.lines) {b : Codeblock} (hb : b ∈ line.blocks) {j : Json}
    (hj : b.toJson schema = .ok j) :
    ∃ spec tags, schema.blockAction b.kind b.action = .ok spec ∧
      Codeblock.jsonItems? j = some ((b.args ++ tags).map Item.toJson) ∧
      ((b.args ++ tags).map Item.toJson).map (Json.field? "slot") =
        (List.range (b.args.length + spec.tags.length)).map (fun i => some (.nat i)) ∧
      (∀ item ∈ b.args, item.kind.code ≠ "bl_tag") ∧
      Codeblock.InSlotOrder (Codeblock.sortTags spec.tags) spec.tags ∧
      List.Forall₂ (fun item t => ∃ option, t.allows option ∧
        item.kind = .tag b.kind spec.name t.name option) tags (Codeblock.sortTags spec.tags) := by
  obtain ⟨items, hitems, hjson⟩ := Codeblock.toJson_items hj
  obtain ⟨spec, tags, hspec, htags, rfl⟩ := Codeblock.items_eq_ok hitems
  have horder := Codeblock.inSlotOrder_sortTags spec.tags
  have hkinds := Codeblock.tagItems_kinds htags
  obtain ⟨vars, huses⟩ := uses_generate h hline hb
  refine ⟨spec, tags, hspec, hjson, ?_, ?_, horder, hkinds⟩
  · have hslots : (b.args ++ tags).map Item.slot =
        List.range (b.args.length + spec.tags.length) := by
      obtain ⟨args, hargs⟩ := huses.numbered
      rw [List.map_append, Codeblock.tagItems_slots htags, hkinds.length_eq,
        horder.perm.length_eq, hargs, numberSlots_slots, List.range_eq_range',
        ← List.range'_append_1, Nat.zero_add]
    rw [← hslots, List.map_map, List.map_map]
    exact List.map_congr_left fun item _ => Codeblock.slot_toJson item
  · exact fun item hm => (huses.within item hm).code_ne

/-- A block with one argument and three tags that the catalog does not list by slot. -/
theorem generate_wire_tags :
    let tag (name : String) (slot : Nat) : TagSpec := ⟨name, slot, "on", ["off", "on"]⟩
    let schema := Schema.ofCatalog ⟨[⟨"PLAYER ACTION", "Heal", [tag "b" 5, tag "a" 2, tag "c" 5],
      [⟨some "NUMBER", false, false⟩]⟩], [⟨"FUNCTION", "func"⟩, ⟨"PLAYER ACTION", "player_action"⟩]⟩
    let heal : Expr := .action default ⟨"Heal", "PLAYER ACTION", none⟩
      [.number default (.ofPattern false 1)]
    let definitions : List Definition := [.func ⟨"main", [], some [.expr heal], default⟩]
    ∃ program line b j, generate schema definitions = .ok program ∧ line ∈ program.lines ∧
      b ∈ line.blocks ∧ b.toJson schema = .ok j ∧ b.args.length = 1 ∧
      ∃ tags, Codeblock.jsonItems? j = some ((b.args ++ tags).map Item.toJson) ∧
        ((b.args ++ tags).map Item.toJson).map (Json.field? "slot") =
          [some (.nat 0), some (.nat 1), some (.nat 2), some (.nat 3)] ∧
        List.Forall₂ (fun item t => ∃ option, t.allows option ∧
            item.kind = .tag "player_action" "Heal" t.name option)
          tags [tag "a" 2, tag "b" 5, tag "c" 5] := by
  intro tag schema heal definitions
  have hsorted : Codeblock.sortTags [tag "b" 5, tag "a" 2, tag "c" 5] =
      [tag "a" 2, tag "b" 5, tag "c" 5] := by
    simp [tag, Codeblock.sortTags, List.mergeSort, List.MergeSort.Internal.splitInTwo]
  let b : Codeblock := ⟨"player_action", none, some "Heal",
    [⟨0, .number (.ofPattern false 1)⟩], none, [("b", "on"), ("a", "on"), ("c", "on")]⟩
  obtain ⟨program, line, hok, hline, hb⟩ : ∃ program line,
      generate schema definitions = .ok program ∧ line ∈ program.lines ∧ b ∈ line.blocks :=
    ⟨_, _, rfl, List.mem_cons_self, List.mem_cons_of_mem _ List.mem_cons_self⟩
  have hspec : schema.blockAction b.kind b.action = .ok ⟨"Heal", [tag "b" 5, tag "a" 2, tag "c" 5],
      [⟨"NUMBER", false, false⟩]⟩ := rfl
  obtain ⟨items, hitems⟩ : ∃ items, b.items schema = .ok items := by
    rw [Codeblock.items, Codeblock.spec, hspec]
    change ∃ items, (b.tagItems schema "Heal" 1 (Codeblock.sortTags
      [tag "b" 5, tag "a" 2, tag "c" 5]) >>= fun tags => .ok (b.args ++ tags)) = .ok items
    rw [hsorted]
    exact ⟨_, rfl⟩
  obtain ⟨j, hj⟩ : ∃ j, b.toJson schema = .ok j := by
    rw [Codeblock.toJson, hitems]
    exact ⟨_, rfl⟩
  obtain ⟨spec, tags, hspec', hjson, hslots, -, -, hkinds⟩ := generate_wire hok hline hb hj
  cases hspec.symm.trans hspec'
  rw [hsorted] at hkinds
  exact ⟨program, line, b, j, hok, hline, hb, hj, rfl, tags, hjson, hslots, hkinds⟩

end Machine
end DiamondScript
