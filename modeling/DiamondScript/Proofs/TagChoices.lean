import DiamondScript.Proofs.NativeCalls
import Mathlib.Data.List.Nodup

namespace DiamondScript

namespace Table

variable {α : Type}

theorem keys_insert {t : Table α} {name : String} (h : name ∈ t.map Prod.fst) (a : α) :
    (t.insert name a).map Prod.fst = t.map Prod.fst := by
  induction t with
  | nil => cases h
  | cons e rest ih =>
      obtain ⟨key, b⟩ := e
      by_cases hkey : key = name
      · rw [insert, if_pos hkey, List.map_cons, List.map_cons, hkey]
      · have hrest := (List.mem_cons.mp h).resolve_left (Ne.symm hkey)
        rw [insert, if_neg hkey, List.map_cons, List.map_cons, ih hrest]

theorem insert_new {t : Table α} {name : String} (h : name ∉ t.map Prod.fst) (a : α) :
    t.insert name a = t ++ [(name, a)] := by
  induction t with
  | nil => rfl
  | cons e rest ih =>
      obtain ⟨key, b⟩ := e
      rw [List.map_cons, List.mem_cons, not_or] at h
      rw [insert, if_neg (Ne.symm h.1), ih h.2, List.cons_append]

theorem find?_eq_none {t : Table α} {name : String} :
    t.find? name = none ↔ name ∉ t.map Prod.fst := by
  induction t with
  | nil => simp [find?]
  | cons e rest ih =>
      rw [find?_cons, List.map_cons, List.mem_cons, not_or, ← ih]
      split <;> simp_all

theorem entry_of_find? {t : Table α} {name : String} {a : α} (h : t.find? name = some a) :
    (name, a) ∈ t := by
  obtain ⟨front, back, rfl, -⟩ := List.lookup_eq_some_iff.mp h
  simp

end Table

namespace Codeblock

abbrev Choice := String × String

section

variable (schema : Schema)

/-- The block after a choice. One that is refused leaves it as it was. -/
def afterChoice (b : Codeblock) (c : Choice) : Codeblock :=
  match b.setTag schema c.1 c.2 with
  | .ok next => next
  | .error _ => b

def afterChoices (b : Codeblock) (cs : List Choice) : Codeblock := cs.foldl (afterChoice schema) b

def accepted (b : Codeblock) : List Choice → List Choice
  | [] => []
  | c :: rest =>
    match b.setTag schema c.1 c.2 with
    | .ok next => c :: accepted next rest
    | .error _ => accepted b rest

end

def lastOption? (cs : List Choice) (tag : String) : Option String := Table.find? cs.reverse tag

/-- A tag that is not chosen and whose default is none of its options. -/
def Unfit (cs : List Choice) (t : TagSpec) : Prop :=
  t.name ∉ cs.map Prod.fst ∧ ¬ t.allows t.defaultOption

instance (cs : List Choice) (t : TagSpec) : Decidable (Unfit cs t) :=
  inferInstanceAs (Decidable (t.name ∉ cs.map Prod.fst ∧ ¬ t.allows t.defaultOption))

/-- Of the tags with a property the one in the lowest slot, the first of them where slots agree. -/
def LowestSlot (P : TagSpec → Prop) (tags : List TagSpec) (t : TagSpec) : Prop :=
  ∃ before after, tags = before ++ t :: after ∧ P t ∧ (∀ u ∈ before, P u → t.slot < u.slot) ∧
    ∀ u ∈ after, P u → t.slot ≤ u.slot

theorem lastOption?_eq_none {cs : List Choice} {tag : String} :
    lastOption? cs tag = none ↔ tag ∉ cs.map Prod.fst := by
  rw [lastOption?, Table.find?_eq_none, List.map_reverse, List.mem_reverse]

inductive Chooses (schema : Schema) (spec : ActionSpec) (c : Choice) (now next : Codeblock) : Prop
  | set {t : TagSpec} (listed : t ∈ spec.tags) (named : t.name = c.1) (allowed : t.allows c.2)
      (succeeds : now.setTag schema c.1 c.2 = .ok next)
      (rest : next = { now with tags := next.tags })
      (keys : next.tags.map Prod.fst = now.tags.map Prod.fst)
      (options : ∀ name,
        next.tags.find? name = if name = c.1 then some c.2 else now.tags.find? name)
  | unknown (absent : c.1 ∉ spec.tags.map TagSpec.name)
      (fails : now.setTag schema c.1 c.2 = .error (.unknownTag c.1 spec.name)) (same : next = now)
  | invalid {t : TagSpec} {category : String} (listed : t ∈ spec.tags) (named : t.name = c.1)
      (refused : ¬ t.allows c.2) (home : schema.categoryOf now.kind = .ok category)
      (fails : now.setTag schema c.1 c.2 = .error (.invalidOption c.2 c.1 spec.name category))
      (same : next = now)

/-- How a block is written after the given choices. -/
structure Written (schema : Schema) (spec : ActionSpec) (cs : List Choice) (b : Codeblock) :
    Prop where
  succeeds : (∃ j, b.toJson schema = .ok j) ↔ ∀ t ∈ spec.tags, ¬ Unfit cs t
  refuses : ∀ e, b.toJson schema = .error e → ∃ t category, LowestSlot (Unfit cs) spec.tags t ∧
    schema.categoryOf b.kind = .ok category ∧
    e = .invalidOption t.defaultOption t.name spec.name category
  shows : ∀ j, b.toJson schema = .ok j → ∃ sorted items, InSlotOrder sorted spec.tags ∧
    jsonItems? j = some ((b.args ++ items).map Item.toJson) ∧
    List.Forall₂ (fun item t => item.kind =
      .tag b.kind spec.name t.name ((lastOption? cs t.name).getD t.defaultOption)) items sorted

variable {schema : Schema} {spec : ActionSpec}

theorem new_eq_ok {kind : String} {action : Option String} {args : List Item} {b : Codeblock} :
    Codeblock.new schema kind action args = .ok b ↔
      ∃ spec, schema.blockAction kind action = .ok spec ∧
        b = ⟨kind, none, if Schema.isDynamic kind then none else action, args, none,
          defaultTags spec.tags⟩ := by
  rw [Codeblock.new, bind_eq_ok]
  simp only [Except.ok.injEq, eq_comm (b := b)]

theorem foldl_insert_new (tags : List TagSpec) (t : Table String)
    (h : (t.map Prod.fst ++ tags.map TagSpec.name).Nodup) :
    tags.foldl (fun t tag => t.insert tag.name tag.defaultOption) t =
      t ++ tags.map fun tag => (tag.name, tag.defaultOption) := by
  induction tags generalizing t with
  | nil => simp
  | cons tag rest ih =>
      have hnew : tag.name ∉ t.map Prod.fst := by
        intro hm
        exact (List.nodup_append.mp h).2.2 _ hm _ List.mem_cons_self rfl
      rw [List.foldl_cons, Table.insert_new hnew, ih, List.append_assoc]
      · rfl
      · rw [List.map_append, List.append_assoc]
        exact h

theorem defaultTags_eq {tags : List TagSpec} (h : (tags.map TagSpec.name).Nodup) :
    defaultTags tags = tags.map fun tag => (tag.name, tag.defaultOption) :=
  foldl_insert_new tags [] h

theorem forall₂_imp_mem {α β : Type} {R S : α → β → Prop} {as : List α} {bs : List β}
    (h : List.Forall₂ R as bs) (himp : ∀ b ∈ bs, ∀ a, R a b → S a b) : List.Forall₂ S as bs := by
  induction h with
  | nil => exact .nil
  | cons head _ ih =>
      obtain ⟨himp, hrest⟩ := List.forall_mem_cons.mp himp
      exact .cons (himp _ head) (ih hrest)

theorem initial_eq {tags : List TagSpec} (h : (tags.map TagSpec.name).Nodup) {t : TagSpec}
    (ht : t ∈ tags) : t.initial tags = t.defaultOption := by
  rw [TagSpec.initial]
  cases hfind : tags.reverse.find? fun u => u.name == t.name with
  | none => rfl
  | some u =>
      have hname : u.name = t.name := by simpa using List.find?_some hfind
      have hu := List.mem_reverse.mp (List.mem_of_find?_eq_some hfind)
      rw [List.inj_on_of_nodup_map h hu ht hname]
      rfl

structure Tagged (schema : Schema) (spec : ActionSpec) (b : Codeblock) : Prop where
  known : schema.blockAction b.kind b.action = .ok spec
  keys : b.tags.map Prod.fst = spec.tags.map TagSpec.name

theorem setTag_eq {b : Codeblock} (hspec : schema.blockAction b.kind b.action = .ok spec)
    {category : String} (hcategory : schema.categoryOf b.kind = .ok category)
    (tag option : String) :
    b.setTag schema tag option =
      match spec.tags.find? fun t => t.name == tag with
      | none => .error (.unknownTag tag spec.name)
      | some t =>
        if t.allows option then .ok { b with tags := b.tags.insert tag option }
        else .error (.invalidOption option tag spec.name category) := by
  have hshown : b.spec schema = .ok spec := by
    rw [Codeblock.spec, hspec]
    rfl
  have hinvalid : b.invalidOption schema option tag spec.name =
      (.error (.invalidOption option tag spec.name category) : Except BlockError Codeblock) := by
    rw [invalidOption, hcategory]
    rfl
  rw [setTag, hshown, ← hinvalid]
  rfl

theorem setTag_eq_ok {b next : Codeblock} {tag option : String}
    (h : b.setTag schema tag option = .ok next) :
    next = { b with tags := b.tags.insert tag option } := by
  rw [setTag] at h
  obtain ⟨spec, -, h⟩ := bind_eq_ok.mp h
  split at h
  · cases h
  · split at h
    · exact (Except.ok.inj h).symm
    · obtain ⟨category, -, h⟩ := bind_eq_ok.mp h
      cases h

theorem afterChoice_of_ok {b next : Codeblock} {c : Choice}
    (h : b.setTag schema c.1 c.2 = .ok next) : b.afterChoice schema c = next := by
  rw [afterChoice, h]

theorem afterChoice_of_error {b : Codeblock} {c : Choice} {e : BlockError}
    (h : b.setTag schema c.1 c.2 = .error e) : b.afterChoice schema c = b := by
  rw [afterChoice, h]

theorem chooses_afterChoice {b : Codeblock} (h : b.Tagged schema spec) (c : Choice) :
    Chooses schema spec c b (b.afterChoice schema c) := by
  obtain ⟨category, hcategory⟩ := categoryOf_of_blockAction h.known
  have hset := setTag_eq h.known hcategory c.1 c.2
  cases hfind : spec.tags.find? fun t => t.name == c.1 with
  | none =>
      simp only [hfind] at hset
      refine .unknown ?_ hset (afterChoice_of_error hset)
      intro hm
      obtain ⟨t, ht, hname⟩ := List.mem_map.mp hm
      exact List.find?_eq_none.mp hfind t ht (beq_iff_eq.mpr hname)
  | some t =>
      have ht := List.mem_of_find?_eq_some hfind
      have hname : t.name = c.1 := by simpa using List.find?_some hfind
      simp only [hfind] at hset
      by_cases hallows : t.allows c.2
      · rw [if_pos hallows] at hset
        have hkey : c.1 ∈ b.tags.map Prod.fst := by
          rw [h.keys, ← hname]
          exact List.mem_map_of_mem ht
        rw [afterChoice_of_ok hset]
        exact .set ht hname hallows hset rfl (Table.keys_insert hkey c.2)
          (Table.find?_insert b.tags c.1 c.2)
      · rw [if_neg hallows] at hset
        exact .invalid ht hname hallows hcategory hset (afterChoice_of_error hset)

theorem Chooses.tagged {now next : Codeblock} {c : Choice} (h : Chooses schema spec c now next)
    (hnow : now.Tagged schema spec) : next.Tagged schema spec := by
  cases h with
  | set _ _ _ _ rest keys =>
      rw [rest]
      exact ⟨hnow.known, keys.trans hnow.keys⟩
  | unknown _ _ same | invalid _ _ _ _ _ same => rwa [same]

theorem tagged_afterChoices {b : Codeblock} (h : b.Tagged schema spec) (cs : List Choice) :
    (b.afterChoices schema cs).Tagged schema spec := by
  induction cs generalizing b with
  | nil => exact h
  | cons c rest ih => exact ih ((chooses_afterChoice h c).tagged h)

theorem afterChoices_eq (b : Codeblock) (cs : List Choice) :
    b.afterChoices schema cs =
      { b with tags := (b.accepted schema cs).foldl (fun t c => t.insert c.1 c.2) b.tags } := by
  induction cs generalizing b with
  | nil => rfl
  | cons c rest ih =>
      rw [afterChoices, List.foldl_cons, ← afterChoices, ih, accepted]
      cases hset : b.setTag schema c.1 c.2 with
      | error e => rw [afterChoice_of_error hset]
      | ok next =>
          rw [afterChoice_of_ok hset, setTag_eq_ok hset]
          rfl

theorem allowed_of_accepted {b : Codeblock} (h : b.Tagged schema spec) {cs : List Choice}
    {c : Choice} (hc : c ∈ b.accepted schema cs) :
    ∃ t ∈ spec.tags, t.name = c.1 ∧ t.allows c.2 := by
  induction cs generalizing b with
  | nil => cases hc
  | cons d rest ih =>
      have hnext := (chooses_afterChoice h d).tagged h
      rw [accepted] at hc
      cases chooses_afterChoice h d with
      | set listed named allowed succeeds =>
          simp only [succeeds] at hc
          rcases List.mem_cons.mp hc with rfl | hc
          · exact ⟨_, listed, named, allowed⟩
          · exact ih hnext hc
      | unknown _ fails | invalid _ _ _ _ fails =>
          simp only [fails] at hc
          exact ih h hc

/-- Sorting keeps the order of tags in one slot, so the first to be found is the first listed. -/
theorem lowestSlot_of_find? {sorted tags : List TagSpec} (horder : InSlotOrder sorted tags)
    {p : TagSpec → Bool} {t : TagSpec} (h : sorted.find? p = some t) :
    LowestSlot (fun u => p u) tags t := by
  obtain ⟨hp, pre, post, hsplit, hpre⟩ := List.find?_eq_some_iff_append.mp h
  have hlow : ∀ u ∈ tags, p u → t.slot ≤ u.slot := by
    intro u hu hpu
    have hascending := horder.ascending
    rw [← horder.perm.mem_iff, hsplit] at hu
    rw [hsplit] at hascending
    rcases List.mem_append.mp hu with hu | hu
    · have hnot := hpre u hu
      rw [hpu] at hnot
      cases hnot
    · rcases List.mem_cons.mp hu with rfl | hu
      · exact Nat.le_refl _
      · exact (List.pairwise_cons.mp (List.pairwise_append.mp hascending).2.1).1 u hu
  have hslot : (sorted.filter fun u => u.slot = t.slot).find? p = some t := by
    rw [List.find?_filter, List.find?_eq_some_iff_append]
    refine ⟨by simp [hp], pre, post, hsplit, fun u hu => ?_⟩
    have hnot := hpre u hu
    simp_all
  rw [horder.stable, List.find?_filter] at hslot
  obtain ⟨-, before, after, rfl, hbefore⟩ := List.find?_eq_some_iff_append.mp hslot
  refine ⟨before, after, rfl, hp, fun u hu hpu => ?_, fun u hu hpu => ?_⟩
  · have hle := hlow u (List.mem_append_left _ hu) hpu
    have hne : u.slot ≠ t.slot := by
      have hnot := hbefore u hu
      simpa [hpu] using hnot
    omega
  · exact hlow u (List.mem_append_right _ (List.mem_cons_of_mem _ hu)) hpu

section

variable {b : Codeblock} {cs : List Choice} {t : TagSpec}
  (hdistinct : (spec.tags.map TagSpec.name).Nodup)

include hdistinct

theorem tagged_of_defaults (hspec : schema.blockAction b.kind b.action = .ok spec)
    (htags : b.tags = defaultTags spec.tags) : b.Tagged schema spec := by
  refine ⟨hspec, ?_⟩
  rw [htags, defaultTags_eq hdistinct, List.map_map]
  rfl

theorem chosen_afterChoices (htags : b.tags = defaultTags spec.tags) (ht : t ∈ spec.tags) :
    (b.afterChoices schema cs).chosen t =
      (lastOption? (b.accepted schema cs) t.name).getD t.defaultOption := by
  have hinitial := chosen_of_seeded htags t
  rw [initial_eq hdistinct ht, chosen] at hinitial
  rw [afterChoices_eq, chosen, Table.find?_foldl_insert Prod.fst Prod.snd, ← Table.find?_eq_map,
    lastOption?]
  cases Table.find? (b.accepted schema cs).reverse t.name with
  | none => exact hinitial
  | some option => rfl

theorem allows_chosen_iff (h : b.Tagged schema spec) (htags : b.tags = defaultTags spec.tags)
    (ht : t ∈ spec.tags) :
    t.allows ((b.afterChoices schema cs).chosen t) ↔ ¬ Unfit (b.accepted schema cs) t := by
  rw [chosen_afterChoices hdistinct htags ht, Unfit]
  cases hlast : lastOption? (b.accepted schema cs) t.name with
  | none =>
      have hnever := lastOption?_eq_none.mp hlast
      simp [hnever]
  | some option =>
      have hmem := List.mem_reverse.mp (Table.entry_of_find? hlast)
      obtain ⟨u, hu, hname, hallows⟩ := allowed_of_accepted h hmem
      rw [List.inj_on_of_nodup_map hdistinct hu ht hname] at hallows
      have hchosen : t.name ∈ (b.accepted schema cs).map Prod.fst :=
        List.mem_map_of_mem hmem
      simp [hallows, hchosen]

theorem refusing?_afterChoices (h : b.Tagged schema spec) (htags : b.tags = defaultTags spec.tags) :
    (b.afterChoices schema cs).refusing? (sortTags spec.tags) = none ↔
      ∀ t ∈ spec.tags, ¬ Unfit (b.accepted schema cs) t := by
  have hperm := (inSlotOrder_sortTags spec.tags).perm
  rw [refusing?_eq_none]
  constructor
  · exact fun hall t ht =>
      (allows_chosen_iff hdistinct h htags ht).mp (hall t (hperm.mem_iff.mpr ht))
  · exact fun hall t ht =>
      (allows_chosen_iff hdistinct h htags (hperm.mem_iff.mp ht)).mpr (hall t (hperm.mem_iff.mp ht))

theorem lowestSlot_of_refusing? (h : b.Tagged schema spec)
    (htags : b.tags = defaultTags spec.tags)
    (ht : (b.afterChoices schema cs).refusing? (sortTags spec.tags) = some t) :
    LowestSlot (Unfit (b.accepted schema cs)) spec.tags t := by
  obtain ⟨before, after, hsplit, hrefused, hbefore, hafter⟩ :=
    lowestSlot_of_find? (inSlotOrder_sortTags spec.tags) ht
  have hunfit : ∀ u ∈ spec.tags, Unfit (b.accepted schema cs) u ↔
      (!u.allows ((b.afterChoices schema cs).chosen u)) = true := by
    intro u hu
    rw [Bool.not_eq_true', ← Bool.not_eq_true, allows_chosen_iff hdistinct h htags hu, not_not]
  refine ⟨before, after, hsplit, (hunfit t ?_).mpr hrefused, fun u hu hP => ?_, fun u hu hP => ?_⟩
  · simp [hsplit]
  · exact hbefore u hu ((hunfit u (by simp [hsplit, hu])).mp hP)
  · exact hafter u hu ((hunfit u (by simp [hsplit, hu])).mp hP)

theorem written_afterChoices (hspec : schema.blockAction b.kind b.action = .ok spec)
    (htags : b.tags = defaultTags spec.tags) :
    Written schema spec (b.accepted schema cs) (b.afterChoices schema cs) := by
  have h := tagged_of_defaults hdistinct hspec htags
  have hknown := (tagged_afterChoices h cs).known
  obtain ⟨category, hcategory⟩ := categoryOf_of_blockAction hknown
  have hnone : (b.afterChoices schema cs).refusing? (sortTags spec.tags) = none ↔
      ∀ t ∈ spec.tags, ¬ Unfit (b.accepted schema cs) t :=
    refusing?_afterChoices hdistinct h htags
  refine ⟨⟨?_, fun hall => toJson_ok hknown (hnone.mpr hall)⟩, fun e he => ?_, fun j hj => ?_⟩
  · rintro ⟨j, hj⟩
    rw [← hnone]
    cases hr : (b.afterChoices schema cs).refusing? (sortTags spec.tags) with
    | none => rfl
    | some t =>
        rw [toJson_refused hknown hcategory hr] at hj
        cases hj
  · cases hr : (b.afterChoices schema cs).refusing? (sortTags spec.tags) with
    | none =>
        obtain ⟨j, hj⟩ := toJson_ok hknown hr
        rw [hj] at he
        cases he
    | some t =>
        have hlowest := lowestSlot_of_refusing? hdistinct h htags hr
        have ht := (inSlotOrder_sortTags spec.tags).perm.mem_iff.mp (List.mem_of_find?_eq_some hr)
        have hshown : (b.afterChoices schema cs).chosen t = t.defaultOption := by
          obtain ⟨before, after, -, hunfit, -⟩ := hlowest
          rw [chosen_afterChoices hdistinct htags ht, lastOption?_eq_none.mpr hunfit.1]
          rfl
        rw [toJson_refused hknown hcategory hr, hshown] at he
        exact ⟨t, category, hlowest, hcategory, (Except.error.inj he).symm⟩
  · obtain ⟨items, hitems, hjson⟩ := toJson_items hj
    obtain ⟨spec', tags, hspec', htagItems, rfl⟩ := items_eq_ok hitems
    cases hknown.symm.trans hspec'
    refine ⟨sortTags spec.tags, tags, inSlotOrder_sortTags spec.tags, hjson, ?_⟩
    refine forall₂_imp_mem (tagItems_chosen htagItems) fun t ht item hitem => ?_
    rw [hitem, chosen_afterChoices hdistinct htags]
    exact (inSlotOrder_sortTags spec.tags).perm.mem_iff.mp ht

end

/-- Tag choices stay valid over any run: every choice either sets an option that its tag lists, or
is refused and changes nothing. The block is written with the last option set for each tag or its
default, unless a tag that was never set has a default that is not among its options. -/
theorem new_choices {kind : String} {action : Option String} {args : List Item} {b : Codeblock}
    (hnew : Codeblock.new schema kind action args = .ok b)
    (hspec : schema.blockAction kind action = .ok spec)
    (hdistinct : (spec.tags.map TagSpec.name).Nodup) (cs : List Choice) :
    (∀ c, Chooses schema spec c (b.afterChoices schema cs) (b.afterChoices schema (cs ++ [c]))) ∧
    Written schema spec (b.accepted schema cs) (b.afterChoices schema cs) := by
  obtain ⟨spec', hspec', rfl⟩ := new_eq_ok.mp hnew
  cases hspec.symm.trans hspec'
  have hstored := (schema.blockAction_stored kind action).trans hspec
  refine ⟨fun c => ?_, written_afterChoices hdistinct hstored rfl⟩
  rw [afterChoices, afterChoices, List.foldl_append]
  exact chooses_afterChoice (tagged_afterChoices (tagged_of_defaults hdistinct hstored rfl) cs) c

/-- Three tags; of five choices the first two and the last are accepted. The tag that is left has a
bad default, so that the block can only be written after one more choice. -/
theorem new_choices_refused :
    let tag (name : String) (slot : Nat) (default : String) : TagSpec :=
      ⟨name, slot, default, ["off", "on"]⟩
    let spec : ActionSpec := ⟨"Heal", [tag "b" 5 "auto", tag "a" 2 "on", tag "c" 5 "none"], []⟩
    let schema := Schema.ofCatalog
      ⟨[⟨"PLAYER ACTION", "Heal", spec.tags, []⟩], [⟨"PLAYER ACTION", "player_action"⟩]⟩
    let b : Codeblock := ⟨"player_action", none, some "Heal", [], none,
      [("b", "auto"), ("a", "on"), ("c", "none")]⟩
    let cs : List Choice := [("b", "on"), ("a", "on"), ("b", "none"), ("d", "on"), ("a", "off")]
    Codeblock.new schema "player_action" (some "Heal") [] = .ok b ∧
      schema.blockAction "player_action" (some "Heal") = .ok spec ∧
      (spec.tags.map TagSpec.name).Nodup ∧
      b.accepted schema cs = [("b", "on"), ("a", "on"), ("a", "off")] ∧
      (∀ c, Chooses schema spec c (b.afterChoices schema cs)
        (b.afterChoices schema (cs ++ [c]))) ∧
      ¬ (∃ j, (b.afterChoices schema cs).toJson schema = .ok j) ∧
      ∃ j, (b.afterChoices schema (cs ++ [("c", "on")])).toJson schema = .ok j := by
  intro tag spec schema b cs
  have hb : Codeblock.new schema "player_action" (some "Heal") [] = .ok b := rfl
  have hspec : schema.blockAction "player_action" (some "Heal") = .ok spec := rfl
  have hdistinct : (spec.tags.map TagSpec.name).Nodup := by decide
  have haccepted : b.accepted schema cs = [("b", "on"), ("a", "on"), ("a", "off")] := rfl
  have haccepted' : b.accepted schema (cs ++ [("c", "on")]) =
      [("b", "on"), ("a", "on"), ("a", "off"), ("c", "on")] := rfl
  obtain ⟨hcalls, hwritten⟩ := new_choices hb hspec hdistinct cs
  have hwritten' := (new_choices hb hspec hdistinct (cs ++ [("c", "on")])).2
  rw [haccepted] at hwritten
  rw [haccepted'] at hwritten'
  refine ⟨hb, hspec, hdistinct, haccepted, hcalls, ?_, hwritten'.succeeds.mpr (by decide)⟩
  rw [hwritten.succeeds]
  decide

end Codeblock
end DiamondScript
