import DiamondScript.Proofs.Datum
import DiamondScript.Proofs.Meaning

namespace DiamondScript

namespace ValueType

mutual

def entryFree : ValueType → Bool
  | .declared _ ps => entryFreeAll ps
  | .literal .. => false

def entryFreeAll : List ValueType → Bool
  | [] => true
  | p :: ps => p.entryFree && entryFreeAll ps

end

mutual

/-- A value of a type: everything is in `any`, a list or dictionary is in a type whose element
type all its elements have, and of anything else only the kind counts. -/
def HasType : ValueType → Datum → Prop
  | .declared b ps, d | .literal b ps _, d =>
    b = .any ∨ d.kind = b ∧ ∀ v ∈ d.elements, HeadHasType ps v

def HeadHasType : List ValueType → Datum → Prop
  | [], _ => True
  | p :: _, d => HasType p d

end

mutual

/-- A value of a type in which also the recorded entries count: every element has the type of
one of them. -/
def Fits : ValueType → Datum → Prop
  | .declared b ps, d => b = .any ∨ d.kind = b ∧ ∀ v ∈ d.elements, FitsHead ps v
  | .literal b ps es, d =>
    b = .any ∨ d.kind = b ∧ ∀ v ∈ d.elements, FitsHead ps v ∧ FitsEntry es v

def FitsHead : List ValueType → Datum → Prop
  | [], _ => True
  | p :: _, d => Fits p d

def FitsEntry : List (EntryKey × ValueType) → Datum → Prop
  | [], _ => False
  | (_, t) :: rest, d => Fits t d ∨ FitsEntry rest d

end

theorem hasType_iff {t : ValueType} {d : Datum} :
    HasType t d ↔ t.base = .any ∨ d.kind = t.base ∧ ∀ v ∈ d.elements, HeadHasType t.params v := by
  cases t <;> simp only [HasType, base, params]

theorem fitsEntry_iff {es : List (EntryKey × ValueType)} {d : Datum} :
    FitsEntry es d ↔ ∃ t ∈ es.map Prod.snd, Fits t d := by
  induction es with
  | nil => simp [FitsEntry]
  | cons e rest ih => simp [FitsEntry, ih]

theorem headHasType_iff {t : ValueType} {d : Datum} :
    HeadHasType t.params d ↔ HasType t.element d := by
  cases h : t.params with
  | nil => simp [HeadHasType, element, h, hasType_iff, any, simple, base]
  | cons p ps => simp [HeadHasType, element, h]

theorem fits_any (d : Datum) : Fits any d := .inl rfl

theorem fitsHead_iff {t : ValueType} {d : Datum} : FitsHead t.params d ↔ Fits t.element d := by
  cases h : t.params with
  | nil => simp [FitsHead, element, h, fits_any]
  | cons p ps => simp [FitsHead, element, h]

theorem Fits.elements {t : ValueType} {d : Datum} (h : Fits t d) (ht : t.base ≠ .any) :
    d.kind = t.base ∧ ∀ v ∈ d.elements, Fits t.element v := by
  cases t with
  | declared b ps =>
      rw [Fits] at h
      obtain ⟨hk, hv⟩ := h.resolve_left ht
      exact ⟨hk, fun v hm => fitsHead_iff.mp (hv v hm)⟩
  | literal b ps es =>
      rw [Fits] at h
      obtain ⟨hk, hv⟩ := h.resolve_left ht
      exact ⟨hk, fun v hm => fitsHead_iff.mp (hv v hm).1⟩

mutual

theorem Fits.of_hasType : ∀ (t : ValueType) {d : Datum}, t.entryFree → HasType t d → Fits t d
  | .declared b ps, d, hf, h => by
      rw [HasType] at h
      rw [Fits]
      exact h.imp_right fun ⟨hk, hv⟩ => ⟨hk, fun v hm => FitsHead.of_hasType ps hf (hv v hm)⟩
  | .literal .., _, hf, _ => by simp [entryFree] at hf

theorem FitsHead.of_hasType :
    ∀ (ps : List ValueType) {d : Datum}, entryFreeAll ps → HeadHasType ps d → FitsHead ps d
  | [], _, _, _ => trivial
  | p :: ps, d, hf, h => by
      rw [entryFreeAll, Bool.and_eq_true] at hf
      exact Fits.of_hasType p hf.1 h

end

theorem isYes_iff {c : Compatibility} : c.isYes = true ↔ c = .yes := by
  cases c <;> simp [Compatibility.isYes]

theorem compare_yes {expected actual : ValueType} (h : expected.compare actual = .yes) :
    expected.base = .any ∨ expected.base = actual.base ∧ (isContainer expected.base →
      match actual.entries? with
      | some es => ∀ e ∈ es, compareHead expected.params e.2 = .yes
      | none => compareHead expected.params actual.element = .yes) := by
  have hc : compareBase expected.base expected.params.length (compareHead expected.params)
      (comparePairs expected.params) actual = .yes := by
    cases expected <;> simpa only [compare, base, params] using h
  rw [compareBase] at hc
  split at hc
  case isTrue hany => exact .inl hany
  case isFalse =>
    split at hc
    case isTrue => simp at hc
    case isFalse hbase =>
      rw [not_or, not_ne_iff] at hbase
      refine .inr ⟨hbase.1, fun hcont => ?_⟩
      rw [if_pos hcont] at hc
      cases hes : actual.entries? with
      | none =>
          rw [hes] at hc
          exact hc
      | some es =>
          rw [hes] at hc
          dsimp only at hc ⊢
          split at hc
          case h_1 => cases hc
          case h_2 hnone =>
            intro e he
            have hyes := List.find?_eq_none.mp hnone e he
            exact isYes_iff.mp (by simpa using hyes)

mutual

theorem hasType_of_compare : ∀ (expected : ValueType) {actual : ValueType} {d : Datum},
    expected.compare actual = .yes → Fits actual d → HasType expected d
  | .declared b ps, actual, d, h, hd | .literal b ps _, actual, d, h, hd => by
      rw [HasType]
      rcases compare_yes h with hany | ⟨hbase, hcont⟩
      · exact .inl hany
      · by_cases hb : b = .any
        · exact .inl hb
        · have ha : actual.base ≠ .any := hbase ▸ hb
          obtain ⟨hk, hv⟩ := hd.elements ha
          refine .inr ⟨hk.trans hbase.symm, fun v hm => ?_⟩
          cases hc : isContainer b with
          | false =>
              rw [Datum.elements_eq_nil (by rw [hk, ← hbase]; exact hc)] at hm
              cases hm
          | true =>
              have hhead := hcont hc
              cases actual with
              | declared _ _ => exact headHasType_of_compare ps hhead (hv v hm)
              | literal _ _ es =>
                  rw [Fits] at hd
                  have he := ((hd.resolve_left ha).2 v hm).2
                  obtain ⟨_, ht, hfit⟩ := fitsEntry_iff.mp he
                  obtain ⟨e, hes, rfl⟩ := List.mem_map.mp ht
                  exact headHasType_of_compare ps (hhead e hes) hfit

theorem headHasType_of_compare : ∀ (ps : List ValueType) {actual : ValueType} {d : Datum},
    compareHead ps actual = .yes → Fits actual d → HeadHasType ps d
  | [], _, _, _, _ => trivial
  | p :: _, _, _, h, hd => by
      rw [compareHead] at h
      exact hasType_of_compare p h hd

end

end ValueType

namespace Expr

mutual

def castFree : Expr → Bool
  | .cast .. => false
  | .dict _ entries => castFreeEntries entries
  | .list _ items => castFreeItems items
  | .binary _ _ _ left right => left.castFree && right.castFree
  | .index _ object key => object.castFree && key.castFree
  | .setIndex _ object key value => object.castFree && (key.castFree && value.castFree)
  | .assign _ _ value => value.castFree
  | .call _ _ args | .action _ _ args => castFreeItems args
  | .number .. | .str .. | .styledText .. | .vector .. | .variable .. => true

def castFreeItems : List Expr → Bool
  | [] => true
  | e :: rest => e.castFree && castFreeItems rest

def castFreeEntries : List (String × Expr) → Bool
  | [] => true
  | (_, e) :: rest => e.castFree && castFreeEntries rest

end

theorem castFreeItems_eq (items : List Expr) : castFreeItems items = items.all castFree := by
  induction items with
  | nil => rfl
  | cons e rest ih => rw [castFreeItems, ih, List.all_cons]

theorem castFreeEntries_eq (entries : List (String × Expr)) :
    castFreeEntries entries = entries.all fun entry => entry.2.castFree := by
  induction entries with
  | nil => rfl
  | cons entry rest ih => rw [castFreeEntries, ih, List.all_cons]

end Expr

namespace Machine

open Codegen

theorem castFree_operands {e : Expr} (h : e.castFree) {o : String × Expr} (ho : o ∈ operands e) :
    o.2.castFree := by
  cases e with
  | dict _ entries =>
      obtain ⟨entry, hm, rfl⟩ := List.mem_map.mp ho
      rw [Expr.castFree, Expr.castFreeEntries_eq, List.all_eq_true] at h
      exact h entry hm
  | list _ items =>
      obtain ⟨item, hm, rfl⟩ := List.mem_map.mp ho
      rw [Expr.castFree, Expr.castFreeItems_eq, List.all_eq_true] at h
      exact h item hm
  | binary | index =>
      rw [Expr.castFree, Bool.and_eq_true] at h
      simp only [operands, List.mem_cons, List.not_mem_nil, or_false] at ho
      rcases ho with rfl | rfl
      · exact h.1
      · exact h.2
  | _ => simp [operands] at ho

/-- Every variable in force that has a value has one of its declared type. -/
def WellTyped (scope : Scope) (s : Store (Option Datum)) : Prop :=
  ∀ name b, scope.binding? name = some b →
    ∀ d, s (name, b.storage.wireName) = some d → b.type.HasType d

/-- Names as programs have them: no variable is named like a temporary, and no declared type has
recorded entries. -/
structure Plain (scope : Scope) : Prop where
  fresh : ∀ name b, scope.binding? name = some b →
    ¬ NamedFrom allHints 0 (name, b.storage.wireName)
  types : ∀ name b, scope.binding? name = some b → b.type.entryFree

section
variable {p : Platform} {P : Datum → Prop}

def HoldsIn (container : Container) (P : Datum → Prop) (o : Option Datum) : Prop :=
  ∀ d, o = some d → d.kind = container.base ∧ ∀ v ∈ d.elements, P v

theorem holdsIn_set {container : Container} {o k v : Option Datum} (ho : HoldsIn container P o)
    (hk : ∀ d, k = some d → d.kind = container.key) (hv : ∀ d, v = some d → P d) :
    HoldsIn container P (p.domain.set container o k v) := by
  intro d hd
  obtain ⟨object, rfl, hd⟩ := Option.bind_eq_some_iff.mp hd
  obtain ⟨key, rfl, hd⟩ := Option.bind_eq_some_iff.mp hd
  obtain ⟨value, rfl, hd⟩ := Option.bind_eq_some_iff.mp hd
  obtain ⟨hkind, helems⟩ := ho object rfl
  obtain ⟨hkind', helems'⟩ := Platform.set_mem hkind (hk key rfl) hd
  refine ⟨hkind', fun u hu => ?_⟩
  rcases helems' u hu with rfl | hu
  · exact hv u rfl
  · exact helems u hu

theorem hasType_set {container : Container} {t : ValueType} (ht : t.base = container.base)
    {o k v : Option Datum} (ho : ∀ d, o = some d → t.HasType d)
    (hk : ∀ d, k = some d → d.kind = container.key) (hv : ∀ d, v = some d → t.element.HasType d)
    {d : Datum} (hd : p.domain.set container o k v = some d) : t.HasType d := by
  have hold : HoldsIn container (ValueType.HeadHasType t.params) o := by
    intro d hd
    obtain ⟨hkind, helems⟩ := (ValueType.hasType_iff.mp (ho d hd)).resolve_left
      (ht ▸ container.base_ne_any)
    exact ⟨hkind.trans ht, helems⟩
  have hvalue : ∀ d, v = some d → ValueType.HeadHasType t.params d :=
    fun d hd => ValueType.headHasType_iff.mpr (hv d hd)
  obtain ⟨hkind, helems⟩ := holdsIn_set hold hk hvalue d hd
  exact ValueType.hasType_iff.mpr (.inr ⟨hkind.trans ht.symm, helems⟩)

theorem holdsIn_enter {entries : List (String × Option Datum)} {o : Option Datum}
    (ho : HoldsIn .dictionary P o) (hv : ∀ d, some d ∈ entries.map Prod.snd → P d) :
    HoldsIn .dictionary P (p.domain.enter o entries) := by
  induction entries generalizing o with
  | nil => exact ho
  | cons e rest ih =>
      refine ih (holdsIn_set ho ?_ ?_) fun d hd => hv d (List.mem_cons_of_mem _ hd)
      · rintro d ⟨⟩
        rfl
      · rintro d hd
        exact hv d (by simp [hd])

end

theorem operands_fit {scope : Scope} {p : Platform} {s : Store (Option Datum)}
    {ops : List (String × Expr)} {vs : List Value} {vals : List (Option Datum)}
    (h : List.Forall₂ (fun o v => o.2.castFree → ∀ d,
      eval p.domain scope s o.2 = some (some d) → v.type.Fits d) ops vs)
    (hcast : ∀ o ∈ ops, o.2.castFree)
    (heval : List.Forall₂ (fun o v => eval p.domain scope s o.2 = some v) ops vals) :
    List.Forall₂ (fun val v => ∀ d, val = some d → v.type.Fits d) vals vs := by
  induction h generalizing vals with
  | nil =>
      cases heval
      exact .nil
  | cons head _ ih =>
      obtain _ | ⟨hval, hvals⟩ := heval
      rw [List.forall_mem_cons] at hcast
      refine .cons ?_ (ih hcast.2 hvals)
      rintro d rfl
      exact head hcast.1 d hval

theorem mem_fits {vals : List (Option Datum)} {vs : List Value}
    (h : List.Forall₂ (fun val v => ∀ d, val = some d → v.type.Fits d) vals vs) {d : Datum}
    (hd : some d ∈ vals) : ∃ t ∈ vs.map Value.type, t.Fits d := by
  induction h with
  | nil => cases hd
  | cons head _ ih =>
      rw [List.map_cons, List.exists_mem_cons_iff]
      rcases List.mem_cons.mp hd with hd | hd
      · exact .inl (head d hd.symm)
      · exact .inr (ih hd)

theorem forall₂_pair {α β : Type} {R : α → β → Prop} {a a' : α} {b b' : β}
    (h : List.Forall₂ R [a, a'] [b, b']) : R a b ∧ R a' b' := by
  obtain _ | ⟨hb, _ | ⟨hb', _⟩⟩ := h
  exact ⟨hb, hb'⟩

theorem keyed_types {entries : List (String × Expr)} {vs : List Value}
    (h : vs.length = entries.length) :
    ((keyed entries vs).map fun e => (EntryKey.name e.1, e.2.type)).map Prod.snd =
      vs.map Value.type := by
  have hsnd := congrArg (List.map Value.type) (keyed_snd h)
  rw [List.map_map] at hsnd ⊢
  exact hsnd

theorem numbered_types (vs : List Value) :
    (vs.zipIdx.map fun e => (EntryKey.position e.2, e.1.type)).map Prod.snd =
      vs.map Value.type := by
  have hfst := congrArg (List.map Value.type) (List.zipIdx_map_fst 0 vs)
  rw [List.map_map] at hfst ⊢
  exact hfst

section
variable {p : Platform} {d : Datum}

theorem dictOf_fits {keys : List String} {vals : List (Option Datum)} {vs : List Value}
    {es : List (EntryKey × ValueType)} (hes : es.map Prod.snd = vs.map Value.type)
    (hvs : List.Forall₂ (fun val v => ∀ d, val = some d → v.type.Fits d) vals vs)
    (hd : p.domain.dictOf (keys.zip vals) = some d) :
    (ValueType.literal .dict [.any] es).Fits d := by
  have hempty : HoldsIn .dictionary (ValueType.FitsEntry es) p.domain.emptyDict := by
    rintro d ⟨⟩
    exact ⟨rfl, by simp [Datum.elements]⟩
  have hentries : ∀ d, some d ∈ (keys.zip vals).map Prod.snd → ValueType.FitsEntry es d := by
    intro d hm
    obtain ⟨⟨key, val⟩, hm, rfl⟩ := List.mem_map.mp hm
    rw [ValueType.fitsEntry_iff, hes]
    exact mem_fits hvs (List.of_mem_zip hm).2
  obtain ⟨hkind, helems⟩ := holdsIn_enter hempty hentries d hd
  rw [ValueType.Fits]
  exact .inr ⟨hkind, fun v hv => ⟨ValueType.fits_any v, helems v hv⟩⟩

theorem mkList_fits {vals : List (Option Datum)} {vs : List Value}
    {es : List (EntryKey × ValueType)} (hes : es.map Prod.snd = vs.map Value.type)
    (hvs : List.Forall₂ (fun val v => ∀ d, val = some d → v.type.Fits d) vals vs)
    (hd : p.domain.mkList vals = some d) : (ValueType.literal .list [.any] es).Fits d := by
  obtain ⟨ds, hds, rfl⟩ := Option.map_eq_some_iff.mp hd
  rw [mapM_eq_some_iff] at hds
  have hsome : vals = ds.map some := by
    rw [← List.forall₂_eq_eq_eq, List.forall₂_map_right_iff]
    exact hds
  rw [ValueType.Fits]
  refine .inr ⟨rfl, fun v hv => ⟨ValueType.fits_any v, ?_⟩⟩
  rw [ValueType.fitsEntry_iff, hes]
  apply mem_fits hvs
  rw [hsome]
  exact List.mem_map_of_mem hv

theorem binary_fits {op : BinaryOp} {a b : Option Datum} {t u : ValueType}
    (ha : ∀ d, a = some d → t.Fits d) (hb : ∀ d, b = some d → u.Fits d) (ht : t.base = .num)
    (hu : u.base = .num) (hd : p.domain.binary op a b = some d) : ValueType.num.Fits d := by
  obtain ⟨x, rfl, hd⟩ := Option.bind_eq_some_iff.mp hd
  obtain ⟨y, rfl, rfl⟩ := Option.map_eq_some_iff.mp hd
  have hx := ((ha x rfl).elements (by simp [ht])).1.trans ht
  have hy := ((hb y rfl).elements (by simp [hu])).1.trans hu
  obtain ⟨z, hz⟩ := p.binary_number hx hy
  rw [hz]
  exact .inr ⟨rfl, by simp [Datum.elements]⟩

theorem get_fits {container : Container} {o k : Option Datum} {t u : ValueType}
    (ho : ∀ d, o = some d → t.Fits d) (hk : ∀ d, k = some d → u.Fits d)
    (ht : t.base = container.base) (hu : u.base = container.key)
    (hd : p.domain.get container o k = some d) : t.element.Fits d := by
  obtain ⟨x, rfl, hd⟩ := Option.bind_eq_some_iff.mp hd
  obtain ⟨y, rfl, hd⟩ := Option.bind_eq_some_iff.mp hd
  obtain ⟨hkind, helems⟩ := (ho x rfl).elements (ht ▸ container.base_ne_any)
  have hkey := ((hk y rfl).elements (hu ▸ container.key_ne_any)).1
  exact helems d (Platform.get_mem (hkind.trans ht) (hkey.trans hu) hd)

end

theorem finish_fits {schema : Schema} {target : Item} {e : Expr} {vs : List Value}
    {type : ValueType} {blocks : List Codeblock} (h : Finishes schema target e vs type blocks)
    {scope : Scope} {p : Platform} {s : Store (Option Datum)}
    (hfit : ∀ vals, List.Forall₂ (fun o v => eval p.domain scope s o.2 = some v) (operands e) vals →
      List.Forall₂ (fun val v => ∀ d, val = some d → v.type.Fits d) vals vs)
    (hcont : (operands e).map (fun o => (typeOf scope o.2).bind containerOf?) =
      vs.map fun v => containerOf? v.type)
    {d : Datum} (hd : eval p.domain scope s e = some (some d)) : type.Fits d := by
  cases h with
  | dict created filled =>
      obtain ⟨vals, hvals, hresult⟩ := Option.bind_eq_some_iff.mp hd
      rw [evalEntries_eq, mapM_eq_some_iff] at hvals
      have hvs := hfit vals (List.forall₂_map_left_iff.mpr hvals)
      have hlen := (hvals.length_eq.trans hvs.length_eq).symm
      exact dictOf_fits (keyed_types hlen) hvs (Option.some.inj hresult)
  | list created =>
      obtain ⟨vals, hvals, hresult⟩ := Option.bind_eq_some_iff.mp hd
      rw [evalItems_eq, mapM_eq_some_iff] at hvals
      have hvs := hfit vals (List.forall₂_map_left_iff.mpr hvals)
      exact mkList_fits (numbered_types vs) hvs (Option.some.inj hresult)
  | binary opSpan left right numbers computed =>
      obtain ⟨a, ha, hd'⟩ := Option.bind_eq_some_iff.mp hd
      obtain ⟨b, hb, hresult⟩ := Option.bind_eq_some_iff.mp hd'
      obtain ⟨hl, hr⟩ := forall₂_pair (hfit [a, b] (.cons ha (.cons hb .nil)))
      exact binary_fits hl hr numbers.1 numbers.2 (Option.some.inj hresult)
  | index object index indexed key fetched =>
      have hc := (List.cons.inj hcont).1.trans indexed
      simp only [eval, hc, bind, Option.bind_some] at hd
      obtain ⟨a, ha, hd'⟩ := Option.bind_eq_some_iff.mp hd
      obtain ⟨k, hk, hresult⟩ := Option.bind_eq_some_iff.mp hd'
      obtain ⟨ho, hi⟩ := forall₂_pair (hfit [a, k] (.cons ha (.cons hk .nil)))
      exact get_fits ho hi (base_of_containerOf? indexed) key (Option.some.inj hresult)

/-- A value fits the type that the generator gives to its expression. -/
theorem eval_fits {ctx : Context} {dest : Dest} {n : Nat} {e : Expr} {v : Emitted Value}
    (h : Compiles ctx dest n e v) (hcast : e.castFree) {p : Platform} {s : Store (Option Datum)}
    (hplain : Plain ctx.scope) (hs : WellTyped ctx.scope s) {d : Datum}
    (hd : eval p.domain ctx.scope s e = some (some d)) : v.result.type.Fits d := by
  induction h generalizing d with
  | number | str | styledText | vector =>
      cases hd
      exact .inr ⟨rfl, by simp [Datum.elements]⟩
  | name dest n span bound =>
      rename_i name b
      simp only [eval, resolve?, bound, Option.map_some, Option.some.injEq] at hd
      exact .of_hasType _ (hplain.types name b bound) (hs name b bound d hd)
  | computed values placed finish ih =>
      refine finish_fits finish (fun vals hvals => ?_)
        (containers_eq (values.imp typeOf_compiles)) hd
      refine operands_fit (forall₂_each ?_ ih) (fun o ho => castFree_operands hcast ho) hvals
      intro hint n e v hv hcast d hd
      obtain ⟨_, hv⟩ := hv
      exact hv hcast hd
  | cast => simp [Expr.castFree] at hcast

end Machine

end DiamondScript
