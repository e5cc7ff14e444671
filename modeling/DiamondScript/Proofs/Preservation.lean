import DiamondScript.Proofs.Assignment
import DiamondScript.Proofs.Lookup
import DiamondScript.Proofs.Typing

namespace DiamondScript

def Stmt.storesCastFree : Stmt → Bool
  | .var ⟨_, _, _, some value, _⟩ => value.castFree
  | .expr (.assign _ _ value) => value.castFree
  | .expr (.setIndex _ object index value) => object.castFree && (index.castFree && value.castFree)
  | _ => false

namespace Machine

open Codegen ValueType

section
variable {α : Type} (D : Domain (Option α))

/-- Runs a block that has a result; none on a block that is stuck. -/
def advance (s : Store (Option α)) (b : Codeblock) : Option (Store (Option α)) :=
  match instruction? b with
  | none => some s
  | some i => (i.result D s).join.map fun v => Function.update s i.target (some v)

def run (blocks : List Codeblock) (s : Store (Option α)) : Option (Store (Option α)) :=
  blocks.foldlM (advance D) s

theorem step_of_advance {s s' : Store (Option α)} {b : Codeblock}
    (h : advance D s b = some s') : step D s b = s' := by
  unfold advance at h
  unfold step
  cases hi : instruction? b with
  | none =>
      rw [hi] at h
      exact Option.some.inj h
  | some i =>
      rw [hi] at h
      obtain ⟨v, hv, rfl⟩ := Option.map_eq_some_iff.mp h
      simp only [Option.join_eq_some_iff.mp hv, Option.elim_some]

theorem exec_of_run {blocks : List Codeblock} {s s' : Store (Option α)}
    (h : run D blocks s = some s') : exec D blocks s = s' := by
  induction blocks generalizing s with
  | nil => exact Option.some.inj h
  | cons b blocks ih =>
      rw [run, List.foldlM_cons] at h
      obtain ⟨t, ht, h⟩ := Option.bind_eq_some_iff.mp h
      rw [exec_cons, step_of_advance D ht]
      exact ih h

end

theorem not_mem_temporaries {n : Nat} {hs : List String} (hsub : hs ⊆ allHints) {x : Var}
    (hx : ¬ NamedFrom allHints 0 x) : x ∉ temporaries n hs :=
  fun hm => hx ((namedFrom_of_mem_temporaries hsub hm).mono (List.Subset.refl _) (Nat.zero_le _))

theorem Plain.variablesOf {scope : Scope} (h : Plain scope) {e : Expr} {x : Var}
    (hx : x ∈ variablesOf scope e) : ¬ NamedFrom allHints 0 x := by
  obtain ⟨name, -, hname⟩ := List.mem_filterMap.mp hx
  obtain ⟨b, hb, rfl⟩ := Option.map_eq_some_iff.mp hname
  exact h.fresh name b hb

theorem type_of_item {ctx : Context} {hint : String} {n : Nat} {e : Expr} {v : Emitted Value}
    (h : Compiles ctx (.temp hint) n e v) (hhint : hint ∈ allHints) (hcast : e.castFree)
    (hplain : Plain ctx.scope) {name : String} {b : Binding}
    (hb : ctx.scope.binding? name = some b)
    (hitem : v.result.item.asVariable? = some (name, b.storage.wireName)) :
    v.result.type = b.type := by
  cases h with
  | number | str | styledText | vector => simp [Item.asVariable?, Item.ofKind] at hitem
  | name _ _ _ bound =>
      cases (Prod.mk.inj (Option.some.inj hitem)).1
      rw [bound] at hb
      cases hb
      rfl
  | computed values placed finish =>
      cases placed
      exact absurd ⟨hint, hhint, _, Nat.zero_le _, (Option.some.inj hitem).symm⟩
        (hplain.fresh name b hb)
  | cast => simp [Expr.castFree] at hcast

theorem reads_fit {p : Platform} {s : Store (Option Datum)} {vs : List Value}
    {vals : List (Option Datum)} (hread : Reads p.domain s (vs.map Value.item) vals)
    (hfit : List.Forall₂ (fun val v => ∀ d, val = some d → v.type.Fits d) vals vs) {v : Value}
    (hv : v ∈ vs) :
    ∃ val, p.domain.read s v.item = some val ∧ ∀ d, val = some d → v.type.Fits d := by
  induction hfit with
  | nil => cases hv
  | cons head _ ih =>
      obtain _ | ⟨hr, hrs⟩ := hread
      rcases List.mem_cons.mp hv with rfl | hv
      · exact ⟨_, hr, head⟩
      · exact ih hrs hv

/-- Entries keep a property of a dictionary's elements, also an entry that reads the dictionary
itself, provided that such a dictionary has the property. -/
theorem holdsIn_fillDict {schema : Schema} {x : Var} {span : Span} {entries : List (String × Item)}
    {fill : List Codeblock} (h : fillDict schema (.ofVariable x.1 x.2) span entries = .ok fill)
    {p : Platform} {P : Datum → Prop} {s : Store (Option Datum)}
    (hx : HoldsIn .dictionary P (s x))
    (hitems : ∀ item ∈ entries.map Prod.snd,
      (item.asVariable? = some x → ∀ d, HoldsIn .dictionary P (some d) → P d) ∧
      (item.asVariable? ≠ some x → ∃ val, p.domain.read s item = some val ∧
        ∀ d, val = some d → P d)) :
    HoldsIn .dictionary P (exec p.domain fill s x) := by
  induction entries generalizing fill s with
  | nil =>
      cases h
      exact hx
  | cons entry rest ih =>
      rw [fillDict] at h
      obtain ⟨block, hblock, h⟩ := bind_eq_ok.mp h
      obtain ⟨blocks, hblocks, h⟩ := bind_eq_ok.mp h
      cases h
      rw [List.map_cons, List.forall_mem_cons] at hitems
      obtain ⟨val, hread, hval⟩ : ∃ val, p.domain.read s entry.2 = some val ∧
          ∀ d, val = some d → P d := by
        by_cases hself : entry.2.asVariable? = some x
        · refine ⟨s x, read_asVariable p.domain hself s, fun d hd => ?_⟩
          exact hitems.1.1 hself d (hd ▸ hx)
        · exact hitems.1.2 hself
      have hstep := step_setVar p.domain (.set .dictionary) hblock
        (.cons rfl (.cons hread .nil)) rfl
      rw [exec_cons, hstep]
      refine ih hblocks ?_ fun item hm => ⟨(hitems.2 item hm).1, fun hne => ?_⟩
      · rw [Function.update_self]
        refine holdsIn_set hx ?_ hval
        rintro d ⟨⟩
        rfl
      · rw [read_update p.domain hne]
        exact (hitems.2 item hm).2 hne

theorem forall_each {R : String → Nat → Expr → Emitted Value → Prop} {P : Value → Prop} {n : Nat}
    {ops : List (String × Expr)} {vs : Emitted (List Value)} (h : Each R n ops vs)
    (hRP : ∀ {hint n e v}, (hint, e) ∈ ops → R hint n e v → P v.result) :
    ∀ v ∈ vs.result, P v := by
  induction h with
  | nil => simp
  | cons head _ ih =>
      rw [List.forall_mem_cons]
      exact ⟨hRP List.mem_cons_self head, ih fun hm => hRP (List.mem_cons_of_mem _ hm)⟩

theorem operands_typed {ctx : Context} {n : Nat} {ops : List (String × Expr)}
    {vs : Emitted (List Value)} (h : Each (fun hint => Compiles ctx (.temp hint)) n ops vs)
    (hhints : ∀ o ∈ ops, o.1 ∈ allHints) (hcast : ∀ o ∈ ops, o.2.castFree)
    (hplain : Plain ctx.scope) (p : Platform) {s : Store (Option Datum)}
    (hs : WellTyped ctx.scope s) :
    ∃ vals, Reads p.domain (exec p.domain vs.blocks s) (vs.result.map Value.item) vals ∧
      List.Forall₂ (fun val v => ∀ d, val = some d → v.type.Fits d) vals vs.result := by
  have hfresh : ∀ x ∈ variablesAll ctx.scope ops, x ∉ temporaries n (hintsAll ops) := by
    intro x hx
    obtain ⟨o, -, hx⟩ := List.mem_flatMap.mp hx
    exact not_mem_temporaries (hintsAll_subset hhints) (hplain.variablesOf hx)
  obtain ⟨vals, hevs, hrds⟩ := reads_operands p.domain (s := s)
    (h.imp fun hc => ⟨hc, fun s hf => exec_compiles p.domain hc hf (by simp [named]) s⟩)
    hhints hfresh fun _ _ => rfl
  refine ⟨vals, hrds, operands_fit (forall₂_each ?_ h) hcast hevs⟩
  exact fun hc hcast d hd => eval_fits hc hcast hplain hs hd

theorem wellTyped_operands {ctx : Context} {n : Nat} {ops : List (String × Expr)}
    {vs : Emitted (List Value)} (h : Each (fun hint => Compiles ctx (.temp hint)) n ops vs)
    (hhints : ∀ o ∈ ops, o.1 ∈ allHints) (hplain : Plain ctx.scope) (p : Platform)
    {s : Store (Option Datum)} (hs : WellTyped ctx.scope s) :
    WellTyped ctx.scope (exec p.domain vs.blocks s) := by
  intro name b hb d hd
  rw [exec_of_not_target p.domain fun ht => not_mem_temporaries (hintsAll_subset hhints)
    (hplain.fresh name b hb) (targets_operands h ht)] at hd
  exact hs name b hb d hd

theorem holdsIn_finish_dict {schema : Schema} {x : Var} {span : Span}
    {entries : List (String × Expr)} {vs : List Value} {type : ValueType} {blocks : List Codeblock}
    (h : Finishes schema (.ofVariable x.1 x.2) (.dict span entries) vs type blocks)
    (hlen : vs.length = entries.length) {p : Platform} {P : Datum → Prop}
    {s : Store (Option Datum)}
    (hitems : ∀ v ∈ vs,
      (v.item.asVariable? = some x → ∀ d, HoldsIn .dictionary P (some d) → P d) ∧
      ∃ val, p.domain.read s v.item = some val ∧ ∀ d, val = some d → P d) :
    HoldsIn .dictionary P (exec p.domain blocks s x) := by
  cases h with
  | dict created filled =>
      rw [exec_cons, step_setVar p.domain .createDict created .nil rfl]
      refine holdsIn_fillDict filled ?_ ?_
      · rw [Function.update_self]
        rintro d ⟨⟩
        exact ⟨rfl, by simp [Datum.elements]⟩
      · rw [(keyed_items hlen).2, List.forall_mem_map]
        intro v hv
        obtain ⟨hself, val, hread, hval⟩ := hitems v hv
        exact ⟨hself, fun hne => ⟨val, (read_update p.domain hne _).trans hread, hval⟩⟩

/-- A dictionary literal that is built in a variable gives it a value of its declared type,
whether or not the variable is among the entries. -/
theorem hasType_dict_in_place {ctx : Context} {name : String} {b : Binding} {n : Nat} {span : Span}
    {entries : List (String × Expr)} {v : Emitted Value}
    (h : Compiles ctx (.var name b.storage.wireName) n (.dict span entries) v)
    (hcast : (Expr.dict span entries).castFree) (hplain : Plain ctx.scope)
    (hb : ctx.scope.binding? name = some b) (htype : b.type.compare v.result.type = .yes)
    {p : Platform} {s : Store (Option Datum)} (hs : WellTyped ctx.scope s) {d : Datum}
    (hd : exec p.domain v.blocks s (name, b.storage.wireName) = some d) : b.type.HasType d := by
  rcases compare_yes htype with hany | ⟨hbase, hcont⟩
  · exact hasType_iff.mpr (.inl hany)
  cases h with
  | computed values placed finish =>
      rename_i vs target next type blocks
      cases placed
      have hlen : vs.result.length = entries.length := by
        rw [values.length_eq, operands, List.length_map]
      have hentries : ∀ v ∈ vs.result, compareHead b.type.params v.type = .yes := by
        intro v hv
        have hm : v.type ∈ vs.result.map Value.type := List.mem_map_of_mem hv
        cases finish with
        | dict =>
            rw [← keyed_types hlen] at hm
            obtain ⟨e, he, hte⟩ := List.mem_map.mp hm
            rw [← hte]
            exact hcont (by rw [hbase]; rfl) e he
      obtain ⟨vals, hread, hfit⟩ := operands_typed values (fun o ho => operands_hint ho)
        (fun o ho => castFree_operands hcast ho) hplain p hs
      have hself : ∀ v ∈ vs.result, v.item.asVariable? = some (name, b.storage.wireName) →
          v.type = b.type := forall_each values fun hm hc =>
        type_of_item hc (operands_hint hm) (castFree_operands hcast hm) hplain hb
      -- The unfinished dictionary has the declared type at every step, so an entry that reads it
      -- has that type as well.
      have hdict {d : Datum} (hd : HoldsIn .dictionary (HeadHasType b.type.params) (some d)) :
          b.type.HasType d := by
        obtain ⟨hkind, helems⟩ := hd d rfl
        cases finish
        exact hasType_iff.mpr (.inr ⟨hkind.trans hbase.symm, helems⟩)
      rw [exec_append] at hd
      refine hdict ?_
      rw [← hd]
      refine holdsIn_finish_dict (x := (name, b.storage.wireName)) finish hlen fun v hv => ?_
      obtain ⟨val, hval, hfits⟩ := reads_fit hread hfit hv
      refine ⟨fun hitem d hd => ?_, val, hval, fun d hd => ?_⟩
      · refine headHasType_of_compare _ (hentries v hv) ?_
        rw [hself v hv hitem]
        exact Fits.of_hasType b.type (hplain.types name b hb) (hdict hd)
      · exact headHasType_of_compare _ (hentries v hv) (hfits d hd)

theorem wellTyped_assignInto {ctx : Context} {name : String} {b : Binding} {n : Nat} {value : Expr}
    {span : Span} {em : Emitted Unit}
    (h : assignInto ctx name b.storage b.type n value span = .ok em) (hcast : value.castFree)
    (hplain : Plain ctx.scope) (hb : ctx.scope.binding? name = some b) (p : Platform)
    {s : Store (Option Datum)} (hs : WellTyped ctx.scope s) :
    WellTyped ctx.scope (exec p.domain em.blocks s) := by
  have hfresh {y : Var} (hy : ¬ NamedFrom allHints 0 y) : ¬ NamedFrom operandHints n y := by
    intro hn
    exact hy (hn.mono (fun _ hm => List.mem_cons_of_mem _ (List.mem_cons_of_mem _ hm))
      (Nat.zero_le n))
  intro name' b' hb' d hd
  by_cases hname : name' = name
  · subst hname
    rw [hb] at hb'
    cases hb'
    obtain ⟨v, copy, hc, htype, hcopy, rfl⟩ := assignInto_eq_ok.mp h
    -- A variable among its own entries does not get the value of the literal, so that case goes
    -- through the blocks and not through `eval`.
    by_cases hentry : (name', b.storage.wireName) ∈ entryVariables ctx.scope value
    · cases value with
      | dict span entries =>
          have hitem : v.result.item.asVariable? = some (name', b.storage.wireName) := by
            cases hc with
            | computed values placed finish =>
                cases placed
                rfl
          rw [Copies, if_pos hitem] at hcopy
          rw [hcopy, List.append_nil] at hd
          exact hasType_dict_in_place hc hcast hplain hb htype hs hd
      | cast => simp [Expr.castFree] at hcast
      | _ => simp [entryVariables] at hentry
    · have hval := exec_assignInto_value p.domain h (by
        rw [List.forall_mem_cons]
        exact ⟨hfresh (hplain.fresh name' b hb), fun y hy => hfresh (hplain.variablesOf hy)⟩)
        hentry s
      rw [hd] at hval
      exact hasType_of_compare _ htype (eval_fits hc hcast hplain hs hval)
  · rw [exec_assignInto_other p.domain h (fun he => hname (Prod.mk.inj he).1)
      (hfresh (hplain.fresh name' b' hb'))] at hd
    exact hs name' b' hb' d hd

theorem item_of_container {ctx : Context} {dest : Dest} {n : Nat} {e : Expr} {v : Emitted Value}
    (h : Compiles ctx dest n e v) (hcast : e.castFree) {container : Container}
    (hc : containerOf? v.result.type = some container) :
    ∃ x : Var, v.result.item = .ofVariable x.1 x.2 := by
  cases h with
  | number | str | styledText | vector => cases hc
  | name _ _ _ bound => exact ⟨(_, _), rfl⟩
  | computed values placed finish =>
      rw [place_eq] at placed
      cases placed
      exact ⟨_, rfl⟩
  | cast => simp [Expr.castFree] at hcast

theorem wellTyped_update {scope : Scope} {s : Store (Option Datum)} (hs : WellTyped scope s)
    {x : Var} {v : Option Datum}
    (hv : ∀ name b, scope.binding? name = some b → (name, b.storage.wireName) = x →
      ∀ d, v = some d → b.type.HasType d) : WellTyped scope (Function.update s x v) := by
  intro name b hb d hd
  by_cases hx : (name, b.storage.wireName) = x
  · rw [hx, Function.update_self] at hd
    exact hv name b hb hx d hd
  · rw [Function.update_of_ne hx] at hd
    exact hs name b hb d hd

theorem wellTyped_genSetIndex {ctx : Context} {n : Nat} {object index value : Expr} {span : Span}
    {em : Emitted Unit} (h : genSetIndex ctx n object index value span = .ok em)
    (hcast : ∀ o ∈ elementOperands object index value, o.2.castFree) (hplain : Plain ctx.scope)
    (p : Platform) {s : Store (Option Datum)} (hs : WellTyped ctx.scope s) :
    WellTyped ctx.scope (exec p.domain em.blocks s) := by
  obtain ⟨vs, o, i, v, container, block, hops, hres, hc, hkey, haccepts, hblock, rfl⟩ :=
    genSetIndex_eq_ok h
  have hs' := wellTyped_operands hops (fun o => elementOperands_hint) hplain p hs
  obtain ⟨vals, hread, hfit⟩ :=
    operands_typed hops (fun o => elementOperands_hint) hcast hplain p hs
  rw [hres] at hread hfit
  rw [exec_append]
  -- All operands are read after the last of their blocks, so only that store matters below.
  generalize exec p.domain vs.blocks s = s' at hs' hread
  obtain _ | ⟨ho, _⟩ := hops
  obtain ⟨rfl, -⟩ := List.cons.inj hres
  obtain ⟨x, hx⟩ := item_of_container ho (hcast _ List.mem_cons_self) hc
  obtain ⟨a, k, w, rfl⟩ := List.length_eq_three.mp hfit.length_eq
  obtain _ | ⟨-, _ | ⟨hk, _ | ⟨hw, _⟩⟩⟩ := hread
  obtain _ | ⟨-, _ | ⟨hkfit, _ | ⟨hwfit, _⟩⟩⟩ := hfit
  rw [hx] at hblock
  have hstep := step_setVar p.domain (.set container) hblock (.cons hk (.cons hw .nil)) rfl
  rw [exec_cons, hstep, exec_nil]
  refine wellTyped_update hs' fun name b hb hname => ?_
  subst hname
  have htype := type_of_item ho (by decide) (hcast _ List.mem_cons_self) hplain hb (by rw [hx]; rfl)
  rw [htype] at hc haccepts
  refine fun d hd => hasType_set (base_of_containerOf? hc) (hs' name b hb) ?_ ?_ hd
  · intro d hd
    exact ((hkfit d hd).elements (hkey ▸ container.key_ne_any)).1.trans hkey
  · intro d hd
    exact hasType_of_compare _ (isYes_iff.mp haccepts) (hwfit d hd)

/-- Statements without casts keep a store well typed, as far as their blocks do not get stuck on a
variable without a value, a missing key or a position out of range. -/
theorem genStmt_preserves_types {ctx : Context} {n : Nat} {stmt : Stmt} {em : Emitted Scope}
    (h : genStmt ctx n stmt = .ok em) (hstores : stmt.storesCastFree) (hplain : Plain em.result)
    (p : Platform) {s s' : Store (Option Datum)} (hs : WellTyped em.result s)
    (hrun : run p.domain em.blocks s = some s') : WellTyped em.result s' := by
  rw [← exec_of_run p.domain hrun]
  cases stmt with
  | var d =>
      obtain ⟨storage, name, type, value, span⟩ := d
      cases value with
      | none => cases hstores
      | some value =>
          obtain ⟨em', h', rfl⟩ := genStmt_var.mp h
          exact wellTyped_assignInto (b := ⟨type, storage⟩) h' hstores hplain
            (Scope.binding?_define ..) p hs
  | expr e =>
      cases e with
      | assign span name value =>
          obtain ⟨b, em', hb, h', rfl⟩ := genStmt_assign.mp h
          exact wellTyped_assignInto h' hstores hplain hb p hs
      | setIndex span object index value =>
          obtain ⟨em', h', rfl⟩ := genStmt_setIndex.mp h
          refine wellTyped_genSetIndex h' ?_ hplain p hs
          simpa [Stmt.storesCastFree, elementOperands] using hstores
      | _ => cases hstores

theorem binding?_single {name name' : String} {type : ValueType} {storage : Storage} {b : Binding}
    (h : (Scope.empty.define name type storage).binding? name' = some b) :
    name' = name ∧ b = ⟨type, storage⟩ := by
  simp only [Scope.empty, Scope.define, Scope.onTop, Scope.binding?, Scope.frames, Frame.empty,
    List.nil_append, List.findSome?_singleton, Table.insert, Table.find?, List.lookup_cons,
    List.lookup_nil] at h
  split at h
  · rename_i heq
    exact ⟨by simpa using heq, (Option.some.inj h).symm⟩
  · cases h

/-- The assignment `x = {"a": x}` to a dictionary of dictionaries. -/
theorem genStmt_preserves_types_self_entry :
    let type : ValueType := .declared .dict [.declared .dict [.any]]
    let ctx : Context := ⟨leastSchema, Scope.empty.define "x" type .game⟩
    let stmt : Stmt := .expr (.assign default "x" (.dict default [("a", .variable default "x")]))
    let p : Platform := ⟨fun _ x _ => x, fun _ => none, fun _ _ => .list []⟩
    let s : Store (Option Datum) := fun _ => none
    ∃ em s', genStmt ctx 0 stmt = .ok em ∧ stmt.storesCastFree ∧ Plain em.result ∧
      WellTyped em.result s ∧ run p.domain em.blocks s = some s' ∧
      s' ("x", "unsaved") = some (.dict [("a", .dict [])]) ∧ WellTyped em.result s' := by
  intro type ctx stmt p s
  have hplain : Plain ctx.scope := by
    constructor
    · intro name b hb
      obtain ⟨rfl, rfl⟩ := binding?_single hb
      exact not_namedFrom (by decide) 0
    · intro name b hb
      obtain ⟨rfl, rfl⟩ := binding?_single hb
      rfl
  have hs : WellTyped ctx.scope s := fun _ _ _ _ hd => nomatch hd
  obtain ⟨em, hok, hscope, s', hrun, hx⟩ : ∃ em, genStmt ctx 0 stmt = .ok em ∧
      em.result = ctx.scope ∧ ∃ s', run p.domain em.blocks s = some s' ∧
        s' ("x", "unsaved") = some (.dict [("a", .dict [])]) := by
    refine ⟨_, genStmt_assign.mpr ⟨⟨type, .game⟩, _, Scope.binding?_define _ _ _ _,
      assignInto_in_place rfl rfl rfl _, rfl⟩, rfl, ?_⟩
    exact ⟨_, rfl, rfl⟩
  rw [← hscope] at hplain hs
  exact ⟨em, s', hok, rfl, hplain, hs, hrun, hx,
    genStmt_preserves_types hok rfl hplain p hs hrun⟩

end Machine
end DiamondScript
