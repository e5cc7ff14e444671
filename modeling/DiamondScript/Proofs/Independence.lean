import DiamondScript.Proofs.Agreement
import DiamondScript.Proofs.Items

namespace DiamondScript

open Codegen Machine

def Param.item (p : Param) (i : Nat) (code : String) : Item :=
  ⟨i, .parameter p.name (if p.output then "var" else code) p.optional p.plural
    (p.description.getD s!"Argument #{i + 1}")⟩

/-- A line starts with the block that declares a function and its parameters in order. -/
def Codeline.Opens (line : Codeline) (f : FuncDef) : Prop :=
  ∃ head rest, line.blocks = head :: rest ∧ head.kind = "func" ∧ head.data = some f.name ∧
    List.Forall₂ (fun item e => ∃ code, e.1.type.base.parameterCode = some code ∧
      item = e.1.item e.2 code) head.args f.params.zipIdx

namespace Codegen

theorem genParams_items {func : FuncDef} {scope inner : Scope} {i : Nat} {params : List Param}
    {items : List Item} (h : genParams func scope i params = .ok (items, inner)) :
    List.Forall₂ (fun item e => ∃ code, e.1.type.base.parameterCode = some code ∧
      item = e.1.item e.2 code) (numberSlots i items) (params.zipIdx i) := by
  induction params generalizing scope i items with
  | nil =>
      cases h
      exact .nil
  | cons p rest ih =>
      rw [genParams] at h
      split at h
      · simp at h
      · rename_i code hcode
        obtain ⟨⟨items', inner'⟩, hrest, h⟩ := bind_eq_ok.mp h
        cases h
        exact .cons ⟨code, hcode, rfl⟩ (ih hrest)

theorem opens_genFunction {schema : Schema} {scope : Scope} {f : FuncDef} {body : List Stmt}
    {line : Codeline} (h : genFunction schema scope f body = .ok line) : line.Opens f := by
  rw [genFunction] at h
  obtain ⟨⟨params, inner⟩, hparams, h⟩ := bind_eq_ok.mp h
  obtain ⟨head, hhead, h⟩ := bind_eq_ok.mp h
  obtain ⟨blocks, -, h⟩ := bind_eq_ok.mp h
  cases h
  obtain ⟨spec, -, rfl⟩ := newBlock_eq_ok.mp hhead
  exact ⟨_, blocks, rfl, rfl, rfl, genParams_items hparams⟩

theorem genDefinition_func {schema : Schema} {s s' : State} {f : FuncDef} {body : List Stmt}
    (hbody : f.body = some body) (h : genDefinition schema s (.func f) = .ok s') :
    ∃ line, genFunction schema (s.scope.defineFunction ⟨f.name, f.params⟩) f body = .ok line ∧
      s' = ⟨s.scope.defineFunction ⟨f.name, f.params⟩, s.lines ++ [line]⟩ := by
  rw [genDefinition, hbody] at h
  obtain ⟨line, hline, h⟩ := bind_eq_ok.mp h
  cases h
  exact ⟨line, hline, rfl⟩

theorem agree_defineFunction (scope : Scope) (signature : Signature) :
    (scope.defineFunction signature).Agree (· ≠ signature.name) scope := by
  constructor
  · exact scope.binding?_defineFunction signature
  · intro name hname
    rw [scope.signature?_defineFunction, if_neg hname]

theorem foldlM_agree {schema : Schema} {asked : String → Prop} {s t s' : State}
    (hst : s.scope.Agree asked t.scope) {definitions : List Definition}
    (hcalls : ∀ d ∈ definitions, ∀ name ∈ d.callees, asked name)
    (h : definitions.foldlM (genDefinition schema) s = .ok s') :
    ∃ t' later, definitions.foldlM (genDefinition schema) t = .ok t' ∧
      s'.lines = s.lines ++ later ∧ t'.lines = t.lines ++ later := by
  have hs := inStep_run schema hst definitions hcalls
  have ht := inStep_run schema (.refl asked t.scope) definitions hcalls
  -- Both runs are in step with one and the same run without places.
  rw [h] at hs
  generalize (definitions.map Definition.bare).foldlM (genDefinition schema) t = u at hs ht
  cases hs with
  | ok hs =>
      obtain ⟨-, later, hs', hu⟩ := hs
      cases ht' : definitions.foldlM (genDefinition schema) t with
      | error e =>
          rw [ht'] at ht
          cases ht
      | ok t' =>
          rw [ht'] at ht
          cases ht with
          | ok ht =>
              obtain ⟨-, later', htl, hul⟩ := ht
              have heq : later' = later := List.append_cancel_left (hul.symm.trans hu)
              exact ⟨t', later, rfl, hs', heq ▸ htl⟩

end Codegen

theorem generate_eq_ok {schema : Schema} {definitions : List Definition} {program : Program} :
    generate schema definitions = .ok program ↔
      ∃ s, definitions.foldlM (genDefinition schema) .start = .ok s ∧ program = ⟨s.lines⟩ := by
  rw [generate_eq, bind_eq_ok]
  simp only [Except.ok.injEq, eq_comm]

theorem generate_opens {schema : Schema} {definitions : List Definition} {program : Program}
    (h : generate schema definitions = .ok program) :
    List.Forall₂ Codeline.Opens program.lines (definitions.filterMap Definition.coded?) := by
  rw [← map_func_routines .empty, List.forall₂_map_right_iff]
  exact (generate_lines h).imp fun _ _ => opens_genFunction

theorem generate_append {schema : Schema} {before after : List Definition} {program : Program}
    (h : generate schema (before ++ after) = .ok program) :
    ∃ first, generate schema before = .ok first ∧ first.lines <+: program.lines := by
  obtain ⟨s', hrun, rfl⟩ := generate_eq_ok.mp h
  rw [List.foldlM_append] at hrun
  obtain ⟨s, hbefore, hafter⟩ := bind_eq_ok.mp hrun
  obtain ⟨_, later, -, hlines, -⟩ :=
    foldlM_agree (.refl (fun _ => True) s.scope) (fun _ _ _ _ => trivial) hafter
  refine ⟨⟨s.lines⟩, generate_eq_ok.mpr ⟨s, hbefore, rfl⟩, ?_⟩
  rw [hlines]
  exact List.prefix_append s.lines later

theorem generate_remove {schema : Schema} {before after : List Definition} {f : FuncDef}
    {body : List Stmt} {program : Program} (hbody : f.body = some body)
    (hcalls : ∀ d ∈ after, f.name ∉ d.callees)
    (h : generate schema (before ++ .func f :: after) = .ok program) :
    ∃ earlier line later, program.lines = earlier ++ line :: later ∧ line.Opens f ∧
      earlier.length = (before.filterMap Definition.coded?).length ∧
      generate schema (before ++ after) = .ok ⟨earlier ++ later⟩ := by
  obtain ⟨s', hrun, rfl⟩ := generate_eq_ok.mp h
  rw [List.foldlM_append] at hrun
  obtain ⟨s, hbefore, hrun⟩ := bind_eq_ok.mp hrun
  rw [List.foldlM_cons] at hrun
  obtain ⟨t, hf, hafter⟩ := bind_eq_ok.mp hrun
  obtain ⟨line, hline, rfl⟩ := genDefinition_func hbody hf
  have hagree := agree_defineFunction s.scope ⟨f.name, f.params⟩
  have hasked : ∀ d ∈ after, ∀ name ∈ d.callees, name ≠ f.name := by
    rintro d hd name hname rfl
    exact hcalls d hd hname
  obtain ⟨t', later, hrest, hlines, hlines'⟩ := foldlM_agree hagree hasked hafter
  have hearlier := (generate_opens (generate_eq_ok.mpr ⟨s, hbefore, rfl⟩)).length_eq
  refine ⟨s.lines, line, later, ?_, opens_genFunction hline, hearlier, ?_⟩
  · rw [hlines, List.append_assoc]
    rfl
  · refine generate_eq_ok.mpr ⟨t', ?_, by rw [hlines']⟩
    rw [List.foldlM_append, hbefore]
    exact hrest

/-- Functions compile one by one. A function that nothing behind it calls can be left out, which
takes away its line and nothing else. Each function with a body has one line, in order, that starts
with the declaration of the function; so what comes behind definitions adds lines behind theirs. -/
theorem generate_separately (schema : Schema) :
    (∀ before f body after program, f.body = some body →
      (∀ d ∈ after, f.name ∉ d.callees) →
      generate schema (before ++ .func f :: after) = .ok program →
      ∃ earlier line later, program.lines = earlier ++ line :: later ∧ line.Opens f ∧
        earlier.length = (before.filterMap Definition.coded?).length ∧
        generate schema (before ++ after) = .ok ⟨earlier ++ later⟩) ∧
    (∀ definitions program, generate schema definitions = .ok program →
      List.Forall₂ Codeline.Opens program.lines (definitions.filterMap Definition.coded?)) ∧
    ∀ before after program, generate schema (before ++ after) = .ok program →
      ∃ first, generate schema before = .ok first ∧ first.lines <+: program.lines := by
  refine ⟨?_, ?_, ?_⟩
  · intro before f body after program hbody hcalls h
    exact generate_remove hbody hcalls h
  · intro definitions program h
    exact generate_opens h
  · intro before after program h
    exact generate_append h

/-- Of the functions `h`, `f(n)` and `g`, the last two of which call `h`, the second is left out. -/
theorem generate_separately_middle :
    let schema := Schema.ofCatalog ⟨[], [⟨"FUNCTION", "func"⟩, ⟨"CALL FUNCTION", "call_func"⟩]⟩
    let body : List Stmt := [.expr (.call default "h" [])]
    let before : List Definition := [.func ⟨"h", [], some [], default⟩]
    let f : FuncDef := ⟨"f", [⟨"n", .num, false, true, false, none⟩], some body, default⟩
    let after : List Definition := [.func ⟨"g", [], some body, default⟩]
    (∀ d ∈ after, f.name ∉ d.callees) ∧
    ∃ h main g, generate schema (before ++ .func f :: after) = .ok ⟨[h, main, g]⟩ ∧
      main.Opens f ∧ generate schema (before ++ after) = .ok ⟨[h, g]⟩ := by
  intro schema body before f after
  have hcalls : ∀ d ∈ after, f.name ∉ d.callees := by decide
  obtain ⟨h, main, g, hok⟩ : ∃ h main g,
      generate schema (before ++ .func f :: after) = .ok ⟨[h, main, g]⟩ := ⟨_, _, _, rfl⟩
  obtain ⟨earlier, line, later, hlines, hopens, hlength, hrest⟩ :=
    (generate_separately schema).1 before f body after _ rfl hcalls hok
  obtain ⟨h', rfl⟩ := List.length_eq_one_iff.mp hlength
  cases hlines
  exact ⟨hcalls, h, main, g, hok, hopens, hrest⟩

end DiamondScript
