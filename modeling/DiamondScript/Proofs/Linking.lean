import DiamondScript.Proofs.Independence
import DiamondScript.Proofs.Matching
import DiamondScript.Proofs.NativeCalls
import DiamondScript.Proofs.Resolution

namespace DiamondScript

open Codegen

def Definition.paramsOf? (name : String) : Definition → Option (List Param)
  | .var _ => none
  | .func f => if f.name = name then some f.params else none

/-- The parameters in the latest declaration of a function, with or without a body. -/
def declaredParams? (definitions : List Definition) (name : String) : Option (List Param) :=
  definitions.reverse.findSome? (Definition.paramsOf? name)

theorem declaredParams?_cons (d : Definition) (rest : List Definition) (name : String) :
    declaredParams? (d :: rest) name = (declaredParams? rest name).or (d.paramsOf? name) := by
  rw [declaredParams?, List.reverse_cons, List.findSome?_append, List.findSome?_singleton]
  rfl

theorem exists_of_coded? {definitions : List Definition} {k : Nat} {f : FuncDef}
    (h : (definitions.filterMap Definition.coded?)[k]? = some f) :
    ∃ before body after, definitions = before ++ .func f :: after ∧ f.body = some body ∧
      (before.filterMap Definition.coded?).length = k := by
  induction definitions generalizing k with
  | nil => cases h
  | cons d rest ih =>
      cases hd : d.coded? with
      | none =>
          rw [List.filterMap_cons_none hd] at h
          obtain ⟨before, body, after, rfl, hbody, hk⟩ := ih h
          exact ⟨d :: before, body, after, rfl, hbody, by rw [List.filterMap_cons_none hd, hk]⟩
      | some g =>
          rw [List.filterMap_cons_some hd] at h
          cases k with
          | zero =>
              cases h
              cases d with
              | var d => cases hd
              | func d =>
                  obtain ⟨body, hbody, rfl⟩ := Option.map_eq_some_iff.mp hd
                  exact ⟨[], body, rest, rfl, hbody, rfl⟩
          | succ k =>
              obtain ⟨before, body, after, rfl, hbody, hk⟩ := ih h
              refine ⟨d :: before, body, after, rfl, hbody, ?_⟩
              rw [List.filterMap_cons_some hd, List.length_cons, hk]

namespace Machine

theorem signature?_definitions (definitions : List Definition) (scope : Scope) (name : String) :
    ((definitions.foldl definitionScope scope).signature? name).map Signature.params =
      (declaredParams? definitions name).or ((scope.signature? name).map Signature.params) := by
  induction definitions generalizing scope with
  | nil => rfl
  | cons d rest ih =>
      rw [List.foldl_cons, ih, declaredParams?_cons, Option.or_assoc]
      congr 1
      cases d with
      | var d =>
          rw [definitionScope, Scope.signature?_define]
          rfl
      | func f =>
          rw [definitionScope, Scope.signature?_defineFunction, Definition.paramsOf?]
          by_cases hname : name = f.name
          · rw [if_pos hname, if_pos hname.symm]
            rfl
          · rw [if_neg hname, if_neg (Ne.symm hname)]
            rfl

theorem signature?_params (params : List Param) (scope : Scope) (name : String) :
    (params.foldl (fun s p => s.define p.name (innerType p) .line) scope).signature? name =
      scope.signature? name := by
  induction params generalizing scope with
  | nil => rfl
  | cons p rest ih => rw [List.foldl_cons, ih, Scope.signature?_define]

theorem signature?_body (body : List Stmt) (scope : Scope) (name : String) :
    (body.foldl stmtScope scope).signature? name = scope.signature? name := by
  induction body generalizing scope with
  | nil => rfl
  | cons stmt rest ih =>
      rw [List.foldl_cons, ih]
      cases stmt with
      | var d => exact Scope.signature?_define ..
      | expr e => rfl

theorem signature?_scopeInside (before : List Definition) (f : FuncDef) (body : List Stmt)
    (name : String) :
    ((scopeInside before f body).signature? name).map Signature.params =
      declaredParams? (before ++ [.func f]) name := by
  have haround := signature?_definitions (before ++ [.func f]) .empty name
  rw [List.foldl_append] at haround
  rw [scopeInside, signature?_body, signature?_params]
  exact haround.trans (Option.or_none ..)

theorem numberSlots_itemsFrom (i : Nat) (values : List Value) :
    numberSlots i (itemsFrom i values) = itemsFrom i values := by
  induction values generalizing i with
  | nil => rfl
  | cons v rest ih =>
      have hrest := ih (i + 1)
      rw [itemsFrom] at hrest ⊢
      rw [List.zipIdx_cons, List.map_cons, numberSlots, hrest]
      rfl

/-- The arguments of a call are taken by the given parameters, and a block carries their items. -/
def Hands (ctx : Context) (n : Nat) (span : Span) (args : List Expr) (b : Codeblock)
    (params : List Param) : Prop :=
  ∃ items, resolveArgs ctx .function span (params.map .ofParam) n args = .ok items ∧
    b.args = items.result

theorem Made.data_eq {schema : Schema} {b : Codeblock} (h : Made schema b) : b.data = none := by
  obtain ⟨kind, action, args, span, h⟩ := h
  obtain ⟨spec, -, rfl⟩ := newBlock_eq_ok.mp h
  rfl

theorem hands_genCall {ctx : Context} {n : Nat} {callee : String} {args : List Expr} {span : Span}
    {em : Emitted Unit} (h : genCall ctx n callee args span = .ok em) {b : Codeblock}
    (hb : b ∈ em.blocks) {name : String} (hdata : b.data = some name) :
    callee = name ∧ ∃ signature, ctx.scope.signature? name = some signature ∧
      Hands ctx n span args b signature.params := by
  obtain ⟨signature, items, block, hsignature, hargs, hblock, rfl⟩ := genCall_eq_ok h
  rcases List.mem_append.mp hb with hb | hb
  · have hnone := (made_resolveArgs hargs b hb).data_eq
    cases hnone.symm.trans hdata
  · obtain rfl := List.mem_singleton.mp hb
    cases hdata
    refine ⟨rfl, signature, hsignature, items, hargs, ?_⟩
    obtain ⟨vs, -, -, -, hitems, -⟩ := resolveArgs_walk hargs
    have hslots := newBlock_args hblock
    rw [hitems] at hslots ⊢
    exact hslots.trans (numberSlots_itemsFrom 0 vs.result)

theorem hands_genStmt {ctx : Context} {n : Nat} {stmt : Stmt} {em : Emitted Scope}
    (h : genStmt ctx n stmt = .ok em) {b : Codeblock} (hb : b ∈ em.blocks) {name : String}
    (hdata : b.data = some name) :
    ∃ span args signature, stmt = .expr (.call span name args) ∧
      ctx.scope.signature? name = some signature ∧ Hands ctx n span args b signature.params := by
  have hmade {schema : Schema} (hm : Made schema b) : False := by
    have hnone := hm.data_eq
    cases hnone.symm.trans hdata
  cases stmt with
  | var d =>
      obtain ⟨storage, var, type, value, span⟩ := d
      cases value with
      | none =>
          cases h
          cases hb
      | some value =>
          obtain ⟨em', h', rfl⟩ := genStmt_var.mp h
          exact (hmade (made_assignInto h' b hb)).elim
  | expr e =>
      cases e with
      | assign span var value =>
          obtain ⟨_, em', -, h', rfl⟩ := genStmt_assign.mp h
          exact (hmade (made_assignInto h' b hb)).elim
      | setIndex span object index value =>
          obtain ⟨em', h', rfl⟩ := genStmt_setIndex.mp h
          exact (hmade (made_genSetIndex h' b hb)).elim
      | call span callee args =>
          obtain ⟨em', h', hem⟩ := bind_eq_ok.mp h
          cases hem
          obtain ⟨rfl, signature, hsignature, hhands⟩ := hands_genCall h' hb hdata
          exact ⟨span, args, signature, rfl, hsignature, hhands⟩
      | action span ref args =>
          obtain ⟨em', h', hem⟩ := bind_eq_ok.mp h
          cases hem
          obtain ⟨_, _, items, block, -, -, hargs, hblock, rfl⟩ := genAction_eq_ok h'
          rcases List.mem_append.mp hb with hb | hb
          · exact (hmade (made_resolveArgs hargs b hb)).elim
          · rw [List.mem_singleton.mp hb] at hdata
            cases (made_newBlock hblock).data_eq.symm.trans hdata
      | _ => simp [genStmt, bind_eq_ok] at h

theorem hands_genFunction {schema : Schema} {before : List Definition} {g : FuncDef}
    {body : List Stmt} {line : Codeline}
    (h : genFunction schema (scopeAround before g) g body = .ok line) {b : Codeblock}
    (hb : b ∈ line.blocks) (hkind : b.kind = "call_func") {name : String}
    (hdata : b.data = some name) :
    ∃ i span args params, body[i]? = some (.expr (.call span name args)) ∧
      declaredParams? (before ++ [.func g]) name = some params ∧
      Hands ⟨schema, scopeInside before g (body.take i)⟩ (bodyHints (body.take i)).length span args
        b params := by
  obtain ⟨head, parts, hblocks, -, hlength, hparts⟩ := resolves_genFunction h
  obtain ⟨_, _, hopens, hfunc, -⟩ := opens_genFunction h
  cases hblocks.symm.trans hopens
  rw [hblocks] at hb
  rcases List.mem_cons.mp hb with rfl | hb
  · exact absurd (hkind.symm.trans hfunc) (by decide)
  · obtain ⟨part, hpart, hb⟩ := List.mem_flatten.mp hb
    obtain ⟨i, hi, rfl⟩ := List.mem_iff_getElem.mp hpart
    have hstmt : body[i]? = some body[i] := List.getElem?_eq_getElem (hlength ▸ hi)
    obtain ⟨⟨em, hem, hpart⟩, -⟩ := hparts i _ _ hstmt (List.getElem?_eq_getElem hi)
    obtain ⟨span, args, signature, hcall, hsignature, hhands⟩ :=
      hands_genStmt hem (hpart ▸ hb) hdata
    refine ⟨i, span, args, signature.params, hcall ▸ hstmt, ?_, hhands⟩
    rw [← signature?_scopeInside before g (body.take i), hsignature]
    rfl

/-- Calls link by the declaration in force. The arguments of a call are taken by the parameters in
the latest declaration of the callee up to the calling function; so they are taken by those of a
function with the callee's name, wherever its line is, if that declaration agrees with it. -/
theorem generate_links {schema : Schema} {definitions : List Definition} {program : Program}
    (h : generate schema definitions = .ok program) {k : Nat} {line : Codeline}
    (hline : program.lines[k]? = some line) {b : Codeblock} (hb : b ∈ line.blocks)
    (hkind : b.kind = "call_func") {name : String} (hdata : b.data = some name) :
    ∃ before g body after i span args params, definitions = before ++ .func g :: after ∧
      g.body = some body ∧ (before.filterMap Definition.coded?).length = k ∧
      body[i]? = some (.expr (.call span name args)) ∧
      declaredParams? (before ++ [.func g]) name = some params ∧
      Hands ⟨schema, scopeInside before g (body.take i)⟩ (bodyHints (body.take i)).length span args
        b params ∧
      ∀ (k' : Nat) callee, program.lines[k']? = some callee →
        callee.blocks.head?.bind Codeblock.data = some name →
        ∃ f, (definitions.filterMap Definition.coded?)[k']? = some f ∧ f.name = name ∧
          callee.Opens f ∧ (f.params.map Expectation.ofParam = params.map Expectation.ofParam →
            Hands ⟨schema, scopeInside before g (body.take i)⟩ (bodyHints (body.take i)).length
              span args b f.params) := by
  obtain ⟨g, hg, -⟩ := forall₂_getElem? (generate_opens h).flip hline
  obtain ⟨before, body, after, rfl, hbody, hk⟩ := exists_of_coded? hg
  obtain ⟨line', hline', hgen⟩ := generate_line h hbody
  rw [hk] at hline'
  cases hline.symm.trans hline'
  obtain ⟨i, span, args, params, hcall, hparams, hhands⟩ := hands_genFunction hgen hb hkind hdata
  refine ⟨before, g, body, after, i, span, args, params, rfl, hbody, hk, hcall, hparams, hhands, ?_⟩
  intro k' callee hcallee hname
  obtain ⟨f, hf, hopens⟩ := forall₂_getElem? (generate_opens h).flip hcallee
  have ⟨head, rest, hblocks, _, hhead, _⟩ := hopens
  refine ⟨f, hf, ?_, hopens, fun hagree => ?_⟩
  · rw [hblocks] at hname
    exact Option.some_inj.mp (hhead.symm.trans hname)
  · rw [Hands, hagree]
    exact hhands

/-- A call of a function that is declared before it and defined behind it. -/
theorem generate_links_forward :
    let schema := Schema.ofCatalog ⟨[], [⟨"FUNCTION", "func"⟩, ⟨"CALL FUNCTION", "call_func"⟩]⟩
    let param (name : String) : Param := ⟨name, .num, false, false, false, none⟩
    let f : FuncDef := ⟨"f", [param "a"], some [], default⟩
    let main : FuncDef :=
      ⟨"main", [param "n"], some [.expr (.call default "f" [.variable default "n"])], default⟩
    let definitions : List Definition :=
      [.func ⟨"f", [param "x"], none, default⟩, .func main, .func f]
    ∃ program line b, generate schema definitions = .ok program ∧
      program.lines[0]? = some line ∧ b ∈ line.blocks ∧ b.kind = "call_func" ∧
      b.data = some "f" ∧ ∃ ctx n span args, Hands ctx n span args b f.params := by
  intro schema param f main definitions
  obtain ⟨program, line, callee, b, hok, hlines, hb, hkind, hdata⟩ :
      ∃ program line callee b, generate schema definitions = .ok program ∧
        program.lines = [line, callee] ∧ b ∈ line.blocks ∧ b.kind = "call_func" ∧
        b.data = some "f" :=
    ⟨_, _, _, _, rfl, rfl, List.mem_cons_of_mem _ List.mem_cons_self, rfl, rfl⟩
  have hline : program.lines[0]? = some line := by rw [hlines]; rfl
  have hname : callee.blocks.head?.bind Codeblock.data = some "f" := by
    cases hok
    cases hlines
    rfl
  obtain ⟨before, g, body, after, i, span, args, params, hsplit, hbody, hk, -, hparams, -,
    hlinks⟩ := generate_links hok hline hb hkind hdata
  have hagree : params.map Expectation.ofParam = f.params.map Expectation.ofParam := by
    change [_, Definition.func main, Definition.func f] = _ at hsplit
    rcases before with _ | ⟨_, _ | ⟨_, before⟩⟩
    · cases hsplit
      cases hbody
    · cases hsplit
      cases hparams
      rfl
    · obtain ⟨rfl, hrest⟩ := List.cons.inj hsplit
      obtain ⟨rfl, -⟩ := List.cons.inj hrest
      cases hk
  obtain ⟨f', hf', -, -, hhands⟩ := hlinks 1 callee (by rw [hlines]; rfl) hname
  cases hf'
  exact ⟨program, line, b, hok, hline, hb, hkind, hdata, _, _, span, args, hhands hagree.symm⟩

/-- `func f(a: num); func main() { f(1); } func f(a: str) { }`: the call was checked by the first
declaration of `f`, and the parameters of the line of `f` do not take its argument. -/
theorem generate_links_redeclared :
    let schema := Schema.ofCatalog ⟨[], [⟨"FUNCTION", "func"⟩, ⟨"CALL FUNCTION", "call_func"⟩]⟩
    let param (type : ValueType) : Param := ⟨"a", type, false, false, false, none⟩
    let f : FuncDef := ⟨"f", [param (.simple .str)], some [], default⟩
    let args : List Expr := [.number default (.ofPattern false 0x3FF0000000000000)]
    let main : FuncDef := ⟨"main", [], some [.expr (.call default "f" args)], default⟩
    let definitions : List Definition :=
      [.func ⟨"f", [param .num], none, default⟩, .func main, .func f]
    ∃ program line callee b, generate schema definitions = .ok program ∧
      program.lines = [line, callee] ∧ b ∈ line.blocks ∧ b.kind = "call_func" ∧
      b.data = some "f" ∧ callee.Opens f ∧
      ∀ ctx n span, ¬ ∃ items, resolveArgs ctx .function span (f.params.map .ofParam) n args =
        .ok items := by
  intro schema param f args main definitions
  obtain ⟨program, line, callee, b, hok, hlines, hb, hkind, hdata⟩ :
      ∃ program line callee b, generate schema definitions = .ok program ∧
        program.lines = [line, callee] ∧ b ∈ line.blocks ∧ b.kind = "call_func" ∧
        b.data = some "f" :=
    ⟨_, _, _, _, rfl, rfl, List.mem_cons_of_mem _ List.mem_cons_self, rfl, rfl⟩
  have hopens := generate_opens hok
  rw [hlines] at hopens
  refine ⟨program, line, callee, b, hok, hlines, hb, hkind, hdata, ?_, ?_⟩
  · obtain _ | ⟨-, _ | ⟨hcallee, -⟩⟩ := hopens
    exact hcallee
  · rintro ctx n span ⟨items, h⟩
    cases h

end Machine
end DiamondScript
