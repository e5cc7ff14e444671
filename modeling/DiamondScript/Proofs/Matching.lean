import DiamondScript.Proofs.Items
import Mathlib.Order.Fin.Basic

namespace DiamondScript.Machine

open Codegen

section

variable (params : List Expectation)

def Absorbs (pos : Nat) : Prop :=
  pos = params.length - 1 ∨ params[pos]?.any Expectation.plural

def Passable (pos : Nat) : Prop := params[pos]?.any fun p => p.plural || p.optional

def behind : Option Nat → Nat
  | none => 0
  | some c => c + 1

/-- One move of the cursor. It stays where arguments are absorbed, goes to the next parameter, or
passes that one by. -/
structure Goes (reached pos : Nat) : Prop where
  inside : pos < params.length
  forward : reached ≤ pos + 1
  stays : reached = pos + 1 → Absorbs params pos
  passes : ∀ q, reached ≤ q → q < pos → pos = q + 1 ∧ Passable params q

/-- The positions that the cursor goes to, from the first parameter it has not reached, and the
first one it has not reached then. -/
inductive Walk : Nat → List Nat → Nat → Prop
  | nil (reached : Nat) : Walk reached [] reached
  | cons {reached pos last : Nat} {ps : List Nat} (head : Goes params reached pos)
      (tail : Walk (pos + 1) ps last) : Walk reached (pos :: ps) last

end

variable {params : List Expectation}

theorem absorbs_iff (p : Fin params.length) :
    Absorbs params p ↔ params[p].plural ∨ p.val = params.length - 1 := by
  rw [Absorbs, List.getElem?_eq_getElem p.isLt, or_comm]
  rfl

theorem passable_iff (p : Fin params.length) :
    Passable params p ↔ params[p].plural ∨ params[p].optional := by
  rw [Passable, List.getElem?_eq_getElem p.isLt]
  exact Bool.or_eq_true_iff

namespace Walk

variable {reached last : Nat} {ps : List Nat}

theorem inside (h : Walk params reached ps last) : ∀ p ∈ ps, p < params.length := by
  induction h with
  | nil => exact List.forall_mem_nil _
  | cons head _ ih => exact List.forall_mem_cons.mpr ⟨head.inside, ih⟩

theorem forward (h : Walk params reached ps last) : ∀ p ∈ ps, reached ≤ p + 1 := by
  induction h with
  | nil => exact List.forall_mem_nil _
  | cons head _ ih =>
      refine List.forall_mem_cons.mpr ⟨head.forward, fun p hp => ?_⟩
      have hfirst := head.forward
      have hlater := ih p hp
      omega

theorem again (h : Walk params reached ps last) {p : Nat} (hp : p ∈ ps)
    (hreached : reached = p + 1) : Absorbs params p := by
  induction h with
  | nil => cases hp
  | @cons reached pos last ps head tail ih =>
      rcases List.mem_cons.mp hp with rfl | hp
      · exact head.stays hreached
      · have hfirst := head.forward
        have hlater := tail.forward p hp
        exact ih hp (by omega)

theorem pairwise (h : Walk params reached ps last) :
    ps.Pairwise fun p q => p ≤ q ∧ (p = q → Absorbs params p) := by
  induction h with
  | nil => exact .nil
  | cons _ tail ih =>
      refine List.pairwise_cons.mpr ⟨fun q hq => ⟨?_, ?_⟩, ih⟩
      · exact Nat.le_of_succ_le_succ (tail.forward q hq)
      · rintro rfl
        exact tail.again hq rfl

theorem passed (h : Walk params reached ps last) {q : Nat} (hreached : reached ≤ q) (hq : q ∉ ps)
    (hbefore : ∃ p ∈ ps, q < p) : Passable params q ∧ q + 1 ∈ ps := by
  induction h with
  | nil => simp at hbefore
  | @cons reached pos last ps head tail ih =>
      obtain ⟨hne, hrest⟩ := not_or.mp (mt List.mem_cons.mpr hq)
      by_cases hpos : q < pos
      · obtain ⟨rfl, hpass⟩ := head.passes q hreached hpos
        exact ⟨hpass, List.mem_cons_self⟩
      · obtain ⟨p, hp, hlt⟩ := hbefore
        have hmem : p ∈ ps := by
          rcases List.mem_cons.mp hp with rfl | hp
          · exact absurd hlt hpos
          · exact hp
        obtain ⟨hpass, hnext⟩ := ih (by omega) hrest ⟨p, hmem, hlt⟩
        exact ⟨hpass, List.mem_cons_of_mem _ hnext⟩

theorem last_eq (h : Walk params reached ps last) :
    last = reached ∨ ∃ p ∈ ps, last = p + 1 := by
  induction h with
  | nil => exact .inl rfl
  | @cons reached pos last ps head tail ih =>
      right
      rcases ih with rfl | ⟨p, hp, rfl⟩
      · exact ⟨pos, List.mem_cons_self, rfl⟩
      · exact ⟨p, List.mem_cons_of_mem _ hp, rfl⟩

end Walk

theorem tryAt_eq (params : List Expectation) (cursor : Option Nat) :
    tryAt params cursor = behind cursor ∨
      tryAt params cursor + 1 = behind cursor ∧ Absorbs params (tryAt params cursor) := by
  cases cursor with
  | none => exact .inl rfl
  | some c =>
      rw [tryAt]
      split
      case isTrue habsorbs => exact .inr ⟨rfl, habsorbs⟩
      case isFalse => exact .inl rfl

theorem tryAt_lt (hne : params ≠ []) {cursor : Option Nat} (h : behind cursor ≤ params.length) :
    tryAt params cursor < params.length := by
  have hpos := List.length_pos_of_ne_nil hne
  cases cursor with
  | none => exact hpos
  | some c =>
      rw [tryAt]
      rw [behind] at h
      split
      case isTrue => exact h
      case isFalse hleaves =>
        have hlast := (not_or.mp hleaves).1
        omega

theorem settle_eq_ok {callee : Callee} {span : Span} {i pos pos' : Nat} {arg : Expr}
    {type : ValueType} (h : settle callee span params i pos arg type = .ok pos') :
    (∃ p, params[pos']? = some p ∧ p.accepts arg type) ∧
      (pos' = pos ∨ pos' = pos + 1 ∧ Passable params pos) := by
  rw [settle] at h
  split at h
  case h_1 => simp at h
  case h_2 p hp =>
    split at h
    case isTrue haccepts =>
      cases h
      exact ⟨⟨p, hp, haccepts⟩, .inl rfl⟩
    case isFalse =>
      split at h
      case isFalse => simp at h
      case isTrue hpass =>
        split at h
        case h_1 => simp at h
        case h_2 q hq =>
          split at h
          case isFalse => simp at h
          case isTrue haccepts =>
            cases h
            refine ⟨⟨q, hq, haccepts⟩, .inr ⟨rfl, ?_⟩⟩
            rw [Passable, hp]
            exact (Bool.and_eq_true_iff.mp hpass).1

theorem goes_of_settle {callee : Callee} {span : Span} {i pos : Nat} {cursor : Option Nat}
    {arg : Expr} {type : ValueType}
    (h : settle callee span params i (tryAt params cursor) arg type = .ok pos) :
    Goes params (behind cursor) pos := by
  obtain ⟨⟨p, hp, -⟩, hpos⟩ := settle_eq_ok h
  have hinside := (List.getElem?_eq_some_iff.mp hp).1
  rcases tryAt_eq params cursor with htry | ⟨htry, habsorbs⟩
  · rcases hpos with rfl | ⟨rfl, hpass⟩
    · exact ⟨hinside, by omega, by omega, by omega⟩
    · refine ⟨hinside, by omega, by omega, fun q hq hlt => ?_⟩
      obtain rfl : q = tryAt params cursor := by omega
      exact ⟨rfl, hpass⟩
  · rcases hpos with rfl | ⟨rfl, hpass⟩
    · exact ⟨hinside, by omega, fun _ => habsorbs, by omega⟩
    · exact ⟨hinside, by omega, by omega, by omega⟩

/-- The items that arguments leave, in slots from the `i`-th on. -/
def itemsFrom (i : Nat) (values : List Value) : List Item :=
  (values.zipIdx i).map fun e => e.1.item.atSlot e.2

section

variable {ctx : Context} {callee : Callee} {span : Span}

abbrev Generates (ctx : Context) (n : Nat) (args : List Expr) (vs : Emitted (List Value)) : Prop :=
  Each (fun hint n e v => genValue ctx (.temp hint) n e = .ok v) n (argumentOperands args) vs

def Takes (params : List Expectation) (pos : Nat) (arg : Expr × Value) : Prop :=
  ∃ p, params[pos]? = some p ∧ p.accepts arg.1 arg.2.type

theorem matchArgs_walk {args : List Expr} {i n : Nat} {cursor : Option Nat}
    {em : Emitted (List Item × Option Nat)}
    (h : matchArgs ctx callee span params i cursor n args = .ok em) :
    ∃ vs positions, Generates ctx n args vs ∧
      em = ⟨(itemsFrom i vs.result, em.result.2), vs.blocks, vs.next⟩ ∧
      List.Forall₂ (Takes params) positions (args.zip vs.result) ∧
      Walk params (behind cursor) positions (behind em.result.2) := by
  induction args generalizing i n cursor em with
  | nil =>
      cases h
      exact ⟨⟨[], [], n⟩, [], .nil n, rfl, .nil, .nil _⟩
  | cons arg rest ih =>
      rw [matchArgs] at h
      obtain ⟨v, hv, h⟩ := bind_eq_ok.mp h
      obtain ⟨pos, hpos, h⟩ := bind_eq_ok.mp h
      obtain ⟨later, hlater, h⟩ := bind_eq_ok.mp h
      cases h
      obtain ⟨vs, positions, hvs, hem, htakes, hwalk⟩ := ih hlater
      refine ⟨_, pos :: positions, .cons hv hvs, ?_, .cons (settle_eq_ok hpos).1 htakes,
        .cons (goes_of_settle hpos) hwalk⟩
      rw [hem]
      rfl

/-- A position is tried while the arguments from the `i`-th on are matched, whatever comes of it. -/
inductive Tries (ctx : Context) (callee : Callee) (span : Span) (params : List Expectation) :
    Nat → Option Nat → Nat → List Expr → Nat → Prop
  | here {i n : Nat} {cursor : Option Nat} {arg : Expr} {rest : List Expr} {v : Emitted Value}
      (value : genValue ctx (.temp "__carg") n arg = .ok v) :
      Tries ctx callee span params i cursor n (arg :: rest) (tryAt params cursor)
  | later {i n pos tried : Nat} {cursor : Option Nat} {arg : Expr} {rest : List Expr}
      {v : Emitted Value} (value : genValue ctx (.temp "__carg") n arg = .ok v)
      (settled : settle callee span params i (tryAt params cursor) arg v.result.type = .ok pos)
      (next : Tries ctx callee span params (i + 1) (some pos) v.next rest tried) :
      Tries ctx callee span params i cursor n (arg :: rest) tried

theorem Tries.inside {i n pos : Nat} {cursor : Option Nat} {args : List Expr}
    (h : Tries ctx callee span params i cursor n args pos) (hne : params ≠ [])
    (hcursor : behind cursor ≤ params.length) : pos < params.length := by
  induction h with
  | here => exact tryAt_lt hne hcursor
  | later _ settled _ ih => exact ih (goes_of_settle settled).inside

theorem optional_of_firstRequired {start : Nat} (h : firstRequired params start = none)
    (p : Fin params.length) (hp : start ≤ p) : params[p].optional := by
  have hmem : (params[p], p.val) ∈ params.zipIdx.drop start := by
    refine List.mem_drop_iff_getElem.mpr ⟨p - start, ?_, ?_⟩
    · rw [List.length_zipIdx]
      omega
    · rw [List.getElem_zipIdx]
      simp [Nat.add_sub_cancel' hp]
  simpa using List.find?_eq_none.mp h _ hmem

theorem resolveArgs_walk {args : List Expr} {n : Nat} {em : Emitted (List Item)}
    (h : resolveArgs ctx callee span params n args = .ok em) :
    ∃ vs positions last, Generates ctx n args vs ∧
      em = ⟨itemsFrom 0 vs.result, vs.blocks, vs.next⟩ ∧
      List.Forall₂ (Takes params) positions (args.zip vs.result) ∧
      Walk params 0 positions last ∧ ∀ p : Fin params.length, last ≤ p → params[p].optional := by
  rw [resolveArgs] at h
  obtain ⟨matched, hmatched, h⟩ := bind_eq_ok.mp h
  obtain ⟨vs, positions, hvs, hem, htakes, hwalk⟩ := matchArgs_walk hmatched
  obtain ⟨⟨items, cursor⟩, blocks, next⟩ := matched
  cases hem
  dsimp only at h
  split at h
  case h_1 => simp at h
  case h_2 hrequired =>
    cases h
    have hrest := optional_of_firstRequired hrequired
    cases cursor with
    | none => exact ⟨vs, positions, 0, hvs, rfl, htakes, hwalk, hrest⟩
    | some c => exact ⟨vs, positions, c + 1, hvs, rfl, htakes, hwalk, hrest⟩

end

/-- Each argument goes to a parameter that accepts it, and none of them goes back. Only a plural or
the last parameter gets several; one that is left out before the last one reached is plural or
optional and its neighbours are not left out, and those behind are optional. -/
structure Matches (params : List Expectation) (args : List Expr) (values : List Value)
    (σ : Fin args.length → Fin params.length) : Prop where
  monotone : Monotone σ
  accepted : ∀ i v, values[i.val]? = some v → params[σ i].accepts args[i] v.type
  shared : ∀ i j, i ≠ j → σ i = σ j →
    params[σ i].plural ∨ (σ i).val = params.length - 1
  skipped : ∀ p, (∃ i, p < σ i) → (∀ i, σ i ≠ p) → params[p].plural ∨ params[p].optional
  apart : ∀ p q : Fin params.length, q.val = p.val + 1 → (∃ i, p < σ i) → (∀ i, σ i ≠ p) →
    ∃ i, σ i = q
  rest : ∀ p, (∀ i, σ i < p) → params[p].optional

theorem Matches.required {args : List Expr} {values : List Value}
    {σ : Fin args.length → Fin params.length} (h : Matches params args values σ)
    {p : Fin params.length} (hoptional : params[p].optional = false)
    (hplural : params[p].plural = false) :
    (∃ i, σ i = p) ∧ (p.val ≠ params.length - 1 → ∃! i, σ i = p) := by
  have hgets : ∃ i, σ i = p := by
    by_contra hnone
    have hnone := not_exists.mp hnone
    by_cases hbefore : ∃ i, p < σ i
    · rcases h.skipped p hbefore hnone with hp | hp
      · cases hplural.symm.trans hp
      · cases hoptional.symm.trans hp
    · have hbehind : ∀ i, σ i < p := fun i =>
        lt_of_le_of_ne (not_lt.mp (not_exists.mp hbefore i)) (hnone i)
      cases hoptional.symm.trans (h.rest p hbehind)
  refine ⟨hgets, fun hlast => ?_⟩
  obtain ⟨i, rfl⟩ := hgets
  refine ⟨i, rfl, fun j hj => ?_⟩
  by_contra hne
  rcases h.shared i j (Ne.symm hne) hj.symm with hp | hp
  · cases hplural.symm.trans hp
  · exact hlast hp

theorem matches_of_walk {args : List Expr} {values : List Value} {positions : List Nat}
    {last : Nat} (hvalues : values.length = args.length)
    (htakes : List.Forall₂ (Takes params) positions (args.zip values))
    (hwalk : Walk params 0 positions last)
    (hrest : ∀ p : Fin params.length, last ≤ p → params[p].optional) :
    ∃ σ, Matches params args values σ := by
  have hlength : positions.length = args.length := by
    rw [htakes.length_eq, List.length_zip, hvalues, Nat.min_self]
  have hmem {q : Nat} : q ∈ positions ↔ ∃ i : Fin args.length, positions[i] = q := by
    rw [List.mem_iff_getElem]
    constructor
    · rintro ⟨i, hi, hq⟩
      exact ⟨⟨i, hlength ▸ hi⟩, hq⟩
    · rintro ⟨i, hq⟩
      exact ⟨i, _, hq⟩
  let σ (i : Fin args.length) : Fin params.length :=
    ⟨positions[i], hwalk.inside _ (hmem.mpr ⟨i, rfl⟩)⟩
  have hout {p : Fin params.length} (hp : ∀ i, σ i ≠ p) : p.val ∉ positions := by
    intro hin
    obtain ⟨i, hi⟩ := hmem.mp hin
    exact hp i (Fin.ext hi)
  have hbefore {p : Fin params.length} (hp : ∃ i, p < σ i) : ∃ q ∈ positions, p.val < q := by
    obtain ⟨i, hi⟩ := hp
    exact ⟨positions[i], hmem.mpr ⟨i, rfl⟩, hi⟩
  have hpair := List.pairwise_iff_getElem.mp hwalk.pairwise
  refine ⟨σ, ?_⟩
  constructor
  case monotone =>
    intro i j hij
    rcases eq_or_lt_of_le hij with rfl | hlt
    · exact le_rfl
    · exact (hpair i j _ _ hlt).1
  case accepted =>
    intro i v hv
    have harg : (args.zip values)[i.val]? = some (args[i], v) :=
      List.getElem?_zip_eq_some.mpr ⟨List.getElem?_eq_getElem i.isLt, hv⟩
    obtain ⟨pos, hpos, p, hp, haccepts⟩ := forall₂_getElem? htakes harg
    obtain ⟨_, rfl⟩ := List.getElem?_eq_some_iff.mp hpos
    obtain ⟨_, rfl⟩ := List.getElem?_eq_some_iff.mp hp
    exact haccepts
  case shared =>
    intro i j hne heq
    have hsame : positions[i] = positions[j] := congrArg Fin.val heq
    rw [← absorbs_iff]
    rcases lt_or_gt_of_ne hne with hlt | hlt
    · exact (hpair i j _ _ hlt).2 hsame
    · change Absorbs params positions[i]
      rw [hsame]
      exact (hpair j i _ _ hlt).2 hsame.symm
  case skipped =>
    intro p hbelow hskipped
    rw [← passable_iff]
    exact (hwalk.passed (Nat.zero_le _) (hout hskipped) (hbefore hbelow)).1
  case apart =>
    intro p q hq hbelow hskipped
    have hnext := (hwalk.passed (Nat.zero_le _) (hout hskipped) (hbefore hbelow)).2
    obtain ⟨i, hi⟩ := hmem.mp hnext
    exact ⟨i, Fin.ext (hi.trans hq.symm)⟩
  case rest =>
    intro p hbehind
    refine hrest p ?_
    rcases hwalk.last_eq with rfl | ⟨q, hq, rfl⟩
    · exact Nat.zero_le _
    · obtain ⟨i, rfl⟩ := hmem.mp hq
      exact hbehind i

/-- The matching of arguments to parameters is sound. Every call that finds its parameters hands
arguments over only where there are parameters; then the cursor stays among the parameters, and a
success shares the arguments out among them and leaves their items in order. -/
theorem resolveArgs_matches (ctx : Context) (span : Span) (n : Nat) (args : List Expr) :
    (∀ callee params, (params = [] → args = []) →
      (∀ pos, Tries ctx callee span params 0 none n args pos →
        params[pos]? ≠ none ∧ (pos ≠ params.length - 1 → params[pos + 1]? ≠ none)) ∧
      ∀ em, resolveArgs ctx callee span params n args = .ok em →
        ∃ vs σ, Generates ctx n args vs ∧ vs.result.length = args.length ∧
          em = ⟨itemsFrom 0 vs.result, vs.blocks, vs.next⟩ ∧ Matches params args vs.result σ ∧
          ∀ p : Fin params.length, params[p].optional = false → params[p].plural = false →
            (∃ i, σ i = p) ∧ (p.val ≠ params.length - 1 → ∃! i, σ i = p)) ∧
    (∀ name,
      (ctx.scope.signature? name = none ∧ ∃ e, genCall ctx n name args span = .error e) ∨
      ∃ signature, ctx.scope.signature? name = some signature ∧
        Handed ctx .function span n args (.functionTakesNone name)
          (signature.params.map Expectation.ofParam)
          (appendBlock ctx "call_func" none span (Codeblock.withData name))
          (genCall ctx n name args span)) ∧
    ∀ ref,
      (((∃ e, ctx.schema.action ref.category ref.action = .error e) ∨
          ∃ e, ctx.schema.identifierOf ref.category = .error e) ∧
        ∃ e, genAction ctx n ref args span = .error e) ∨
      ∃ spec kind, ctx.schema.action ref.category ref.action = .ok spec ∧
        ctx.schema.identifierOf ref.category = .ok kind ∧
        Handed ctx .codeblock span n args (.actionTakesNone ref.action)
          (spec.arguments.map Expectation.ofArgument)
          (appendBlock ctx kind (some ref.action) span
            (Codeblock.withTarget (ref.target.map Target.wireName)))
          (genAction ctx n ref args span) := by
  refine ⟨fun callee params hhanded => ⟨fun pos htries => ?_, fun em hem => ?_⟩,
    fun name => handed_genCall ctx n name args span,
    fun ref => handed_genAction ctx n ref args span⟩
  · have hne : params ≠ [] := by
      rintro rfl
      rw [hhanded rfl] at htries
      cases htries
    have hpos := htries.inside hne (Nat.zero_le _)
    simp only [ne_eq, List.getElem?_eq_none_iff]
    exact ⟨by omega, fun hlast => by omega⟩
  · obtain ⟨vs, positions, last, hvs, rfl, htakes, hwalk, hrest⟩ := resolveArgs_walk hem
    have hlength : vs.result.length = args.length := by
      rw [hvs.length_eq, argumentOperands, List.length_map]
    obtain ⟨σ, hmatches⟩ := matches_of_walk hlength htakes hwalk hrest
    exact ⟨vs, σ, hvs, hlength, rfl, hmatches, fun p => hmatches.required⟩

/-- The call `f(1, "x")` of `f(a: num, b: num..., c: str?)`, which passes `b` by. -/
theorem resolveArgs_matches_passing :
    let schema := Schema.ofCatalog ⟨[], []⟩
    let one : Binary64 := .ofPattern false 0x3FF0000000000000
    let params : List Expectation := [⟨.declared .num, false, false⟩, ⟨.declared .num, true, false⟩,
      ⟨.declared (.simple .str), false, true⟩]
    let args : List Expr := [.number default one, .str default "x"]
    ∃ em vs, ∃ σ : Fin args.length → Fin params.length,
      resolveArgs ⟨schema, .empty⟩ .function default params 0 args = .ok em ∧
      em.result = [⟨0, .number one⟩, ⟨1, .string "x"⟩] ∧ Matches params args vs σ ∧
      σ 0 = 0 ∧ σ 1 = 2 := by
  intro schema one params args
  obtain ⟨em, hem, hitems⟩ : ∃ em,
      resolveArgs ⟨schema, .empty⟩ .function default params 0 args = .ok em ∧
        em.result = [⟨0, .number one⟩, ⟨1, .string "x"⟩] := ⟨_, rfl, rfl⟩
  obtain ⟨vs, σ, hvs, hlength, -, hmatches, hrequired⟩ :=
    ((resolveArgs_matches ⟨schema, .empty⟩ default 0 args).1 .function params nofun).2 em hem
  have honly (p : Fin params.length)
      (haccepts : params[p].accepts (.str default "x") (.simple .str)) : p = 2 := by
    obtain ⟨_ | _ | _ | p, hlt⟩ := p
    · cases haccepts
    · cases haccepts
    · rfl
    · have hlt : p + 3 < 3 := hlt
      omega
  have hlast : σ 1 = 2 := by
    rcases hvs with _ | ⟨_, _ | ⟨htext, _⟩⟩
    cases htext
    exact honly _ (hmatches.accepted 1 _ rfl)
  have hfirst : σ 0 = 0 := by
    obtain ⟨⟨_ | _ | i, hlt⟩, hi⟩ := (hrequired 0 rfl rfl).1
    · exact hi
    · cases hlast.symm.trans hi
    · have hlt : i + 2 < 2 := hlt
      omega
  exact ⟨em, vs.result, σ, hem, hitems, hmatches, hfirst, hlast⟩

end DiamondScript.Machine
