import DiamondScript.Proofs.Machine

namespace DiamondScript.Machine

open Codegen

def named : Dest → List Var
  | .var name scope => [(name, scope)]
  | .temp _ => []

theorem target_mem (dest : Dest) (n : Nat) :
    dest.target n ∈ temporaries n dest.own ++ named dest := by
  cases dest <;> simp [Dest.target, Dest.own, named, temporaries]

theorem targets_append (bs cs : List Codeblock) : targets (bs ++ cs) = targets bs ++ targets cs :=
  List.filterMap_append

theorem targets_fillDict {schema : Schema} {x : Var} {span : Span} {entries : List (String × Item)}
    {fill : List Codeblock}
    (h : fillDict schema (.ofVariable x.1 x.2) span entries = .ok fill) :
    ∀ y ∈ targets fill, y = x := by
  induction entries generalizing fill with
  | nil =>
      cases h
      simp [targets]
  | cons entry rest ih =>
      rw [fillDict] at h
      obtain ⟨block, hblock, h⟩ := bind_eq_ok.mp h
      obtain ⟨blocks, hblocks, h⟩ := bind_eq_ok.mp h
      cases h
      rw [← List.singleton_append, targets_append,
        targets_setVar (.set .dictionary) hblock, List.forall_mem_append]
      exact ⟨by simp, ih hblocks⟩

theorem targets_finish {schema : Schema} {x : Var} {e : Expr} {vs : List Value} {type : ValueType}
    {blocks : List Codeblock} (h : Finishes schema (.ofVariable x.1 x.2) e vs type blocks) :
    ∀ y ∈ targets blocks, y = x := by
  cases h with
  | dict created filled =>
      rw [← List.singleton_append, targets_append, targets_setVar .createDict created,
        List.forall_mem_append]
      exact ⟨by simp, targets_fillDict filled⟩
  | list created => simp [targets_setVar .createList created]
  | binary _ _ _ _ computed => simp [targets_setVar (.arithmetic _) computed]
  | index _ _ _ _ fetched => simp [targets_setVar (.get _) fetched]

theorem target_mem_finish {schema : Schema} {x : Var} {e : Expr} {vs : List Value}
    {type : ValueType} {blocks : List Codeblock}
    (h : Finishes schema (.ofVariable x.1 x.2) e vs type blocks) : x ∈ targets blocks := by
  cases h with
  | dict created filled =>
      rw [← List.singleton_append, targets_append, targets_setVar .createDict created]
      simp
  | list created => simp [targets_setVar .createList created]
  | binary _ _ _ _ computed => simp [targets_setVar (.arithmetic _) computed]
  | index _ _ _ _ fetched => simp [targets_setVar (.get _) fetched]

/-- Blocks take the temporaries with the given hints, numbered from `n` on: they write each of
them, and besides them only the given variables. -/
structure Writes (n : Nat) (hints : List String) (vars : List Var) (blocks : List Codeblock)
    (next : Nat) : Prop where
  next_eq : next = n + hints.length
  within : targets blocks ⊆ temporaries n hints ++ vars
  all : temporaries n hints ⊆ targets blocks

theorem Writes.nil (n : Nat) (vars : List Var) : Writes n [] vars [] n :=
  ⟨rfl, by simp [targets], by simp [temporaries]⟩

theorem Writes.mono {n : Nat} {hints : List String} {vars vars' : List Var}
    {blocks : List Codeblock} {next : Nat} (h : Writes n hints vars blocks next)
    (hsub : vars ⊆ vars') : Writes n hints vars' blocks next := by
  refine ⟨h.next_eq, fun x hx => ?_, h.all⟩
  rcases List.mem_append.mp (h.within hx) with hx | hx
  · exact List.mem_append_left _ hx
  · exact List.mem_append_right _ (hsub hx)

theorem Writes.append {n m k : Nat} {hs hs' : List String} {vars vars' : List Var}
    {bs cs : List Codeblock} (h : Writes n hs vars bs m) (h' : Writes m hs' vars' cs k) :
    Writes n (hs ++ hs') (vars ++ vars') (bs ++ cs) k := by
  obtain ⟨rfl, hwithin, hall⟩ := h
  obtain ⟨rfl, hwithin', hall'⟩ := h'
  refine ⟨by rw [List.length_append, Nat.add_assoc], fun x hx => ?_, fun x hx => ?_⟩
  · rw [targets_append] at hx
    simp only [temporaries_append, List.mem_append]
    rcases List.mem_append.mp hx with hx | hx
    · exact (List.mem_append.mp (hwithin hx)).imp .inl .inl
    · exact (List.mem_append.mp (hwithin' hx)).imp .inr .inr
  · rw [temporaries_append] at hx
    rw [targets_append]
    exact List.mem_append.mpr ((List.mem_append.mp hx).imp (@hall x) (@hall' x))

theorem writes_finish {schema : Schema} {dest : Dest} {m : Nat} {e : Expr} {vs : List Value}
    {type : ValueType} {blocks : List Codeblock}
    (h : Finishes schema (.ofVariable (dest.target m).1 (dest.target m).2) e vs type blocks) :
    Writes m dest.own (named dest) blocks (m + dest.own.length) := by
  refine ⟨rfl, fun y hy => ?_, fun y hy => ?_⟩
  · rw [targets_finish h y hy]
    exact target_mem dest m
  · cases dest with
    | var => simp [Dest.own, temporaries] at hy
    | temp hint =>
        have hy : y = temporary hint m := by simpa [Dest.own, temporaries] using hy
        rw [hy]
        exact target_mem_finish h

theorem writes_each {n : Nat} {ops : List (String × Expr)} {vs : Emitted (List Value)}
    (h : Each (fun hint n e v => Writes n (hintsOf [hint] e) [] v.blocks v.next) n ops vs) :
    Writes n (hintsAll ops) [] vs.blocks vs.next := by
  induction h with
  | nil n => exact .nil n []
  | cons head _ ih => exact head.append ih

theorem writes_compiles {ctx : Context} {dest : Dest} {n : Nat} {e : Expr} {v : Emitted Value}
    (h : Compiles ctx dest n e v) :
    Writes n (hintsOf dest.own e) (named dest) v.blocks v.next := by
  induction h with
  | number | str | styledText | vector | name => exact .nil _ _
  | computed values placed finish ih =>
      have hops := writes_each (ih.imp fun ⟨_, h⟩ => h)
      rw [place_eq] at placed
      cases placed
      rw [finish.hintsOf_eq]
      exact hops.append (writes_finish finish)
  | cast span type inner hv =>
      rw [hintsOf]
      exact hv

theorem targets_compiles {ctx : Context} {dest : Dest} {n : Nat} {e : Expr} {v : Emitted Value}
    (h : Compiles ctx dest n e v) :
    targets v.blocks ⊆ temporaries n (hintsOf dest.own e) ++ named dest :=
  (writes_compiles h).within

theorem targets_operand {ctx : Context} {hint : String} {n : Nat} {e : Expr} {v : Emitted Value}
    (h : Compiles ctx (.temp hint) n e v) :
    targets v.blocks ⊆ temporaries n (hintsOf [hint] e) := by
  simpa only [Dest.own, named, List.append_nil] using targets_compiles h

theorem writes_operands {ctx : Context} {n : Nat} {ops : List (String × Expr)}
    {vs : Emitted (List Value)} (h : Each (fun hint => Compiles ctx (.temp hint)) n ops vs) :
    Writes n (hintsAll ops) [] vs.blocks vs.next :=
  writes_each (h.imp fun hc => writes_compiles hc)

theorem targets_operands {ctx : Context} {n : Nat} {ops : List (String × Expr)}
    {vs : Emitted (List Value)} (h : Each (fun hint => Compiles ctx (.temp hint)) n ops vs) :
    targets vs.blocks ⊆ temporaries n (hintsAll ops) := by
  simpa only [List.append_nil] using (writes_operands h).within

end DiamondScript.Machine
