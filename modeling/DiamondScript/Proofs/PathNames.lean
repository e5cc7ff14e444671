import DiamondScript.Proofs.Siblings

namespace DiamondScript.Path

/-- The names along a path, without those that stand for nothing. -/
def names (cs : List Char) : List (List Char) :=
  (cs.splitOnP (· == '/')).filter fun name => !isIdle name

section names

theorem names_append_slash (front cs : List Char) :
    names (front ++ '/' :: cs) = names front ++ names cs := by
  have hsplit : (front ++ '/' :: cs).splitOnP (· == '/') =
      front.splitOnP (· == '/') ++ cs.splitOnP (· == '/') := List.splitOnP_append_cons _ _ rfl
  rw [names, hsplit, List.filter_append]
  rfl

theorem names_slash (cs : List Char) : names ('/' :: cs) = names cs :=
  names_append_slash [] cs

theorem splitOnP_name {name : List Char} (hslash : '/' ∉ name) :
    name.splitOnP (· == '/') = [name] := by
  apply List.splitOnP_eq_singleton
  intro c hc
  simpa using fun heq : c = '/' => hslash (heq ▸ hc)

theorem names_eq_singleton {name : List Char} (hslash : '/' ∉ name) (hidle : ¬ isIdle name) :
    names name = [name] := by
  rw [names, splitOnP_name hslash]
  simp [hidle]

theorem names_idle {name : List Char} (h : isIdle name) : names name = [] := by
  have hcases : name = [] ∨ name = ['.'] := by simpa [isIdle] using h
  rcases hcases with rfl | rfl <;> rfl

theorem splitName_cases (body : List Char) :
    splitName body = ([], body) ∨ body = (splitName body).1 ++ '/' :: (splitName body).2 := by
  by_cases hslash : '/' ∈ body
  · right
    obtain ⟨backward, front, heq, hbackward⟩ :=
      List.eq_append_cons_of_mem (List.mem_reverse.mpr hslash)
    have hne : ∀ c ∈ backward, decide (c ≠ '/') = true := fun c hc =>
      decide_eq_true fun h => hbackward (h ▸ hc)
    have hbody : body = front.reverse ++ '/' :: backward.reverse := by
      rw [← List.reverse_reverse body, heq]
      simp
    have hsplit : splitName body = (front.reverse, backward.reverse) := by
      simp only [splitName, heq]
      rw [List.takeWhile_append_of_pos hne, List.dropWhile_append_of_pos hne]
      simp
    rw [hsplit]
    exact hbody
  · left
    refine Prod.ext ?_ (splitName_self hslash)
    have hdrop := List.dropWhile_eq_nil_iff.mpr (ne_slash_of_mem_reverse hslash)
    simp only [splitName, hdrop]
    rfl

theorem names_splitName (body : List Char) :
    names body = names (splitName body).1 ++ names (splitName body).2 := by
  rcases splitName_cases body with h | h
  · rw [h]
    rfl
  · exact (congrArg names h).trans (names_append_slash ..)

theorem splitName_isPrefixOf (body : List Char) : (splitName body).1 <+: body := by
  rcases splitName_cases body with h | h
  · rw [h]
    exact List.nil_prefix
  · exact ⟨_, h.symm⟩

theorem length_splitName {body : List Char} (h : body ≠ []) :
    (splitName body).1.length < body.length := by
  rcases splitName_cases body with heq | heq
  · rw [heq]
    exact List.length_pos_iff.mpr h
  · have hlength := congrArg List.length heq
    rw [List.length_append, List.length_cons] at hlength
    omega

theorem names_trimBody (n : Nat) (body : List Char) : names (trimBody n body) = names body := by
  fun_induction trimBody n body with
  | case1 => rfl
  | case2 => rfl
  | case3 n body hne front name hsplit hidle ih =>
      have hnames := names_splitName body
      rw [hsplit, names_idle hidle, List.append_nil] at hnames
      rw [ih, hnames]
  | case4 => rfl

theorem trimBody_isPrefixOf (n : Nat) (body : List Char) : trimBody n body <+: body := by
  fun_induction trimBody n body with
  | case1 => exact List.prefix_rfl
  | case2 => exact List.prefix_rfl
  | case3 n body hne front name hsplit hidle ih =>
      have hfront := splitName_isPrefixOf body
      rw [hsplit] at hfront
      exact ih.trans hfront
  | case4 => exact List.prefix_rfl

theorem trimBody_ends {n : Nat} {body : List Char} (hn : body.length < n) :
    trimBody n body = [] ∨ ¬ isIdle (splitName (trimBody n body)).2 := by
  fun_induction trimBody n body with
  | case1 => omega
  | case2 n body hempty => exact .inl (List.isEmpty_iff.mp hempty)
  | case3 n body hne front name hsplit hidle ih =>
      have hfront := length_splitName (mt List.isEmpty_iff.mpr hne)
      rw [hsplit] at hfront
      exact ih (Nat.lt_of_lt_of_le hfront (by omega))
  | case4 n body hne front name hsplit hidle =>
      right
      rw [hsplit]
      exact hidle

end names

section parents

variable {p base q : Path} {name : String}

theorem splitLead_cases (cs : List Char) :
    (∃ rest, cs = '/' :: rest ∧ splitLead cs = (['/'], rest)) ∨
      (splitLead cs = ([], cs) ∧ cs.head? ≠ some '/') ∨
      ∃ rest, cs = '.' :: rest ∧ splitLead cs = (['.'], rest) ∧ ∀ c ∈ rest.head?, c = '/' := by
  fun_cases splitLead cs with
  | case1 rest => exact .inl ⟨rest, rfl, rfl⟩
  | case2 => exact .inr (.inr ⟨[], rfl, rfl, by simp⟩)
  | case3 rest => exact .inr (.inr ⟨'/' :: rest, rfl, rfl, by simp⟩)
  | case4 cs hslash =>
      refine .inr (.inl ⟨rfl, fun h => ?_⟩)
      obtain ⟨rest, rfl⟩ := List.head?_eq_some_iff.mp h
      exact hslash rest rfl

theorem names_lead {cs front : List Char} (h : front <+: (splitLead cs).2) :
    names ((splitLead cs).1 ++ front) = names front := by
  rcases splitLead_cases cs with ⟨rest, -, hlead⟩ | ⟨hlead, -⟩ | ⟨rest, -, hlead, hslash⟩
  · rw [hlead]
    exact names_slash front
  · rw [hlead]
    rfl
  · rw [hlead] at h ⊢
    cases front with
    | nil => rfl
    | cons c front =>
        obtain ⟨more, rfl⟩ := h
        obtain rfl : c = '/' := hslash c rfl
        rw [names_slash]
        exact names_append_slash ['.'] front

theorem names_toList (p : Path) : names p.toList = names (splitLead p.toList).2 := by
  have happend : (splitLead p.toList).1 ++ (splitLead p.toList).2 = p.toList := by
    rcases splitLead_cases p.toList with ⟨rest, hp, hlead⟩ | ⟨hlead, -⟩ | ⟨rest, hp, hlead, -⟩
    · rw [hlead, hp]
      rfl
    · rw [hlead]
      rfl
    · rw [hlead, hp]
      rfl
  exact (congrArg names happend.symm).trans (names_lead List.prefix_rfl)

theorem head?_lead {cs front : List Char} (h : front <+: (splitLead cs).2) :
    ((splitLead cs).1 ++ front).head? = some '/' ↔ cs.head? = some '/' := by
  rcases splitLead_cases cs with ⟨rest, rfl, hlead⟩ | ⟨hlead, hhead⟩ | ⟨rest, rfl, hlead, -⟩
  · simp [hlead]
  · rw [hlead] at h ⊢
    obtain ⟨more, rfl⟩ : front <+: cs := h
    refine ⟨fun hfront => ?_, fun hcs => absurd hcs hhead⟩
    rw [List.nil_append] at hfront
    rw [List.head?_append, hfront]
    rfl
  · simp [hlead]

theorem parent?_eq (h : trimmed (splitLead p.toList).2 ≠ []) :
    parent? p = some (String.ofList ((splitLead p.toList).1 ++
      trimmed (splitName (trimmed (splitLead p.toList).2)).1)) := by
  rw [parent?]
  generalize splitLead p.toList = r at h ⊢
  obtain ⟨lead, body⟩ := r
  dsimp only at h ⊢
  split
  · exact absurd ‹_› h
  · rfl

theorem parent?_of_fileName? (h : fileName? p = some name) :
    ∃ up, parent? p = some up ∧ names p.toList = names up.toList ++ [name.toList] ∧
      isAbsolute up = isAbsolute p := by
  obtain ⟨hne, hname⟩ := fileName?_eq_some h
  have hends := (trimBody_ends (Nat.lt_succ_self _)).resolve_left hne
  have hnoSlash := slash_notMem_splitName (trimmed (splitLead p.toList).2)
  have hfront : trimmed (splitName (trimmed (splitLead p.toList).2)).1 <+:
      (splitLead p.toList).2 :=
    (trimBody_isPrefixOf _ _).trans ((splitName_isPrefixOf _).trans (trimBody_isPrefixOf _ _))
  refine ⟨_, parent?_eq hne, ?_, ?_⟩
  · rw [String.toList_ofList, names_lead hfront, names_toList, hname]
    calc names (splitLead p.toList).2
      _ = names (trimmed (splitLead p.toList).2) := (names_trimBody ..).symm
      _ = names (splitName (trimmed (splitLead p.toList).2)).1 ++
          [(splitName (trimmed (splitLead p.toList).2)).2] := by
        rw [names_splitName, names_eq_singleton hnoSlash hends]
      _ = _ := by rw [trimmed, trimmed, names_trimBody]
  · rw [isAbsolute, isAbsolute, String.toList_ofList, Bool.eq_iff_iff, beq_iff_eq, beq_iff_eq]
    exact head?_lead hfront

theorem isAbsolute_join (base : Path) (hslash : '/' ∉ q.toList) :
    isAbsolute (join base q) = isAbsolute base := by
  rw [join, isAbsolute_name hslash, if_neg Bool.false_ne_true]
  cases hlast : base.toList.getLast? with
  | none =>
      rw [isAbsolute_name hslash, isAbsolute, List.getLast?_eq_none_iff.mp hlast]
      rfl
  | some c =>
      have hhead (cs : List Char) : (base.toList ++ cs).head? = base.toList.head? := by
        cases hbase : base.toList with
        | nil => simp [hbase] at hlast
        | cons => rfl
      by_cases hc : c = '/'
      · simp only [if_pos hc, isAbsolute, String.toList_append, hhead]
      · simp only [if_neg hc, isAbsolute, String.toList_append, List.append_assoc, hhead]

/-- A name that a step downward may have. -/
structure IsName (name : String) : Prop where
  noSlash : '/' ∉ name.toList
  notIdle : isIdle name.toList = false
  notUp : name.toList ≠ ['.', '.']

theorem IsName.ne_nil (h : IsName name) : name.toList ≠ [] := by
  intro hnil
  simpa [hnil, isIdle] using h.notIdle

theorem IsName.append (h : IsName name) {ending : String} (hslash : '/' ∉ ending.toList)
    (hlong : 1 < ending.toList.length) : IsName (name ++ ending) := by
  obtain ⟨c, cs, hname⟩ := List.exists_cons_of_ne_nil h.ne_nil
  have hlength : 2 < (name ++ ending).toList.length := by
    rw [String.toList_append, hname, List.length_append, List.length_cons]
    omega
  refine ⟨?_, ?_, fun heq => ?_⟩
  · rw [String.toList_append, List.mem_append, not_or]
    exact ⟨h.noSlash, hslash⟩
  · rw [isIdle, Bool.or_eq_false_iff, beq_eq_false_iff_ne, beq_eq_false_iff_ne]
    constructor <;> intro heq <;> rw [heq] at hlength <;> exact absurd hlength (by decide)
  · rw [heq] at hlength
    exact absurd hlength (by decide)

theorem names_of_isName (h : IsName q) : names q.toList = [q.toList] :=
  names_eq_singleton h.noSlash (by simp [h.notIdle])

theorem names_join (base : Path) (h : IsName q) :
    names (join base q).toList = names base.toList ++ [q.toList] := by
  rw [join, isAbsolute_name h.noSlash, if_neg Bool.false_ne_true]
  cases hlast : base.toList.getLast? with
  | none =>
      rw [List.getLast?_eq_none_iff.mp hlast]
      exact names_of_isName h
  | some c =>
      obtain ⟨front, hfront⟩ := List.getLast?_eq_some_iff.mp hlast
      by_cases hc : c = '/'
      · simp only [if_pos hc]
        rw [String.toList_append, hfront, hc, List.append_assoc, List.singleton_append,
          names_append_slash, names_append_slash, names_of_isName h]
        rw [@names_idle [] rfl, List.append_nil]
      · simp only [if_neg hc]
        have hlist : (base ++ "/" ++ q).toList = base.toList ++ '/' :: q.toList := by simp
        rw [hlist, names_append_slash, names_of_isName h]

theorem fileName?_join (base : Path) (h : IsName q) : fileName? (join base q) = some q := by
  have hbody : (splitLead (join base q).toList).2 ≠ [] := fun hnil => by
    have hnames := names_join base h
    rw [names_toList, hnil, names_idle rfl] at hnames
    exact absurd hnames (by simp)
  have hlast : (splitName (splitLead (join base q).toList).2).2 = q.toList :=
    (lastPart_eq hbody).symm.trans (lastPart_join h.noSlash)
  have htrimmed : trimmed (splitLead (join base q).toList).2 =
      (splitLead (join base q).toList).2 := by
    simp [trimmed, trimBody, hlast, h.notIdle]
  rw [fileName?, htrimmed]
  split
  · exact absurd ‹_› hbody
  · simp only [hlast, if_neg h.notUp, String.ofList_toList]

theorem lastPart_join_ne_nil (base : Path) (h : IsName q) : lastPart (join base q) ≠ [] := by
  rw [lastPart_join h.noSlash]
  exact h.ne_nil

theorem isName_of_fileName? (h : fileName? p = some name) : IsName name := by
  obtain ⟨hne, hname⟩ := fileName?_eq_some h
  have hends := (trimBody_ends (Nat.lt_succ_self _)).resolve_left hne
  refine ⟨hname ▸ slash_notMem_splitName _, ?_, fun hup => ?_⟩
  · rw [hname]
    exact Bool.eq_false_iff.mpr hends
  · rw [fileName?] at h
    split at h
    · cases h
    · dsimp only at h
      rw [← hname, if_pos hup] at h
      cases h

theorem sibling_eq_join (h : fileName? p = some name) :
    ∃ up : Path, names p.toList = names up.toList ++ [name.toList] ∧
      isAbsolute up = isAbsolute p ∧ ∀ ending, sibling p ending = join up (name ++ ending) := by
  obtain ⟨up, hup, hnames, habsolute⟩ := parent?_of_fileName? h
  refine ⟨up, hnames, habsolute, fun ending => ?_⟩
  rw [sibling, withFileName, h, hup, Option.getD_some, Option.getD_some]

end parents

end DiamondScript.Path
