import DiamondScript.Files.Tree
import DiamondScript.Proofs.Outcome
import DiamondScript.Proofs.PathNames

namespace DiamondScript

namespace Place

/-- Where a part of a path leads, whatever is there. -/
def advance (p : Place) (part : String) : Place :=
  if part = "" ∨ part = "." then p else if part = ".." then p.above else p ++ [part]

theorem advance_idle (p : Place) {name : List Char} (h : Path.isIdle name) :
    p.advance (String.ofList name) = p := by
  have hcases : name = [] ∨ name = ['.'] := by simpa [Path.isIdle] using h
  rcases hcases with rfl | rfl <;> rfl

theorem advance_name (p : Place) {name : String} (h : Path.IsName name) :
    p.advance name = p ++ [name] := by
  have hidle : ¬ (name = "" ∨ name = ".") := by
    rintro (rfl | rfl)
    · exact absurd h.notIdle (by decide)
    · exact absurd h.notIdle (by decide)
  have hup : name ≠ ".." := by
    rintro rfl
    exact h.notUp rfl
  rw [advance, if_neg hidle, if_neg hup]

end Place

namespace Tree

/-- The place that a path leads to if it leads anywhere. -/
def place (p : Path) : Place :=
  ((Path.names p.toList).map String.ofList).foldl Place.advance (origin p)

variable {t t' : Tree} {p q : Place} {part : String}

section places

variable {path base : Path} {name : String}

theorem foldl_parts (path : Path) (p : Place) :
    (parts path).foldl Place.advance p =
      ((Path.names path.toList).map String.ofList).foldl Place.advance p := by
  rw [parts, Path.names]
  induction path.toList.splitOnP (· == '/') generalizing p with
  | nil => rfl
  | cons name names ih =>
      by_cases hidle : Path.isIdle name
      · rw [List.filter_cons_of_neg (by simp [hidle]), List.map_cons, List.foldl_cons,
          Place.advance_idle p hidle, ih]
      · rw [List.filter_cons_of_pos (by simp [hidle]), List.map_cons, List.map_cons,
          List.foldl_cons, List.foldl_cons, ih]

theorem place_append {up : Path} (hnames : Path.names path.toList =
      Path.names up.toList ++ [name.toList]) (habsolute : up.isAbsolute = path.isAbsolute)
    (hname : Path.IsName name) : place path = place up ++ [name] := by
  rw [place, hnames, origin, ← habsolute, List.map_append, List.foldl_append, List.map_cons,
    String.ofList_toList]
  exact Place.advance_name _ hname

theorem place_join (base : Path) (h : Path.IsName name) :
    place (base.join name) = place base ++ [name] :=
  place_append (Path.names_join base h) (Path.isAbsolute_join base h.noSlash).symm h

theorem place_sibling (h : path.fileName? = some name) :
    ∃ up, place path = up ++ [name] ∧ ∀ ending : String, '/' ∉ ending.toList →
      1 < ending.toList.length → place (path.sibling ending) = up ++ [name ++ ending] := by
  obtain ⟨up, hnames, habsolute, hsibling⟩ := Path.sibling_eq_join h
  have hname := Path.isName_of_fileName? h
  refine ⟨place up, place_append hnames habsolute hname, fun ending hslash hlong => ?_⟩
  rw [hsibling]
  exact place_join up (hname.append hslash hlong)

theorem parts_eq_append (path : Path) :
    ∃ front, parts path = front ++ [String.ofList path.lastPart] := by
  rcases Path.splitName_cases path.toList with hsplit | hsplit
  · have hslash : '/' ∉ path.toList := by
      have := Path.slash_notMem_splitName path.toList
      rwa [hsplit] at this
    refine ⟨[], ?_⟩
    rw [parts, Path.lastPart, Path.splitOnP_name hslash, hsplit]
    rfl
  · have hparts : path.toList.splitOnP (· == '/') =
        (Path.splitName path.toList).1.splitOnP (· == '/') ++
          [(Path.splitName path.toList).2] := by
      refine (congrArg (List.splitOnP (· == '/')) hsplit).trans ?_
      rw [List.splitOnP_append_cons _ _ rfl,
        Path.splitOnP_name (Path.slash_notMem_splitName path.toList)]
    rw [parts, hparts, List.map_append]
    exact ⟨_, rfl⟩

end places

section walks

theorem node?_of_isUpward (t : Tree) (h : p.isUpward) : t.node? p = some .directory := by
  rw [node?, h]
  rfl

/-- Everything above a place is a directory. -/
def Reaches (t : Tree) (p : Place) : Prop := ∀ q, q <+: p → q ≠ p → t.node? q = some .directory

/-- A place and everything above it is a directory. -/
def Opens (t : Tree) (p : Place) : Prop := ∀ q, q <+: p → t.node? q = some .directory

def Keeps (t t' : Tree) : Prop := ∀ p, t.Opens p → t'.node? p = some .directory

theorem Reaches.opens (h : t.Reaches p) (hp : t.node? p = some .directory) : t.Opens p := by
  intro q hq
  by_cases heq : q = p
  · exact heq ▸ hp
  · exact h q hq heq

theorem Opens.mono (h : t.Opens p) (hq : q <+: p) : t.Opens q := fun r hr => h r (hr.trans hq)

theorem Opens.reaches (h : t.Opens p) : t.Reaches p := fun q hq _ => h q hq

theorem Opens.reaches_append (h : t.Opens p) (name : String) : t.Reaches (p ++ [name]) := by
  intro q hq hne
  rcases List.prefix_concat_iff.mp hq with heq | hq
  · exact absurd heq hne
  · exact h q hq

theorem Opens.reaches_above (h : t.Opens p) : t.Reaches p.above := by
  rw [Place.above]
  split
  · next heq => exact heq ▸ h.reaches
  split
  · exact h.reaches_append ".."
  · exact (h.mono (List.dropLast_prefix p)).reaches

theorem reaches_origin (t : Tree) (path : Path) : t.Reaches (origin path) := by
  have hnil : t.Opens [] := fun q hq => by
    rw [List.prefix_nil.mp hq]
    exact node?_of_isUpward t rfl
  rw [origin]
  split
  · exact hnil.reaches_append "/"
  · exact hnil.reaches

theorem Keeps.refl (t : Tree) : Keeps t t := fun p h => h p List.prefix_rfl

theorem Keeps.reaches (h : Keeps t t') (hp : t.Reaches p) : t'.Reaches p := by
  intro q hq hne
  refine h q fun r hr => hp r (hr.trans hq) ?_
  rintro rfl
  exact hne (List.IsPrefix.eq_of_length_le hq hr.length_le)

theorem enter_eq_ok (h : t.enter p part = .ok q) :
    t.node? p = some .directory ∧ q = p.advance part := by
  rw [enter] at h
  split at h
  · cases h
  · cases h
  · next hdirectory =>
      refine ⟨hdirectory, ?_⟩
      rw [Place.advance]
      split at h
      · next hidle => rw [if_pos hidle, Except.ok.inj h]
      split at h
      · next hidle hup => rw [if_neg hidle, if_pos hup, Except.ok.inj h]
      split at h
      · cases h
      · next hidle hup _ => rw [if_neg hidle, if_neg hup, Except.ok.inj h]

theorem enter_congr (h : t.node? p = t'.node? p) (part : String) :
    t.enter p part = t'.enter p part := by
  rw [enter, enter, h]

theorem Opens.reaches_advance (h : t.Opens p) (part : String) : t.Reaches (p.advance part) := by
  rw [Place.advance]
  split
  · exact h.reaches
  split
  · exact h.reaches_above
  · exact h.reaches_append part

variable {walk : List String}

theorem foldlM_enter_cons (h : (part :: walk).foldlM t.enter p = .ok q) :
    t.node? p = some .directory ∧ t.enter p part = .ok (p.advance part) ∧
      walk.foldlM t.enter (p.advance part) = .ok q := by
  rw [List.foldlM_cons] at h
  obtain ⟨r, hr, h⟩ := bind_eq_ok.mp h
  obtain ⟨hp, rfl⟩ := enter_eq_ok hr
  exact ⟨hp, hr, h⟩

theorem eq_of_foldlM_enter (h : walk.foldlM t.enter p = .ok q) :
    q = walk.foldl Place.advance p := by
  induction walk generalizing p with
  | nil => exact (Except.ok.inj h).symm
  | cons part walk ih => exact ih (foldlM_enter_cons h).2.2

/-- A walk only passes directories, and it leads on in every tree that has these. -/
theorem Keeps.foldlM_enter (hkeeps : Keeps t t') (hp : t.Reaches p)
    (h : walk.foldlM t.enter p = .ok q) :
    t.Reaches q ∧ walk.foldlM t'.enter p = .ok q := by
  induction walk generalizing p with
  | nil => exact ⟨Except.ok.inj h ▸ hp, h⟩
  | cons part walk ih =>
      obtain ⟨hdirectory, henter, hwalk⟩ := foldlM_enter_cons h
      have hopens := hp.opens hdirectory
      have hsame := hdirectory.trans (hkeeps p hopens).symm
      obtain ⟨hq, hwalk⟩ := ih (hopens.reaches_advance part) hwalk
      refine ⟨hq, ?_⟩
      rw [List.foldlM_cons, ← enter_congr hsame, henter]
      exact hwalk

theorem foldlM_enter_filter (h : walk.foldlM t.enter p = .ok q) :
    (walk.filter (· ≠ "")).foldlM t.enter p = .ok q := by
  induction walk generalizing p with
  | nil => exact h
  | cons part walk ih =>
      obtain ⟨-, henter, hwalk⟩ := foldlM_enter_cons h
      by_cases hempty : part = ""
      · subst hempty
        exact ih hwalk
      · rw [List.filter_cons_of_pos (by simpa using hempty), List.foldlM_cons, henter]
        exact ih hwalk

theorem foldlM_enter_of_filter (h : (walk.filter (· ≠ "")).foldlM t.enter p = .ok q)
    (hq : t.node? q = some .directory) : walk.foldlM t.enter p = .ok q := by
  induction walk generalizing p with
  | nil => exact h
  | cons part walk ih =>
      by_cases hempty : part = ""
      · subst hempty
        have hwalk : (walk.filter (· ≠ "")).foldlM t.enter p = .ok q := h
        have hp : t.node? p = some .directory := by
          cases hfilter : walk.filter (· ≠ "") with
          | nil =>
              rw [hfilter] at hwalk
              exact Except.ok.inj hwalk ▸ hq
          | cons next rest =>
              rw [hfilter] at hwalk
              exact (foldlM_enter_cons hwalk).1
        have henter : t.enter p "" = .ok p := by simp [enter, hp]
        rw [List.foldlM_cons, henter]
        exact ih hwalk
      · rw [List.filter_cons_of_pos (by simpa using hempty)] at h
        obtain ⟨-, henter, hwalk⟩ := foldlM_enter_cons h
        rw [List.foldlM_cons, henter]
        exact ih hwalk

end walks

section locations

variable {path : Path}

theorem locate_eq_ok (h : t.locate path = .ok q) :
    checkPath path = .ok () ∧ (parts path).foldlM t.enter (origin path) = .ok q := by
  obtain ⟨_, hcheck, hwalk⟩ := bind_eq_ok.mp h
  exact ⟨hcheck, hwalk⟩

theorem locate_of_walk (hcheck : checkPath path = .ok ())
    (hwalk : (parts path).foldlM t.enter (origin path) = .ok q) : t.locate path = .ok q :=
  bind_eq_ok.mpr ⟨(), hcheck, hwalk⟩

theorem eq_place_of_locate (h : t.locate path = .ok q) : q = place path := by
  rw [eq_of_foldlM_enter (locate_eq_ok h).2, foldl_parts]
  rfl

theorem reaches_of_locate (h : t.locate path = .ok q) : t.Reaches q :=
  ((Keeps.refl t).foldlM_enter (reaches_origin t path) (locate_eq_ok h).2).1

theorem Keeps.locate (hkeeps : Keeps t t') (h : t.locate path = .ok q) :
    t'.locate path = .ok q := by
  obtain ⟨hcheck, hwalk⟩ := locate_eq_ok h
  exact locate_of_walk hcheck (hkeeps.foldlM_enter (reaches_origin t path) hwalk).2

theorem locateNew_of_locate (h : t.locate path = .ok q) : t.locateNew path = .ok q := by
  obtain ⟨hcheck, hwalk⟩ := locate_eq_ok h
  exact bind_eq_ok.mpr ⟨(), hcheck, foldlM_enter_filter hwalk⟩

theorem locate_of_locateNew (h : t.locateNew path = .ok q) (hq : t.node? q = some .directory) :
    t.locate path = .ok q := by
  obtain ⟨_, hcheck, hwalk⟩ := bind_eq_ok.mp h
  exact locate_of_walk hcheck (foldlM_enter_of_filter hwalk hq)

/-- A path that ends in a name leads to the same place if that is yet to be made. -/
theorem locate_of_locateNew_name (hlast : path.lastPart ≠ [])
    (h : t.locateNew path = .ok q) : t.locate path = .ok q := by
  obtain ⟨_, hcheck, hwalk⟩ := bind_eq_ok.mp h
  obtain ⟨front, hparts⟩ := parts_eq_append path
  have hname : String.ofList path.lastPart ≠ "" := fun hempty => by
    apply hlast
    rw [← String.toList_ofList (l := path.lastPart), hempty]
    rfl
  apply locate_of_walk hcheck
  rw [hparts, List.filter_append, List.filter_cons_of_pos (by simpa using hname), List.filter_nil,
    List.foldlM_append] at hwalk
  obtain ⟨r, hfront, hlast⟩ := bind_eq_ok.mp hwalk
  rw [hparts, List.foldlM_append]
  exact bind_eq_ok.mpr ⟨r, foldlM_enter_of_filter hfront (foldlM_enter_cons hlast).1, hlast⟩

theorem eq_place_of_locateNew (h : t.locateNew path = .ok q) : q = place path := by
  obtain ⟨_, -, hwalk⟩ := bind_eq_ok.mp h
  have hempty : (fun (p : Place) part => if decide (part ≠ "") = true then p.advance part else p) =
      Place.advance := by
    funext p part
    by_cases hpart : part = ""
    · subst hpart
      rfl
    · exact if_pos (decide_eq_true hpart)
  rw [eq_of_foldlM_enter hwalk, List.foldl_filter, hempty, foldl_parts]
  rfl

theorem Keeps.locateNew (hkeeps : Keeps t t') (h : t.locateNew path = .ok q) :
    t'.locateNew path = .ok q := by
  obtain ⟨_, hcheck, hwalk⟩ := bind_eq_ok.mp h
  exact bind_eq_ok.mpr ⟨(), hcheck, (hkeeps.foldlM_enter (reaches_origin t path) hwalk).2⟩

end locations

end Tree

end DiamondScript
