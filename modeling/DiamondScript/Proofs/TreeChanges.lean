import DiamondScript.Proofs.TreePaths
import Mathlib.Data.List.Induction

namespace DiamondScript.Tree

variable {t t' : Tree} {p q source target : Place} {n : Node} {path : Path}

section lookups

theorem lookup_filter_ne {nodes : List (Place × Node)} (h : q ≠ p) :
    (nodes.filter fun e => e.1 != p).lookup q = nodes.lookup q := by
  induction nodes with
  | nil => rfl
  | cons e nodes ih =>
      by_cases he : e.1 = p
      · rw [List.filter_cons_of_neg (by simp [he]), ih, List.lookup_cons,
          beq_eq_false_iff_ne.mpr (he ▸ h)]
      · rw [List.filter_cons_of_pos (by simpa using he), List.lookup_cons, List.lookup_cons, ih]

theorem lookup_map_key {f : Place → Place} {nodes : List (Place × Node)}
    (h : ∀ e ∈ nodes, f e.1 = q ↔ e.1 = p) :
    (nodes.map fun e => (f e.1, e.2)).lookup q = nodes.lookup p := by
  induction nodes with
  | nil => rfl
  | cons e nodes ih =>
      obtain ⟨he, hnodes⟩ := List.forall_mem_cons.mp h
      have hkey : (q == f e.1) = (p == e.1) := by
        rw [Bool.eq_iff_iff, beq_iff_eq, beq_iff_eq, eq_comm, he, eq_comm]
      rw [List.map_cons, List.lookup_cons, List.lookup_cons, ih hnodes, hkey]

theorem lookup_eq_none {nodes : List (Place × Node)} (h : ∀ e ∈ nodes, e.1 ≠ q) :
    nodes.lookup q = none := by
  induction nodes with
  | nil => rfl
  | cons e nodes ih =>
      obtain ⟨he, hnodes⟩ := List.forall_mem_cons.mp h
      rw [List.lookup_cons, beq_eq_false_iff_ne.mpr he.symm]
      exact ih hnodes

end lookups

section nodes

theorem node?_eq_lookup (h : t.node? p ≠ some .directory) (t' : Tree) :
    t'.node? p = t'.nodes.lookup p := by
  rw [node?]
  split
  · next hfixed => exact absurd (by rw [node?, if_pos hfixed]) h
  · rfl

theorem node?_put_self (h : t.node? p ≠ some .directory) (n : Node) :
    (t.put p n).node? p = some n := by
  rw [node?_eq_lookup h, put, List.lookup_cons, beq_self_eq_true]

theorem node?_put_ne (h : q ≠ p) (t : Tree) (n : Node) : (t.put p n).node? q = t.node? q := by
  rw [node?, node?, put, List.lookup_cons, beq_eq_false_iff_ne.mpr h, lookup_filter_ne h]

/-- Where a place goes when another one is moved. -/
def moved (source target p : Place) : Place :=
  if source.isPrefixOf p then target ++ p.drop source.length else p

theorem moved_below (h : source <+: p) :
    moved source target p = target ++ p.drop source.length :=
  if_pos (List.isPrefixOf_iff_prefix.mpr h)

theorem moved_apart (h : ¬ source <+: p) : moved source target p = p :=
  if_neg (mt List.isPrefixOf_iff_prefix.mp h)

theorem move_eq (t : Tree) (source target : Place) :
    (t.move source target).nodes =
      (t.nodes.filter fun e => e.1 != target).map fun e => (moved source target e.1, e.2) := by
  rw [move]
  apply List.map_congr_left
  rintro ⟨p, n⟩ -
  dsimp only [moved]
  split <;> rfl

theorem lookup_move (hp : p ≠ target)
    (h : ∀ e ∈ t.nodes, e.1 ≠ target → (moved source target e.1 = q ↔ e.1 = p)) :
    (t.move source target).nodes.lookup q = t.nodes.lookup p := by
  rw [move_eq, lookup_map_key, lookup_filter_ne hp]
  intro e he
  obtain ⟨hmem, hne⟩ := List.mem_filter.mp he
  exact h e hmem (by simpa using hne)

theorem node?_move_target (hne : source ≠ target) (hsource : t.node? source ≠ some .directory)
    (htarget : t.node? target ≠ some .directory) :
    (t.move source target).node? target = t.node? source := by
  rw [node?_eq_lookup htarget, node?_eq_lookup hsource, lookup_move hne]
  intro e _ he
  by_cases hprefix : source <+: e.1
  · rw [moved_below hprefix]
    refine ⟨fun h => ?_, fun h => ?_⟩
    · have hdrop := List.append_right_eq_self.mp h
      exact (List.IsPrefix.eq_of_length_le hprefix (List.drop_eq_nil_iff.mp hdrop)).symm
    · rw [h, List.drop_length, List.append_nil]
  · rw [moved_apart hprefix]
    exact ⟨fun h => absurd h he, fun h => absurd (h ▸ List.prefix_rfl) hprefix⟩

theorem node?_move_apart (t : Tree) (hsource : ¬ source <+: q) (htarget : ¬ target <+: q) :
    (t.move source target).node? q = t.node? q := by
  have hne : q ≠ target := fun h => htarget (h ▸ List.prefix_rfl)
  rw [node?, node?, lookup_move hne]
  intro e _ _
  by_cases hprefix : source <+: e.1
  · rw [moved_below hprefix]
    refine ⟨fun h => absurd ?_ htarget, fun h => absurd (h ▸ hprefix) hsource⟩
    exact h ▸ List.prefix_append ..
  · rw [moved_apart hprefix]

end nodes

section changes

/-- Whatever can be reached in a tree is the same in another, but for some places. -/
def SameBut (places : List Place) (t t' : Tree) : Prop :=
  ∀ p, t.Reaches p → p ∉ places → t'.node? p = t.node? p

theorem SameBut.keeps {places : List Place} (h : SameBut places t t')
    (hold : ∀ p ∈ places, t.node? p ≠ some .directory) : Keeps t t' := by
  intro p hp
  have hdirectory := hp p List.prefix_rfl
  rw [h p hp.reaches fun hmem => hold p hmem hdirectory, hdirectory]

theorem SameBut.keeps_back {places : List Place} (h : SameBut places t t')
    (hnew : ∀ p ∈ places, t'.node? p ≠ some .directory) : Keeps t' t := by
  have hopens : ∀ p, t'.Opens p → t.Opens p := by
    intro p
    induction p using List.reverseRecOn with
    | nil =>
        intro _ q hq
        rw [List.prefix_nil.mp hq]
        exact node?_of_isUpward t rfl
    | append_singleton p name ih =>
        intro hp
        have hreaches := (ih (hp.mono (List.prefix_append p [name]))).reaches_append name
        have hdirectory := hp _ List.prefix_rfl
        apply hreaches.opens
        rw [← h _ hreaches fun hmem => hnew _ hmem hdirectory, hdirectory]
  exact fun p hp => hopens p hp p List.prefix_rfl

theorem SameBut.trans {places places' : List Place} {t'' : Tree} (h : SameBut places t t')
    (hkeeps : Keeps t t') (h' : SameBut places' t' t'') :
    SameBut (places ++ places') t t'' := by
  intro p hp hmem
  rw [List.mem_append, not_or] at hmem
  rw [h' p (hkeeps.reaches hp) hmem.2, h p hp hmem.1]

theorem sameBut_put (t : Tree) (p : Place) (n : Node) : SameBut [p] t (t.put p n) :=
  fun _ _ hq => node?_put_ne (fun h => hq (List.mem_singleton.mpr h)) t n

theorem sameBut_move (hsource : t.node? source ≠ some .directory)
    (htarget : t.node? target ≠ some .directory) :
    SameBut [source, target] t (t.move source target) := by
  intro p hp hmem
  rw [List.mem_cons, List.mem_singleton, not_or] at hmem
  apply node?_move_apart
  · exact fun h => hsource (hp source h (Ne.symm hmem.1))
  · exact fun h => htarget (hp target h (Ne.symm hmem.2))

theorem keeps_put (h : t.node? p ≠ some .directory) (n : Node) : Keeps t (t.put p n) :=
  (sameBut_put t p n).keeps (List.forall_mem_singleton.mpr h)

theorem node?_move_source (hsource : t.node? source ≠ some .directory)
    (htarget : ¬ target <+: source) : (t.move source target).node? source = none := by
  rw [node?_eq_lookup hsource, move_eq]
  apply lookup_eq_none
  intro e he
  obtain ⟨e, -, rfl⟩ := List.mem_map.mp he
  intro heq
  by_cases hprefix : source <+: e.1
  · rw [moved_below hprefix] at heq
    exact htarget (heq ▸ List.prefix_append ..)
  · rw [moved_apart hprefix] at heq
    exact hprefix (heq ▸ List.prefix_rfl)

end changes

section operations

theorem find_eq_ok : t.find path = .ok (q, n) ↔
    t.locate path = .ok q ∧ t.node? q = some n := by
  rw [find, bind_eq_ok]
  constructor
  · rintro ⟨r, hr, h⟩
    cases hnode : t.node? r with
    | none => simp [hnode] at h
    | some m =>
        simp only [hnode, Except.ok.injEq, Prod.mk.injEq] at h
        obtain ⟨rfl, rfl⟩ := h
        exact ⟨hr, hnode⟩
  · rintro ⟨hq, hn⟩
    exact ⟨q, hq, by simp [hn]⟩

def look (t : Tree) (path : Path) : Option Node :=
  match t.find path with
  | .ok (_, n) => some n
  | .error _ => none

theorem look_eq_some : t.look path = some n ↔
    t.locate path = .ok (place path) ∧ t.node? (place path) = some n := by
  rw [look]
  constructor
  · intro h
    split at h
    · next q m hfind =>
        obtain ⟨hlocate, hnode⟩ := find_eq_ok.mp hfind
        obtain rfl := eq_place_of_locate hlocate
        exact ⟨hlocate, hnode.trans h⟩
    · cases h
  · intro h
    rw [find_eq_ok.mpr h]

theorem find_of_look (h : t.look path = some n) : t.find path = .ok (place path, n) :=
  find_eq_ok.mpr (look_eq_some.mp h)

theorem exists?_eq (t : Tree) (path : Path) : t.exists? path = (t.look path).isSome := by
  rw [exists?, look]
  cases t.find path <;> rfl

theorem isDirectory_iff : t.isDirectory path ↔ t.look path = some .directory := by
  rw [isDirectory, look]
  constructor
  · intro h
    split at h
    · next hfind => rw [hfind]
    · cases h
  · intro h
    split at h
    · next hfind => rw [hfind, Option.some.inj h]
    · cases h

theorem Keeps.look_directory (hkeeps : Keeps t t') (h : t.look path = some .directory) :
    t'.look path = some .directory := by
  obtain ⟨hlocate, hnode⟩ := look_eq_some.mp h
  exact look_eq_some.mpr ⟨hkeeps.locate hlocate,
    hkeeps _ ((reaches_of_locate hlocate).opens hnode)⟩

theorem SameBut.look_eq {places : List Place} (h : SameBut places t t')
    (hold : ∀ p ∈ places, t.node? p ≠ some .directory)
    (hnew : ∀ p ∈ places, t'.node? p ≠ some .directory) (hpath : place path ∉ places) :
    t'.look path = t.look path := by
  apply Option.ext
  intro n
  rw [look_eq_some, look_eq_some]
  constructor
  · rintro ⟨hlocate, hnode⟩
    have hlocate := (h.keeps_back hnew).locate hlocate
    exact ⟨hlocate, (h _ (reaches_of_locate hlocate) hpath).symm.trans hnode⟩
  · rintro ⟨hlocate, hnode⟩
    exact ⟨(h.keeps hold).locate hlocate, (h _ (reaches_of_locate hlocate) hpath).trans hnode⟩

theorem read_eq_ok {data : List UInt8} (h : t.look path = some (.file data)) :
    t.read path = .ok data := by
  rw [read, find_of_look h]
  rfl

theorem write_eq_ok {data : List UInt8} (h : t.write path data = .ok t') :
    t.locate path = .ok (place path) ∧ t.node? (place path) ≠ some .directory ∧
      t' = t.put (place path) (.file data) := by
  obtain ⟨q, hq, h⟩ := bind_eq_ok.mp h
  obtain rfl := eq_place_of_locate hq
  split at h
  · cases h
  · next hne => exact ⟨hq, hne, (Except.ok.inj h).symm⟩

theorem makeDir_eq_ok (h : t.makeDir path = .ok t') :
    t.locateNew path = .ok (place path) ∧ t.node? (place path) = none ∧
      t' = t.put (place path) .directory := by
  obtain ⟨q, hq, h⟩ := bind_eq_ok.mp h
  obtain rfl := eq_place_of_locateNew hq
  split at h
  · cases h
  · next hnone => exact ⟨hq, hnone, (Except.ok.inj h).symm⟩

theorem rename_eq_ok {path' : Path} (h : t.rename path path' = .ok t') :
    t.locateNew path' = .ok (place path') ∧
      ∃ n, t.look path = some n ∧ (n ≠ .directory → t.node? (place path') ≠ some .directory) ∧
        t' = if place path = place path' then t else t.move (place path) (place path') := by
  obtain ⟨dest, hdest, h⟩ := bind_eq_ok.mp h
  obtain rfl := eq_place_of_locateNew hdest
  split at h
  · cases h
  obtain ⟨⟨q, n⟩, hfind, h⟩ := bind_eq_ok.mp h
  obtain rfl := eq_place_of_locate (find_eq_ok.mp hfind).1
  refine ⟨hdest, n, look_eq_some.mpr (find_eq_ok.mp hfind), ?_⟩
  dsimp only at h
  split at h
  · split at h
    · cases h
    split at h
    · cases h
    · next hne =>
        refine ⟨fun _ => hne, ?_⟩
        split at h
        · next heq => rw [if_pos heq, Except.ok.inj h]
        · next heq => rw [if_neg heq, Except.ok.inj h]
  · cases h
  · refine ⟨fun hn => absurd rfl hn, ?_⟩
    split at h
    · next heq => rw [if_pos heq, Except.ok.inj h]
    split at h
    · cases h
    split at h
    · cases h
    · next heq _ _ => rw [if_neg heq, Except.ok.inj h]

end operations

section directories

def settle (path : Path) (t : Tree) : Except OsError Unit × Tree :=
  match t.makeDir path with
  | .ok t' => (.ok (), t')
  | .error e => (if t.isDirectory path then .ok () else .error e, t)

/-- Makes directories with a bound on the steps upward. -/
def makeDirsFrom (n : Nat) (path : Path) : StateM Tree (Except OsError Unit) :=
  Files.makeDirsWith
    (fun p => do
      match (← get).makeDir p with
      | .ok t =>
        set t
        return .ok ()
      | .error e => return .error e)
    (fun p => return (← get).isDirectory p) n path

theorem run_again (path : Path) (e : OsError) (t : Tree) :
    (do if (← get).isDirectory path then return .ok () else return .error e :
      StateM Tree (Except OsError Unit)).run t =
      (if t.isDirectory path then .ok () else .error e, t) := by
  rw [StateT.run_bind, StateT.run_get, pure_bind]
  split <;> rfl

theorem makeDirsFrom_succ (n : Nat) (path : Path) (t : Tree) :
    (makeDirsFrom (n + 1) path).run t =
      if path.isEmpty then (.ok (), t)
      else match t.makeDir path with
        | .error .notFound =>
          match path.parent? with
          | none => (.error .notFound, t)
          | some up =>
            match (makeDirsFrom n up).run t with
            | (.error e, t') => (.error e, t')
            | (.ok (), t') => settle path t'
        | _ => settle path t := by
  rw [makeDirsFrom, Files.makeDirsWith]
  split
  · rfl
  cases hmake : t.makeDir path with
  | ok t' =>
      simp only [settle, StateT.run_bind, StateT.run_get, pure_bind, hmake]
      rfl
  | error e =>
      simp only [settle, StateT.run_bind, StateT.run_get, StateT.run_pure, pure_bind, hmake]
      cases e with
      | notFound =>
          cases path.parent? with
          | none => rfl
          | some up =>
              change (makeDirsFrom n up >>= _).run t = match (makeDirsFrom n up).run t with
                | (.error e, t') => (.error e, t')
                | (.ok (), t') => settle path t'
              rw [StateT.run_bind]
              generalize (makeDirsFrom n up).run t = r
              obtain ⟨e | ⟨⟩, t'⟩ := r
              · rfl
              · change StateT.run (m := Id) (α := Except OsError Unit) _ t' = _
                cases hmake' : t'.makeDir path with
                | ok t'' =>
                    simp only [settle, StateT.run_bind, StateT.run_get, pure_bind, hmake']
                    rfl
                | error e =>
                    simp only [settle, StateT.run_bind, StateT.run_get, StateT.run_pure,
                      pure_bind, hmake']
                    exact run_again path e t'
      | _ => exact run_again path _ t

theorem makeDirs_run (path : Path) (t : Tree) :
    (makeDirs path).run t = (makeDirsFrom (path.length + 1) path).run t := rfl

theorem isDirectory_of_makeDir (h : t.makeDir path = .ok t') : t'.isDirectory path := by
  obtain ⟨hnew, hnone, rfl⟩ := makeDir_eq_ok h
  have hne : t.node? (place path) ≠ some .directory := by simp [hnone]
  have hnode := node?_put_self hne .directory
  have hlocate := locate_of_locateNew ((keeps_put hne .directory).locateNew hnew) hnode
  exact isDirectory_iff.mpr (look_eq_some.mpr ⟨hlocate, hnode⟩)

theorem makeDir_of_isDirectory (h : t.isDirectory path) : t.makeDir path = .error .exists := by
  obtain ⟨hlocate, hnode⟩ := look_eq_some.mp (isDirectory_iff.mp h)
  rw [makeDir, locateNew_of_locate hlocate]
  simp [bind, Except.bind, hnode]

theorem isDirectory_of_settle (h : (settle path t).1 = .ok ()) :
    (settle path t).2.isDirectory path := by
  rw [settle] at h ⊢
  cases hmake : t.makeDir path with
  | ok t' => exact isDirectory_of_makeDir hmake
  | error e =>
      simp only [hmake] at h
      split at h
      · assumption
      · cases h

theorem isDirectory_of_makeDirs (h : ((makeDirs path).run t).1 = .ok ()) :
    path.isEmpty ∨ ((makeDirs path).run t).2.isDirectory path := by
  rw [makeDirs_run, makeDirsFrom_succ] at h ⊢
  split at h
  · exact .inl ‹_›
  right
  rw [if_neg ‹_›]
  split at h
  · split at h
    · cases h
    · split at h
      · cases h
      · exact isDirectory_of_settle h
  · exact isDirectory_of_settle h

theorem makeDirs_of_isDirectory (h : path.isEmpty ∨ t.isDirectory path) :
    (makeDirs path).run t = (.ok (), t) := by
  rw [makeDirs_run, makeDirsFrom_succ]
  split
  · rfl
  · have hdirectory := h.resolve_left ‹_›
    simp [settle, makeDir_of_isDirectory hdirectory, hdirectory]

/-- A relation that making one directory respects is respected by making many. -/
theorem makeDirs_respects {R : Tree → Tree → Prop} (hrefl : ∀ t, R t t)
    (htrans : ∀ {t t' t''}, R t t' → R t' t'' → R t t'')
    (hstep : ∀ {t t' : Tree} {path}, t.makeDir path = .ok t' → R t t') (path : Path) (t : Tree) :
    R t ((makeDirs path).run t).2 := by
  have hsettle (path : Path) (t : Tree) : R t (settle path t).2 := by
    rw [settle]
    cases hmake : t.makeDir path with
    | ok t' => exact hstep hmake
    | error e => exact hrefl t
  rw [makeDirs_run]
  generalize path.length + 1 = n
  induction n generalizing path t with
  | zero => exact hrefl t
  | succ n ih =>
      rw [makeDirsFrom_succ]
      split
      · exact hrefl t
      split
      · split
        · exact hrefl t
        · next up _ =>
            have hup := ih up t
            split
            · next heq => rwa [heq] at hup
            · next t' heq =>
                rw [heq] at hup
                exact htrans hup (hsettle path t')
      · exact hsettle path t

def Grows (t t' : Tree) : Prop :=
  ∀ p, t'.node? p = t.node? p ∨ t.node? p = none ∧ t'.node? p = some .directory

theorem Grows.keeps (h : Grows t t') : Keeps t t' := by
  intro p hp
  have hdirectory := hp p List.prefix_rfl
  rcases h p with heq | ⟨hnone, -⟩
  · rw [heq, hdirectory]
  · rw [hnone] at hdirectory
    cases hdirectory

theorem Grows.look (h : Grows t t') (hlook : t.look path = some n) : t'.look path = some n := by
  obtain ⟨hlocate, hnode⟩ := look_eq_some.mp hlook
  refine look_eq_some.mpr ⟨h.keeps.locate hlocate, ?_⟩
  rcases h (place path) with heq | ⟨hnone, -⟩
  · rw [heq, hnode]
  · rw [hnone] at hnode
    cases hnode

theorem grows_makeDirs (path : Path) (t : Tree) : Grows t ((makeDirs path).run t).2 := by
  apply makeDirs_respects
  · exact fun t p => .inl rfl
  · intro t t' t'' h h' p
    rcases h p with heq | ⟨hnone, hmade⟩
    · rw [← heq]
      exact h' p
    · rcases h' p with heq' | ⟨hnone', -⟩
      · exact .inr ⟨hnone, heq'.trans hmade⟩
      · rw [hmade] at hnone'
        cases hnone'
  · intro t t' path h p
    obtain ⟨-, hnone, rfl⟩ := makeDir_eq_ok h
    by_cases hp : p = place path
    · rw [hp]
      exact .inr ⟨hnone, node?_put_self (by simp [hnone]) .directory⟩
    · exact .inl (node?_put_ne hp t .directory)

end directories

end DiamondScript.Tree
